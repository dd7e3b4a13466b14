import Patmos.StackCacheRefinement
namespace Patmos.StackMemory
open Transition StackCache

-- What a spill that began in state b has written: the words from its target on, as far as the transfer address.
structure Copied (g : StackGeometry) (b s : State) : Prop where
  target : s.cache.spillTarget g = b.cache.spillTarget g
  block : s.cache.memoryBlock = b.cache.memoryBlock
  ram : ∀ word, s.memory.ram word =
    if b.cache.spillTarget g ≤ 4*word ∧ 4*word < b.cache.memTopReg ∧ 4*word < s.cache.transferAddrReg
    then b.cache.memoryBlock (word % g.words) else b.memory.ram word

-- Only the last burst passes the old top of the cache.
inductive Going (g : StackGeometry) (b s : State) : StackCacheState → Prop where
  | holdSpill : s.cache.memTopReg = b.cache.memTopReg → s.cache.transferAddrReg ≤ b.cache.memTopReg → Going g b s .holdSpill
  | spill : s.cache.memTopReg = b.cache.memTopReg →
      s.cache.transferAddrReg ≤ b.cache.memTopReg+4*s.cache.burstCounter g → Going g b s .spill
  | waitSpill : s.cache.memTopReg = b.cache.memTopReg ∨ max s.cache.memTopReg b.cache.memTopReg ≤ s.cache.transferAddrReg →
      s.cache.transferAddrReg ≤ b.cache.memTopReg+4*g.burst → Going g b s .waitSpill

def weight : StackCacheState → Nat
  | .waitSpill => 2
  | .holdSpill => 1
  | _ => 0

def rank (g : StackGeometry) (b s : State) : Nat :=
  3*(b.cache.memTopReg+4*g.burst-s.cache.transferAddrReg)+weight s.cache.stateReg

def Waits (s : State) (x : StackCacheInput) : Prop :=
  s.cache.stateReg = .holdSpill ∧ x.toMemory.cmdAccept = false ∨ s.cache.stateReg = .waitSpill ∧ x.toMemory.resp = .null

structure Underway (g : StackGeometry) (b : State) (k : Nat) (s : State) : Prop where
  valid : Valid g s
  copied : Copied g b s
  going : Going g b s s.cache.stateReg
  rank : rank g b s = k

def Spilled (g : StackGeometry) (b s : State) : Prop :=
  s.cache.stateReg = .idle ∧ s.cache.memTopReg = b.cache.spillTarget g ∧
    ∀ word, s.memory.ram word =
      if b.cache.spillTarget g ≤ 4*word ∧ 4*word < b.cache.memTopReg then b.cache.memoryBlock (word % g.words)
      else b.memory.ram word

section Step
variable {g : StackGeometry} {b s t : State} {x : StackCacheInput}

theorem Copied.pause (copied : Copied g b s) (step : Continues g s t) (ram : t.memory.ram = s.memory.ram)
    (transfer : t.cache.transferAddrReg = s.cache.transferAddrReg) : Copied g b t where
  target := by rw [step.target,copied.target]
  block := by rw [step.block,copied.block]
  ram := by rw [ram,transfer]; exact copied.ram

theorem Copied.beat (copied : Copied g b s) (step : Continues g s t) (spilling : Spilling g s)
    (memTop : s.cache.memTopReg = b.cache.memTopReg) (aligned : s.cache.transferAddrReg % 4 = 0)
    (ram : t.memory.ram =
      BurstMemory.store s.memory.ram s.cache.transferAddrReg s.cache.rdData fun _ => s.cache.writeEnable g)
    (transfer : t.cache.transferAddrReg = s.cache.transferAddrReg+4) : Copied g b t where
  target := by rw [step.target,copied.target]
  block := by rw [step.block,copied.block]
  ram := by
    intro word
    rw [ram,BurstMemory.store_apply,copied.ram,transfer]
    by_cases here : word = s.cache.transferAddrReg/4
    · have exact : s.cache.transferAddrReg = 4*word := by omega
      rw [if_pos here,writeEnable_eq,copied.target,memTop,spilling.read,copied.block,StackGeometry.cell,exact]
      by_cases enabled : b.cache.spillTarget g ≤ 4*word ∧ 4*word < b.cache.memTopReg
      · simp [enabled]
      · simp only [decide_eq_false enabled,BurstMemory.merge_none]
        rw [if_neg (by omega),if_neg (by omega)]
    · rw [if_neg here]
      exact if_congr (by omega) rfl rfl

variable (under : Underway g b k s) (valid : Valid g t) (step : Continues g s t)
include under valid step

theorem beat_underway (spilling : Spilling g s) (memTop : s.cache.memTopReg = b.cache.memTopReg) (beats : Beats g s start beat)
    (before : start ≤ b.cache.memTopReg)
    (cache : t.cache = {s.cache.settle (g.cell (s.cache.transferAddrReg+4)) with
      stateReg := if beat = g.burst-1 then .waitSpill else .spill
      transferAddrReg := s.cache.transferAddrReg+4})
    (ram : t.memory.ram = BurstMemory.store s.memory.ram (start+beat*4) s.cache.rdData fun _ => s.cache.writeEnable g) :
    Underway g b (rank g b t) t ∧ rank g b t < k := by
  have within := beats.within
  have addr : t.cache.transferAddrReg = start+(beat+1)*4 := by
    rw [cache,Nat.add_mul,← Nat.add_assoc,← beats.addr]
  have same : t.cache.memTopReg = b.cache.memTopReg := by rw [cache]; exact memTop
  refine ⟨⟨valid,under.copied.beat step spilling memTop beats.aligned (by rw [ram,beats.addr]) (by rw [cache]),?_,rfl⟩,?_⟩
  · have state : t.cache.stateReg = if beat = g.burst-1 then .waitSpill else .spill := by rw [cache]
    rw [state]
    split
    · exact .waitSpill (.inl same) (by omega)
    · have later : Beats g t start (beat+1) := ⟨beats.exact,addr,by omega⟩
      refine .spill same ?_
      rw [later.counter]
      omega
  · have light : weight t.cache.stateReg ≤ 2 := by cases t.cache.stateReg <;> decide
    rw [← under.rank,rank,rank,beats.addr]
    omega

omit step in
theorem wait_underway (admitted : (system g).admits s x) (same : t = (system g).next s x) (state : s.cache.stateReg = .waitSpill)
    (phase : s.memory.phase = .ack) (address : s.cache.rdAddrReg = g.cell s.cache.transferAddrReg)
    (passed : s.cache.spillTarget g ≤ s.cache.transferAddrReg)
    (memTop : s.cache.memTopReg = b.cache.memTopReg ∨ max s.cache.memTopReg b.cache.memTopReg ≤ s.cache.transferAddrReg)
    (before : s.cache.transferAddrReg ≤ b.cache.memTopReg+4*g.burst) :
    Spilled g b t ∨ ∃ j, Underway g b j t ∧ (j < k ∨ j = k ∧ Waits s x) := by
  obtain ⟨cache,memory,step,answer⟩ := waits_cycle admitted state phase address
  rw [← same] at cache memory step
  have transfer : t.cache.transferAddrReg = s.cache.transferAddrReg := by rw [cache]; rfl
  have copied := under.copied.pause step (by rw [memory]) transfer
  have top : t.cache.memTopReg = if s.cache.spillingDone then s.cache.spillTarget g else s.cache.memTopReg := by rw [cache]
  have past : s.cache.spillingDone = true → b.cache.memTopReg ≤ s.cache.transferAddrReg := by
    intro complete
    have reached : s.cache.memTopReg ≤ s.cache.transferAddrReg := of_decide_eq_true complete
    omega
  rcases answer with resp | resp
  · right
    have still : t.cache.stateReg = .waitSpill := by rw [cache,resp]; rfl
    refine ⟨k,⟨valid,copied,?_,?_⟩,.inr ⟨rfl,.inr ⟨state,resp⟩⟩⟩
    · rw [still]
      refine .waitSpill ?_ (by rwa [transfer])
      rw [top,transfer]
      split
      next complete => exact .inr (Nat.max_le.mpr ⟨passed,past complete⟩)
      next => exact memTop
    · rw [← under.rank,rank,rank,transfer,state,still]
  · cases complete : s.cache.spillingDone with
    | true =>
      left
      refine ⟨by rw [cache,if_pos resp,if_pos complete],by rw [top,if_pos complete,under.copied.target],fun word => ?_⟩
      have beyond := past complete
      rw [copied.ram]
      exact if_congr (by omega) rfl rfl
    | false =>
      right
      have short : ¬s.cache.memTopReg ≤ s.cache.transferAddrReg := of_decide_eq_false complete
      have holds : t.cache.stateReg = .holdSpill := by rw [cache,if_pos resp,if_neg (by simp [complete])]
      rw [if_neg (by simp [complete])] at top
      refine ⟨_,⟨valid,copied,?_,rfl⟩,.inl ?_⟩
      · rw [holds]
        exact .holdSpill (by rw [top]; omega) (by rw [transfer]; omega)
      · rw [← under.rank,rank,rank,holds,transfer,state]
        exact Nat.lt_succ_self _

omit valid step in
theorem underway_step (bursts : 1 < g.burst) (admitted : (system g).admits s x) :
    Spilled g b ((system g).next s x) ∨ ∃ j, Underway g b j ((system g).next s x) ∧ (j < k ∨ j = k ∧ Waits s x) := by
  have valid := valid_step under.valid bursts admitted
  have stage := under.valid.stage
  have going := under.going
  generalize state : s.cache.stateReg = now at stage going
  cases going with
  | holdSpill memTop before =>
    right
    cases stage with
    | holdSpill phase spilling address exact near =>
      cases accepted : x.toMemory.cmdAccept with
      | false =>
        obtain ⟨cache,memory,step⟩ := refused_cycle admitted state phase address accepted
        refine ⟨k,⟨valid,under.copied.pause step (by rw [memory]) (by rw [cache]; rfl),?_,?_⟩,.inr ⟨rfl,.inl ⟨state,accepted⟩⟩⟩
        · rw [cache]
          change Going g b _ s.cache.stateReg
          rw [state]
          exact .holdSpill (by rw [cache]; exact memTop) (by rw [cache]; exact before)
        · rw [← under.rank,rank,cache]
          rfl
      | true =>
        obtain ⟨cache,memory,step⟩ := held_cycle admitted state phase accepted
        have more : ¬0 = g.burst-1 := by omega
        obtain ⟨still,nearer⟩ := beat_underway under valid step spilling memTop ⟨exact,rfl,g.burst_pos⟩ before
          (by rw [cache,if_neg more]) (by rw [memory])
        exact ⟨_,still,.inl nearer⟩
  | spill memTop before =>
    right
    cases stage with
    | spill phase spilling beats near =>
      obtain ⟨cache,memory,step⟩ := spilled_cycle admitted state phase beats
      rw [beats.counter,beats.addr] at before
      obtain ⟨still,nearer⟩ := beat_underway under valid step spilling memTop beats (by omega) cache (by rw [memory])
      exact ⟨_,still,.inl nearer⟩
  | waitSpill memTop before =>
    cases stage with
    | waitSpill phase spilling address exact passed =>
      exact wait_underway under valid admitted rfl state phase address passed memTop before
end Step

-- The top a stack operation leaves when it spills.
def newMemTop (g : StackGeometry) (c : StackCache) (x : StackCacheInput) : Nat :=
  if x.op = .res then c.stackTopReg-x.opOff+g.size else c.memTopReg-x.opOff

structure Begun (g : StackGeometry) (s : State) (x : StackCacheInput) (b : State) : Prop where
  target : b.cache.spillTarget g = newMemTop g s.cache x
  memTop : b.cache.memTopReg = s.cache.memTopReg
  block : b.cache.memoryBlock = s.cache.memoryBlock
  transfer : b.cache.transferAddrReg = g.burstStart (newMemTop g s.cache x)

theorem spill_begun {g : StackGeometry} {s : State} (issues : Issues g s.cache x) (state : s.cache.stateReg = .idle)
    (starts : ((system g).next s x).cache.stateReg = .holdSpill) : Begun g s x ((system g).next s x) := by
  have free : s.cache.stall = false := by simp [stall,state]
  rw [Issues,free] at issues
  cases runs : x.enaIn with
  | false => simp [next,runs,state] at starts
  | true =>
    have quiet : x.op ≠ .none → x.fromCPU.cmd = .idle := by
      intro other
      simp only [runs] at issues
      exact (issues.resolve_right fun access => other access.1).1
    cases op : x.op with
    | res =>
      have cache := @next_res g _ _ (quiet (by simp [op])) state runs op
      constructor <;> rw [system_cache,cache] <;> simp [newMemTop,spillTarget,settle,nextStackTop,op]
    | spill =>
      have cache := @next_spill g _ _ (quiet (by simp [op])) state runs op
      constructor <;> rw [system_cache,cache] <;> simp [newMemTop,spillTarget,settle,nextNewMemTop,op]
    | ens => cases above : s.cache.stackAboveMem x <;> simp [next,stateNext,runs,state,op,above] at starts
    | none | setSt | setMt | free => simp [next,stateNext,state,op] at starts

theorem Begun.underway (begun : Begun g s x b) (valid : Valid g b) (state : b.cache.stateReg = .holdSpill) :
    Underway g b (rank g b b) b := by
  have stage := valid.stage
  have before := begun.transfer ▸ g.burstStart_le (newMemTop g s.cache x)
  rw [← begun.target] at before
  rw [state] at stage
  cases stage with
  | holdSpill phase spilling address exact near =>
    refine ⟨valid,⟨rfl,rfl,fun word => (if_neg ?_).symm⟩,?_,rfl⟩
    · omega
    · rw [state]
      exact .holdSpill rfl (before.trans spilling.below)

theorem spill_frame (g : StackGeometry) (bursts : 0 < g.burstBits) (s : State) (path : Reached (system g) s)
    (inputs : Nat → StackCacheInput) (follows : ∀ t, (system g).Follows s inputs t) (idle : s.cache.stateReg = .idle)
    (starts : ((system g).next s (inputs 0)).cache.stateReg = .holdSpill)
    (fair : ∀ t, ∃ u, t ≤ u ∧ ¬Waits ((system g).states s inputs u) (inputs u)) :
    ∃ u, (∀ v, 0 < v → v < u → ((system g).states s inputs v).cache.stall = true) ∧
      ((system g).states s inputs u).cache.stall = false ∧
      ((system g).states s inputs u).cache.memTopReg = newMemTop g s.cache (inputs 0) ∧
      ∀ word, ((system g).states s inputs u).memory.ram word =
        if newMemTop g s.cache (inputs 0) ≤ 4*word ∧ 4*word < s.cache.memTopReg then s.cache.memoryBlock (word % g.words)
        else s.memory.ram word := by
  have several : 1 < g.burst := Nat.one_lt_two_pow bursts.ne'
  have admitted : (system g).admits s (inputs 0) := follows 1 0 Nat.zero_lt_one
  have valid := reached_valid several path
  have begun := spill_begun admitted.1 idle starts
  have under := begun.underway (valid_step valid several admitted) starts
  obtain ⟨u,later,⟨rests,memTop,ram⟩,through⟩ := System.settles (t := 1)
    (fun _ _ _ under admitted => underway_step under several admitted) follows fair under
  refine ⟨u+1,fun v since before => ?_,by simp [stall,rests],by rw [memTop,begun.target],fun word => ?_⟩
  · obtain ⟨k,under⟩ := through v since (Nat.lt_succ_iff.mp before)
    have going := under.going
    cases state : ((system g).states s inputs v).cache.stateReg <;> simp [stall,state]
    rw [state] at going
    cases going
  · have stage := valid.stage
    rw [idle] at stage
    cases stage with
    | idle phase fits => rw [ram,begun.target,begun.memTop,begun.block,idle_memory phase idle]

-- The second frame pushes the word of the first one out.
def framed : State := (system ⟨1,1⟩).run begin [operate .res 8,storeWord 0 0xAB]
def secondFrame (t : Nat) : StackCacheInput := [operate .res 8,accept,accept,answer 0].getD t quiet

theorem quiet_rests (g : StackGeometry) (rests : s.cache.stateReg = .idle ∧ s.memory.phase = .idle) :
    (system g).admits s quiet ∧
    ((system g).next s quiet).cache.stateReg = .idle ∧ ((system g).next s quiet).memory.phase = .idle := by
  refine ⟨⟨?_,?_,?_,?_⟩,?_,?_⟩
  · simp [Issues,Legal,quiet]
  · simp [BurstMemory.State.Answers,quiet,OcpBurstSlaveSignals.quiet,rests.2]
  · simp [quiet,OcpBurstSlaveSignals.quiet]
  · simp [streaming,rests.2]
  · simp [next,stateNext,quiet,rests.1]
  · rw [idle_memory rests.2 rests.1,rests.2]

theorem spill_frame_second : ∃ u, ((system ⟨1,1⟩).states framed secondFrame u).cache.memTopReg = 56 ∧
    ((system ⟨1,1⟩).states framed secondFrame u).memory.ram 14 = fun _ => 0xAB := by
  have path : Reached (system ⟨1,1⟩) framed := (Reached.start (begin_starts _)).run _ (by decide +kernel)
  have rests : ∀ t, ((system ⟨1,1⟩).states framed secondFrame (t+4)).cache.stateReg = .idle ∧
      ((system ⟨1,1⟩).states framed secondFrame (t+4)).memory.phase = .idle := by
    intro t
    induction t with
    | zero => decide +kernel
    | succ t ih => exact (quiet_rests _ ih).2
  have follows : ∀ t, (system ⟨1,1⟩).Follows framed secondFrame t := by
    intro t u _
    match u with
    | 0 | 1 | 2 | 3 => decide +kernel
    | u+4 => exact (quiet_rests _ (rests u)).1
  obtain ⟨u,_,_,memTop,ram⟩ := spill_frame ⟨1,1⟩ (by decide) framed path secondFrame follows (by decide +kernel) (by decide +kernel)
    fun t => ⟨t+4,Nat.le_add_right t 4,by simp [Waits,rests t]⟩
  exact ⟨u,memTop,(ram 14).trans (by decide +kernel)⟩

-- The other units stall the cache in any cycle.
def unguarded (g : StackGeometry) : System State StackCacheInput where
  __ := system g
  admits s x := (Issues g s.cache x ∨ x.enaIn = false ∧ x.fromCPU.cmd = .idle) ∧ Serves g s x

instance (g : StackGeometry) (s : State) (x : StackCacheInput) : Decidable ((unguarded g).admits s x) :=
  inferInstanceAs (Decidable (_ ∧ _ ∧ _ ∧ (_ → _)))

-- The read address of the next word is set in a cycle in which the first one is not sent.
def heldFrame : List StackCacheInput := [operate .res 8,{accept with enaIn := false},accept,accept,answer 0]

theorem held_word_replaced : Reached (unguarded ⟨1,1⟩) framed ∧ (unguarded ⟨1,1⟩).Admits framed heldFrame ∧
    ((unguarded ⟨1,1⟩).run framed heldFrame).cache.stall = false ∧
    ((unguarded ⟨1,1⟩).run framed heldFrame).cache.memTopReg = newMemTop ⟨1,1⟩ framed.cache (operate .res 8) ∧
    framed.cache.memoryBlock 0 = (fun _ => 0xAB) ∧ ((unguarded ⟨1,1⟩).run framed heldFrame).memory.ram 14 = fun _ => 0 := by
  have start : (unguarded ⟨1,1⟩).start begin := begin_starts ⟨1,1⟩
  exact ⟨(Reached.start start).run [operate .res 8,storeWord 0 0xAB] (by decide +kernel),by decide +kernel⟩
end Patmos.StackMemory
