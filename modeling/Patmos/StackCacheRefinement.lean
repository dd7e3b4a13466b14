import Patmos.StackCacheTransfer
namespace Patmos.StackMemory
open Transition StackCache CircularBuffer

attribute [local simp] system flatNext

section Operation
variable {g : StackGeometry} {s : State} {x : StackCacheInput}

theorem idle_memory (phase : s.memory.phase = .idle) (state : s.cache.stateReg = .idle) :
    ((system g).next s x).memory = s.memory := by
  apply BurstMemory.next_unused _ _ phase
  simp [toMemoryM,state]

theorem flat_rests (quiet : x.fromCPU.cmd = .idle) (rests : x.enaIn = false ∨ x.op ≠ .res ∧ x.op ≠ .free) :
    ((system g).next s x).flat = s.flat := by
  rcases rests with stalled | ⟨other,another⟩
  · simp [quiet,stalled]
  · cases op : x.op <;> simp_all

theorem hold_begins (phase : t.memory.phase = .idle) (start : t.cache.transferAddrReg = g.burstStart (t.cache.spillTarget g))
    (aligned : t.cache.spillTarget g % 4 = 0) (above : t.cache.stackTopReg ≤ t.cache.spillTarget g)
    (below : t.cache.spillTarget g ≤ t.cache.memTopReg) (fits : t.cache.spillTarget g ≤ t.cache.stackTopReg+g.size)
    (address : t.cache.rdAddrReg = g.cell t.cache.transferAddrReg)
    (read : t.cache.rdData = t.cache.memoryBlock (g.cell t.cache.transferAddrReg)) : Stage g t .holdSpill := by
  have before := g.burstStart_le (t.cache.spillTarget g)
  refine .holdSpill phase ⟨aligned,above,below,fits,?_,read⟩ address ?_ ?_
  · intro word wanted sent
    omega
  · rw [start]
    exact g.burstStart_exact _
  · rw [start]
    exact g.below_burst _

section Idle
variable (valid : Valid g s) (state : s.cache.stateReg = .idle) (phase : s.memory.phase = .idle)
include valid state phase

theorem start_step (quiet : x.fromCPU.cmd = .idle) (rests : x.enaIn = false ∨ x.op ≠ .res ∧ x.op ≠ .free)
    (cache : s.cache.next g x = {s.cache.settle addr with
      stateReg := begun
      isReserveReg := reserve
      transferAddrReg := transfer
      newMemTopReg := newMemTop})
    (stage : Stage g ((system g).next s x) begun) : Valid g ((system g).next s x) := by
  have flat : ((system g).next s x).flat = s.flat := flat_rests quiet rests
  have memory := @idle_memory g s x phase state
  refine valid.busy ⟨flat,by simp [quiet],by rw [system_cache,cache]; rfl⟩ (by rw [system_cache,cache]; rfl) valid.memTop
    valid.ordered ?_ ?_ ?_
  · rw [Held,flat,system_cache,cache]
    exact valid.held
  · rw [memory]
    exact valid.backed
  · rw [system_cache,cache]
    exact stage

variable (fits : s.cache.memTopReg ≤ s.cache.stackTopReg+g.size)
include fits

theorem rest_step (quiet : x.fromCPU.cmd = .idle) (rests : x.enaIn = false ∨ x.op = .none) : Valid g ((system g).next s x) := by
  have cache := @next_rests g _ _ quiet state rests
  refine start_step valid state phase quiet (rests.imp_right (by simp +contextual)) cache ?_
  change Stage g _ s.cache.stateReg
  rw [state]
  refine .idle (by rw [idle_memory phase state,phase]) ?_
  rw [system_cache,cache]
  exact fits

variable (aligned : Aligned g x.opOff) (quiet : x.fromCPU.cmd = .idle) (runs : x.enaIn = true)
include aligned quiet runs

theorem ens_step (op : x.op = .ens) : Valid g ((system g).next s x) := by
  have cache := @next_ens g _ _ quiet state runs op
  have memory : ((system g).next s x).memory.phase = .idle := by rw [idle_memory phase state,phase]
  refine start_step valid state phase quiet (.inr (by simp [op])) cache ?_
  cases missing : s.cache.stackAboveMem x with
  | false =>
    refine .idle memory ?_
    rw [system_cache,cache]
    exact fits
  | true =>
    have short : s.cache.memTopReg-s.cache.stackTopReg < x.opOff := of_decide_eq_true missing
    refine .fill memory ⟨?_,?_,?_,?_⟩ ?_
    · rw [system_cache,cache]
      have top := valid.stackTop
      have whole := aligned.1
      change (s.cache.stackTopReg+x.opOff) % 4 = 0
      omega
    · rw [system_cache,cache]
      change s.cache.memTopReg ≤ s.cache.stackTopReg+x.opOff
      omega
    · rw [system_cache,cache]
      exact Nat.add_le_add_left aligned.2 _
    · rw [Held,flat_rests quiet (.inr (by simp [op])),system_cache,cache]
      exact valid.held.within le_rfl
        (Nat.div_le_div_right (Nat.le_trans (Nat.min_le_left _ _) (g.burstStart_le s.cache.memTopReg)))
    · rw [system_cache,cache]
      exact g.burstStart_exact _

theorem spillOp_step (op : x.op = .spill) (held : x.opOff ≤ s.cache.memTopReg-s.cache.stackTopReg) :
    Valid g ((system g).next s x) := by
  have cache := @next_spill g _ _ quiet state runs op
  have top := valid.memTop
  have ordered := valid.ordered
  have whole := aligned.1
  refine start_step valid state phase quiet (.inr (by simp [op])) cache (hold_begins (by rw [idle_memory phase state,phase]) ?_ ?_ ?_ ?_ ?_ ?_ ?_)
  all_goals rw [system_cache,cache]
  · rfl
  · change (s.cache.memTopReg-x.opOff) % 4 = 0
    omega
  · change s.cache.stackTopReg ≤ s.cache.memTopReg-x.opOff
    omega
  · exact Nat.sub_le _ _
  · exact Nat.le_trans (Nat.sub_le _ _) fits
  · rfl
  · rfl

omit fits in
theorem res_step (op : x.op = .res) (room : x.opOff ≤ s.cache.stackTopReg) : Valid g ((system g).next s x) := by
  have cache := @next_res g _ _ quiet state runs op
  have memory := @idle_memory g s x phase state
  have flat : ((system g).next s x).flat = s.flat.reserve x.opOff := by simp [quiet,runs,stall,state,op]
  have lowered : ((system g).next s x).cache.stackTopReg = s.cache.stackTopReg-x.opOff := by rw [system_cache,cache]; rfl
  have memTop : ((system g).next s x).cache.memTopReg = s.cache.memTopReg := by rw [system_cache,cache]; rfl
  have target : ((system g).next s x).cache.spillTarget g = s.cache.stackTopReg-x.opOff+g.size := by
    rw [system_cache,cache]
    rfl
  have whole := aligned.1
  have stackTop := valid.stackTop
  have ordered := valid.ordered
  refine ⟨?_,?_,?_,?_,?_,?_,?_,?_⟩
  · rw [flat,lowered,← valid.top]
    rfl
  · omega
  · rw [memTop,valid.memTop]
  · omega
  · rw [Held,flat,lowered,system_cache,cache]
    intro word above below
    by_cases fresh : word < s.cache.stackTopReg/4
    · rw [← valid.top] at above fresh
      exact s.flat.reserve_fresh _ above fresh
    · have old := Nat.not_lt.mp fresh
      rw [s.flat.reserve_kept (by rwa [valid.top])]
      exact valid.held word old below
  · intro word above
    rw [memTop] at above
    rw [flat,memory,s.flat.reserve_kept (by rw [valid.top]; omega)]
    exact valid.backed word above
  · intro word load
    simp [quiet] at load
  · have begun : ((system g).next s x).cache.stateReg = if s.cache.needsSpill g x then .holdSpill else .idle := by
      rw [system_cache,cache]
    rw [begun]
    cases spills : s.cache.needsSpill g x with
    | false =>
      have short : ¬s.cache.memTopReg-(s.cache.stackTopReg-x.opOff) > g.size := of_decide_eq_false spills
      refine .idle (by rw [memory,phase]) ?_
      omega
    | true =>
      have long : s.cache.memTopReg-(s.cache.stackTopReg-x.opOff) > g.size := of_decide_eq_true spills
      refine hold_begins (by rw [memory,phase]) ?_ ?_ ?_ ?_ ?_ ?_ ?_
      · rw [system_cache,cache]
        rfl
      · rw [target,StackGeometry.size]
        omega
      · rw [target,lowered]
        exact Nat.le_add_right _ _
      · omega
      · rw [target,lowered]
      · rw [system_cache,cache]
        rfl
      · rw [system_cache,cache]
        rfl

theorem free_step (op : x.op = .free) : Valid g ((system g).next s x) := by
  have cache := @next_free g _ _ quiet state runs op
  have memory := @idle_memory g s x phase state
  have flat : ((system g).next s x).flat = s.flat.free x.opOff := by simp [quiet,runs,stall,state,op]
  have raised : ((system g).next s x).cache.stackTopReg = s.cache.stackTopReg+x.opOff := by rw [system_cache,cache]; rfl
  have memTop : ((system g).next s x).cache.memTopReg = max s.cache.memTopReg (s.cache.stackTopReg+x.opOff) := by
    have ordered := valid.ordered
    have plain : ((system g).next s x).cache.memTopReg =
        if s.cache.stackAboveMem x then s.cache.stackTopReg+x.opOff else s.cache.memTopReg := by
      rw [system_cache,cache]
      rfl
    rw [plain]
    cases above : s.cache.stackAboveMem x with
    | false =>
      have inside : ¬s.cache.memTopReg-s.cache.stackTopReg < x.opOff := of_decide_eq_false above
      simp only [Bool.false_eq_true,if_false]
      exact (Nat.max_eq_left (by omega)).symm
    | true =>
      have outside : s.cache.memTopReg-s.cache.stackTopReg < x.opOff := of_decide_eq_true above
      simp only [if_true]
      exact (Nat.max_eq_right (by omega)).symm
  have kept : ∀ word, (s.cache.stackTopReg+x.opOff)/4 ≤ word → (s.flat.free x.opOff).bytes word = s.flat.bytes word :=
    fun word above => s.flat.free_kept (by rwa [valid.top])
  have whole := aligned.1
  have stackTop := valid.stackTop
  have upper := valid.memTop
  refine ⟨?_,?_,?_,?_,?_,?_,?_,?_⟩
  · rw [flat,raised,← valid.top]
    rfl
  · omega
  · omega
  · rw [raised,memTop]
    exact Nat.le_max_right _ _
  · rw [Held,flat,raised,memTop,system_cache,cache]
    intro word above below
    rw [kept word above]
    exact valid.held word (by omega) (by omega)
  · intro word above
    rw [flat,memory,kept word (by omega)]
    exact valid.backed word (by omega)
  · intro word load
    simp [quiet] at load
  · have rests : ((system g).next s x).cache.stateReg = .idle := by
      rw [system_cache,cache]
      exact state
    rw [rests]
    refine .idle (by rw [memory,phase]) ?_
    omega

omit aligned quiet runs in
theorem access_step (command : x.fromCPU.cmd ≠ .idle) (other : x.op = .none)
    (inside : x.fromCPU.addr+s.cache.stackTopReg < s.cache.memTopReg) : Valid g ((system g).next s x) := by
  have cache := @next_accessed g _ _ state command other
  have memory := @idle_memory g s x phase state
  have stackTop : ((system g).next s x).cache.stackTopReg = s.cache.stackTopReg := by rw [system_cache,cache]
  have memTop : ((system g).next s x).cache.memTopReg = s.cache.memTopReg := by rw [system_cache,cache]
  have upper := valid.memTop
  have lower := valid.stackTop
  have word : s.flat.word x.fromCPU.addr = (x.fromCPU.addr+s.cache.stackTopReg)/4 := by rw [FlatStack.word,valid.top]
  have rests : Stage g ((system g).next s x) ((system g).next s x).cache.stateReg := by
    have still : ((system g).next s x).cache.stateReg = .idle := by rw [system_cache,cache,state]
    rw [still]
    exact .idle (by rw [memory,phase]) (by rwa [stackTop,memTop])
  cases kind : x.fromCPU.cmd with
  | idle => exact absurd kind command
  | wr =>
    have flat : ((system g).next s x).flat = s.flat.store x.fromCPU.addr x.fromCPU.data x.fromCPU.byteEn := by
      simp [kind]
    refine ⟨?_,?_,?_,?_,?_,?_,?_,rests⟩
    · rw [flat,stackTop]
      exact valid.top
    · rw [stackTop,lower]
    · rw [memTop,upper]
    · rw [stackTop,memTop]
      exact valid.ordered
    · rw [Held,flat,system_cache,cache,if_pos kind]
      rw [StackGeometry.size] at fits
      refine valid.held.write (by omega) (by omega) (by omega) ?_ ?_
      · intro w value _ _ elsewhere agrees
        rwa [s.flat.store_kept _ _ (by rwa [word])]
      · intro below
        rw [← word]
        apply s.flat.store_here
        rw [word]
        exact valid.held _ (by omega) below
    · intro w above
      rw [memTop] at above
      rw [flat,memory,s.flat.store_kept _ _ (by rw [word]; omega)]
      exact valid.backed w above
    · intro w load
      simp [kind] at load
  | rd =>
    have flat : ((system g).next s x).flat = s.flat := by simp [kind,other]
    refine ⟨?_,?_,?_,?_,?_,?_,?_,rests⟩
    · rw [flat,stackTop]
      exact valid.top
    · rw [stackTop,lower]
    · rw [memTop,upper]
    · rw [stackTop,memTop]
      exact valid.ordered
    · rw [Held,flat,system_cache,cache,if_neg (by rw [kind]; decide)]
      exact valid.held
    · rw [flat,memory,memTop]
      exact valid.backed
    · intro w load
      have here : s.flat.word x.fromCPU.addr = w := by simpa [kind] using load
      refine ⟨by rw [system_cache,cache]; rfl,?_⟩
      rw [flat,system_cache,cache,rdData_load state kind other,← here,word]
      exact valid.held _ (by omega) (by omega)
end Idle

theorem idle_step (valid : Valid g s) (admitted : (system g).admits s x) (state : s.cache.stateReg = .idle) :
    Valid g ((system g).next s x) := by
  have stage := valid.stage
  have issues := admitted.1
  rw [state] at stage
  rw [Issues] at issues
  cases stage with
  | idle phase fits =>
    cases enabled : x.enaIn with
    | false =>
      simp only [enabled] at issues
      exact rest_step valid state phase fits issues.1 (.inl enabled)
    | true =>
      have free : s.cache.stall = false := by simp [stall,state]
      simp only [enabled,free] at issues
      rcases issues with ⟨quiet,legal⟩ | ⟨other,inside⟩
      · unfold Legal at legal
        cases op : x.op with
        | none => exact rest_step valid state phase fits quiet (.inr op)
        | ens =>
          rw [op] at legal
          exact ens_step valid state phase fits legal quiet enabled op
        | free =>
          rw [op] at legal
          exact free_step valid state phase fits legal quiet enabled op
        | res =>
          rw [op] at legal
          exact res_step valid state phase legal.1 quiet enabled op legal.2
        | spill =>
          rw [op] at legal
          exact spillOp_step valid state phase fits legal.1 quiet enabled op legal.2
        | setSt | setMt =>
          rw [op] at legal
          exact absurd legal id
      · by_cases quiet : x.fromCPU.cmd = .idle
        · exact rest_step valid state phase fits quiet (.inr other)
        · exact access_step valid state phase fits quiet other inside

theorem valid_step (valid : Valid g s) (bursts : 1 < g.burst) (admitted : (system g).admits s x) :
    Valid g ((system g).next s x) := by
  cases state : s.cache.stateReg with
  | idle => exact idle_step valid admitted state
  | fill => exact fill_step valid admitted state
  | waitFill => exact waitFill_step valid admitted state
  | spill => exact spill_step admitted valid state
  | holdSpill => exact hold_step admitted valid bursts state
  | waitSpill => exact waitSpill_step admitted valid state
  | error =>
    have stage := valid.stage
    rw [state] at stage
    cases stage
end Operation

theorem start_valid (begun : (system g).start s) : Valid g s := by
  obtain ⟨state,_,aligned,empty,phase,flat,_,load⟩ := begun
  refine ⟨by rw [flat],aligned,by rw [empty,aligned],Nat.le_of_eq empty.symm,?_,?_,?_,?_⟩
  · rw [empty]
    exact Holds.empty le_rfl
  · intro word _ i value known
    rw [flat] at known
    exact Option.some.inj known
  · intro word loaded
    rw [load] at loaded
    cases loaded
  · rw [state]
    exact .idle phase (by rw [empty]; exact Nat.le_add_right _ _)

theorem reached_valid {g : StackGeometry} (bursts : 1 < g.burst) (path : Reached (system g) s) : Valid g s :=
  path.invariant (fun _ begun => start_valid begun) fun _ _ valid admitted => valid_step valid bursts admitted

theorem stack_cache_refines (g : StackGeometry) (bursts : 0 < g.burstBits) :
    ∀ s, Reached (system g) s → s.flat.top = s.cache.stackTopReg ∧ Returns s.flat s := by
  intro s path
  have valid := reached_valid (Nat.one_lt_two_pow bursts.ne') path
  exact ⟨valid.top,valid.returns⟩

def quiet : StackCacheInput := ⟨true,.none,0,0,⟨.idle,0,fun _ => 0,fun _ => false⟩,.quiet,fun _ => 0⟩
def operate (op : StackCacheOp) (off : Nat) : StackCacheInput := {quiet with op,opOff := off}
def storeWord (addr : Nat) (value : BitVec 8) : StackCacheInput := {quiet with fromCPU := ⟨.wr,addr,fun _ => value,fun _ => true⟩}
def loadWord (addr : Nat) : StackCacheInput := {quiet with fromCPU := ⟨.rd,addr,fun _ => 0,fun _ => false⟩}
def accept : StackCacheInput := {quiet with toMemory := .accept}
def answer (value : BitVec 8) : StackCacheInput := {quiet with toMemory := ⟨.dva,fun _ => value,false,false⟩}

def begin : State where
  cache := ⟨.idle,false,64,64,0,0,fun _ _ => 0,fun _ => 0,0,.null⟩
  memory := ⟨fun _ _ => 1,.idle⟩
  flat := ⟨64,fun _ _ => some 1⟩
  initialised := ⟨64,fun _ _ => some 1⟩
  load := none

theorem begin_starts (g : StackGeometry) : (system g).start begin := ⟨rfl,rfl,rfl,rfl,rfl,rfl,rfl,rfl⟩

-- A stored word is spilled by a second frame and filled again, with one burst more than needed as the new top ends a
-- burst.
def refill : List StackCacheInput :=
  [operate .res 8,storeWord 0 0xAB,operate .res 8,accept,accept,answer 0,operate .free 8,operate .ens 8,
    accept,answer 0xAB,answer 0,accept,answer 1,answer 1,loadWord 0]

theorem stack_cache_refines_refill : (system ⟨1,1⟩).Admits begin refill ∧
    ((system ⟨1,1⟩).run begin refill).load = some 14 ∧
    ((system ⟨1,1⟩).run begin refill).flat.bytes 14 = (fun _ => some 0xAB) ∧
    Returns ((system ⟨1,1⟩).run begin refill).flat ((system ⟨1,1⟩).run begin refill) := by
  have admitted : (system ⟨1,1⟩).Admits begin refill := by decide +kernel
  exact ⟨admitted,by decide +kernel,by decide +kernel,
    (stack_cache_refines ⟨1,1⟩ (by decide) _ ((Reached.start (begin_starts _)).run _ admitted)).2⟩

-- A reserved word is not what main memory had at its address.
def unset : List StackCacheInput := [operate .res 4,loadWord 0]

theorem reserved_word_unset :
    ¬∀ g : StackGeometry, 0 < g.burstBits → ∀ s, Reached (system g) s → Returns s.initialised s := by
  intro returns
  have path := (Reached.start (begin_starts ⟨1,1⟩)).run unset (by decide +kernel)
  have agrees := (returns ⟨1,1⟩ (by decide) _ path 15 (by decide +kernel)).2
  exact absurd (agrees 0 1 (by decide +kernel)) (by decide +kernel)
end Patmos.StackMemory
