import Patmos.StackCacheCycle
namespace Patmos.StackMemory
open StackCache CircularBuffer BurstMemory Nat

section
variable (g : StackGeometry) (s : State) (start beat : Nat)

def Held (upper : Nat) : Prop :=
  Holds g.words s.cache.memoryBlock (fun word => Agrees (s.flat.bytes word)) (s.cache.stackTopReg/4) (upper/4)

-- The words from the target on have reached main memory up to the transfer address; the ones above the top of the cache
-- were there before.
structure Spilling : Prop where
  aligned : s.cache.spillTarget g % 4 = 0
  above : s.cache.stackTopReg ≤ s.cache.spillTarget g
  below : s.cache.spillTarget g ≤ s.cache.memTopReg
  fits : s.cache.spillTarget g ≤ s.cache.stackTopReg+g.size
  copied : ∀ word, s.cache.spillTarget g ≤ 4*word → 4*word < s.cache.transferAddrReg → 4*word < s.cache.memTopReg →
    Agrees (s.flat.bytes word) (s.memory.ram word)
  read : s.cache.rdData = s.cache.memoryBlock (g.cell s.cache.transferAddrReg)

structure Filling : Prop where
  aligned : s.cache.newMemTopReg % 4 = 0
  below : s.cache.memTopReg ≤ s.cache.newMemTopReg
  fits : s.cache.newMemTopReg ≤ s.cache.stackTopReg+g.size
  copied : Held g s (min s.cache.transferAddrReg s.cache.newMemTopReg)

structure Beats : Prop where
  exact : start % (4*g.burst) = 0
  addr : s.cache.transferAddrReg = start+beat*4
  within : beat < g.burst
end

section
variable {g : StackGeometry} {s : State} (beats : Beats g s start beat)
include beats

theorem Beats.counter : s.cache.burstCounter g = beat := by
  obtain ⟨whole,aligned⟩ := g.word_burst beats.exact
  have word : (start+beat*4)/4 = start/4+beat := add_mul_div_right start beat (by decide)
  rw [burstCounter,beats.addr,word,add_mod,whole,zero_add,mod_mod,mod_eq_of_lt beats.within]

theorem Beats.aligned : s.cache.transferAddrReg % 4 = 0 := by
  have whole := (g.word_burst beats.exact).2
  rw [beats.addr]
  omega
end

inductive Stage (g : StackGeometry) (s : State) : StackCacheState → Prop where
  | idle : s.memory.phase = .idle → s.cache.memTopReg ≤ s.cache.stackTopReg+g.size → Stage g s .idle
  | holdSpill : s.memory.phase = .idle → Spilling g s → s.cache.rdAddrReg = g.cell s.cache.transferAddrReg →
      s.cache.transferAddrReg % (4*g.burst) = 0 → s.cache.spillTarget g < s.cache.transferAddrReg+4*g.burst → Stage g s .holdSpill
  | spill : s.memory.phase = .write start beat → Spilling g s → Beats g s start beat →
      s.cache.spillTarget g < start+4*g.burst → Stage g s .spill
  | waitSpill : s.memory.phase = .ack → Spilling g s → s.cache.rdAddrReg = g.cell s.cache.transferAddrReg →
      s.cache.transferAddrReg % (4*g.burst) = 0 → s.cache.spillTarget g ≤ s.cache.transferAddrReg → Stage g s .waitSpill
  | fill : s.memory.phase = .idle → Filling g s → s.cache.transferAddrReg % (4*g.burst) = 0 → Stage g s .fill
  | waitFill : s.memory.phase = .read start beat → Filling g s → Beats g s start beat → Stage g s .waitFill

section
variable (g : StackGeometry) (s : State) (x : StackCacheInput)

structure Valid : Prop where
  top : s.flat.top = s.cache.stackTopReg
  stackTop : s.cache.stackTopReg % 4 = 0
  memTop : s.cache.memTopReg % 4 = 0
  ordered : s.cache.stackTopReg ≤ s.cache.memTopReg
  held : Held g s s.cache.memTopReg
  backed : ∀ word, s.cache.memTopReg ≤ 4*word → Agrees (s.flat.bytes word) (s.memory.ram word)
  returns : Returns s.flat s
  stage : Stage g s s.cache.stateReg

@[simp] theorem system_cache : ((system g).next s x).cache = s.cache.next g x := rfl

@[simp] theorem system_memory : ((system g).next s x).memory = s.memory.next g.burst (s.cache.toMemoryM g x) x.toMemory := rfl
end

theorem flat_busy (quiet : x.fromCPU.cmd = .idle) (busy : s.cache.stall = true) (g : StackGeometry) :
    ((system g).next s x).flat = s.flat ∧ ((system g).next s x).load = none := by
  simp [system,flatNext,quiet,busy]

theorem busy_issues (issues : Issues g c x) (moves : c.stateReg ≠ .idle) : c.stall = true ∧ x.fromCPU.cmd = .idle := by
  have busy : c.stall = true := decide_eq_true moves
  unfold Issues at issues
  cases enabled : x.enaIn <;> simp_all

theorem runs_issues (issues : Issues g c x) (busy : c.stall = true)
    (sent : x.toMemory.cmdAccept = true ∨ c.stateReg ≠ .holdSpill ∧ c.stateReg ≠ .fill) : x.enaIn = true := by
  unfold Issues at issues
  cases enabled : x.enaIn with
  | true => rfl
  | false =>
    simp only [stall,decide_eq_true_eq] at busy
    simp only [enabled,busy,false_or] at issues
    rcases sent with accepted | ⟨held,filling⟩
    · rw [issues.2.2] at accepted
      cases accepted
    · exact absurd issues.2.1 (not_or.mpr ⟨held,filling⟩)

structure Busy (s t : State) : Prop where
  flat : t.flat = s.flat
  load : t.load = none
  stackTop : t.cache.stackTopReg = s.cache.stackTopReg

structure Continues (g : StackGeometry) (s t : State) : Prop extends Busy s t where
  target : t.cache.spillTarget g = s.cache.spillTarget g
  block : t.cache.memoryBlock = s.cache.memoryBlock

section Transfer
variable {g : StackGeometry} {s t : State} {x : StackCacheInput}

theorem Valid.busy (valid : Valid g s) (step : Busy s t) (memTop : t.cache.memTopReg = upper) (aligned : upper % 4 = 0)
    (ordered : s.cache.stackTopReg ≤ upper) (held : Held g t upper)
    (backed : ∀ word, upper ≤ 4*word → Agrees (s.flat.bytes word) (t.memory.ram word))
    (stage : Stage g t t.cache.stateReg) : Valid g t where
  top := by rw [step.flat,step.stackTop,valid.top]
  stackTop := by rw [step.stackTop,valid.stackTop]
  memTop := by rwa [memTop]
  ordered := by rwa [step.stackTop,memTop]
  held := by rwa [memTop]
  backed := by rwa [step.flat,memTop]
  returns := by
    intro word load
    rw [step.load] at load
    cases load
  stage := stage

theorem Valid.stage_at (valid : Valid g s) (state : s.cache.stateReg = now) : Stage g s now := state ▸ valid.stage

theorem continues_settled (quiet : x.fromCPU.cmd = .idle) (busy : s.cache.stall = true)
    (settled : ∃ addr state memTop transfer, s.cache.next g x =
      {s.cache.settle addr with stateReg := state,memTopReg := memTop,transferAddrReg := transfer}) :
    Continues g s ((system g).next s x) := by
  obtain ⟨flat,load⟩ := flat_busy quiet busy g
  obtain ⟨addr,state,memTop,transfer,cache⟩ := settled
  exact ⟨⟨flat,load,by rw [system_cache,cache]; rfl⟩,by rw [system_cache,cache]; rfl,by rw [system_cache,cache]; rfl⟩

theorem Continues.held (step : Continues g s t) (held : Held g s upper) (below : lower ≤ upper) : Held g t lower := by
  rw [Held,step.block,step.flat,step.stackTop]
  exact held.within le_rfl (Nat.div_le_div_right below)

theorem Spilling.continue (spilling : Spilling g s) (step : Continues g s t)
    (below : s.cache.spillTarget g ≤ t.cache.memTopReg)
    (copied : ∀ word, s.cache.spillTarget g ≤ 4*word → 4*word < t.cache.transferAddrReg → 4*word < t.cache.memTopReg →
      Agrees (s.flat.bytes word) (t.memory.ram word))
    (read : t.cache.rdData = s.cache.memoryBlock (g.cell t.cache.transferAddrReg)) : Spilling g t where
  aligned := by rw [step.target,spilling.aligned]
  above := by rw [step.target,step.stackTop]; exact spilling.above
  below := by rwa [step.target]
  fits := by rw [step.target,step.stackTop]; exact spilling.fits
  copied := by rwa [step.target,step.flat]
  read := by rw [step.block,read]

section
variable (valid : Valid g s) (spilling : Spilling g s)
include valid spilling

theorem spill_word (aligned : s.cache.transferAddrReg % 4 = 0) (word : Nat)
    (wanted : s.cache.spillTarget g ≤ 4*word ∧ 4*word < s.cache.transferAddrReg+4 ∨ s.cache.memTopReg ≤ 4*word) :
    Agrees (s.flat.bytes word)
      (store s.memory.ram s.cache.transferAddrReg s.cache.rdData (fun _ => s.cache.writeEnable g) word) := by
  rw [store_apply]
  have top := valid.memTop
  have low := spilling.above
  split
  next here =>
    subst here
    by_cases enabled : s.cache.spillTarget g ≤ s.cache.transferAddrReg ∧ s.cache.transferAddrReg < s.cache.memTopReg
    · rw [writeEnable_eq,decide_eq_true enabled,spilling.read]
      exact valid.held _ (by omega) (by omega)
    · rw [writeEnable_eq,decide_eq_false enabled]
      exact valid.backed _ (by omega)
  next elsewhere =>
    by_cases above : s.cache.memTopReg ≤ 4*word
    · exact valid.backed word above
    · exact spilling.copied word (by omega) (by omega) (by omega)

theorem beat_step (step : Continues g s t) (beats : Beats g s start beat)
    (cache : t.cache = {s.cache.settle (g.cell (s.cache.transferAddrReg+4)) with
      stateReg := state
      transferAddrReg := s.cache.transferAddrReg+4})
    (memory : t.memory = ⟨store s.memory.ram (start+beat*4) s.cache.rdData fun _ => s.cache.writeEnable g,phase⟩)
    (stage : Spilling g t → Stage g t state) : Valid g t := by
  have memTop : t.cache.memTopReg = s.cache.memTopReg := by rw [cache]; rfl
  have stored := spill_word valid spilling beats.aligned
  rw [beats.addr] at stored
  refine valid.busy step.toBusy memTop valid.memTop valid.ordered (step.held valid.held le_rfl) ?_ ?_
  · intro word above
    rw [memory]
    exact stored word (.inr above)
  · rw [cache]
    apply stage
    refine spilling.continue step ?_ ?_ ?_
    · rw [memTop]
      exact spilling.below
    · intro word above below _
      rw [cache] at below
      rw [memory]
      exact stored word (.inl ⟨above,by rwa [← beats.addr]⟩)
    · rw [cache]
      rfl

theorem pause_step (step : Continues g s t)
    (cache : t.cache = {s.cache.settle (g.cell s.cache.transferAddrReg) with stateReg := state,memTopReg := memTop})
    (ram : t.memory.ram = s.memory.ram) (aligned : memTop % 4 = 0)
    (above : s.cache.spillTarget g ≤ memTop) (below : memTop ≤ s.cache.memTopReg)
    (backed : ∀ word, memTop ≤ 4*word → 4*word < s.cache.memTopReg → Agrees (s.flat.bytes word) (s.memory.ram word))
    (stage : Spilling g t → Stage g t state) : Valid g t := by
  have lowered : t.cache.memTopReg = memTop := by rw [cache]
  refine valid.busy step.toBusy lowered aligned (spilling.above.trans above) (step.held valid.held below) ?_ ?_
  · intro word covered
    rw [ram]
    by_cases old : s.cache.memTopReg ≤ 4*word
    · exact valid.backed word old
    · exact backed word covered (not_le.mp old)
  · rw [cache]
    apply stage
    refine spilling.continue step (by rwa [lowered]) ?_ ?_
    · intro word wanted sent inside
      rw [cache] at sent
      rw [lowered] at inside
      rw [ram]
      exact spilling.copied word wanted sent (inside.trans_le below)
    · rw [cache]
      rfl
end

section Cycle
variable (admitted : (system g).admits s x)
include admitted

theorem refused_cycle (state : s.cache.stateReg = .holdSpill) (phase : s.memory.phase = .idle)
    (address : s.cache.rdAddrReg = g.cell s.cache.transferAddrReg) (refused : x.toMemory.cmdAccept = false) :
    ((system g).next s x).cache = s.cache.settle (g.cell s.cache.transferAddrReg) ∧ ((system g).next s x).memory = s.memory ∧
    Continues g s ((system g).next s x) := by
  obtain ⟨busy,quiet⟩ := busy_issues admitted.1 (by simp [state])
  have cache := @next_refused g _ _ quiet (.inl state) refused
  have again : s.cache.rdAddr g x = g.cell s.cache.transferAddrReg := by simp [rdAddr,state,refused,address]
  rw [again] at cache
  exact ⟨cache,by simp [BurstMemory.State.next,phase,refused],continues_settled quiet busy ⟨_,_,_,_,cache⟩⟩

theorem held_cycle (state : s.cache.stateReg = .holdSpill) (phase : s.memory.phase = .idle) (accepted : x.toMemory.cmdAccept = true) :
    ((system g).next s x).cache = {s.cache.settle (g.cell (s.cache.transferAddrReg+4)) with
      stateReg := .spill
      transferAddrReg := s.cache.transferAddrReg+4} ∧
    ((system g).next s x).memory = ⟨store s.memory.ram (s.cache.transferAddrReg+0*4) s.cache.rdData
      fun _ => s.cache.writeEnable g,afterBeat g.burst s.cache.transferAddrReg 1⟩ ∧
    Continues g s ((system g).next s x) := by
  obtain ⟨busy,quiet⟩ := busy_issues admitted.1 (by simp [state])
  have runs := runs_issues admitted.1 busy (.inl accepted)
  have cache := @next_held g _ _ quiet state runs accepted
  have command : (s.cache.toMemoryM g x).cmd = .wr := by simp [toMemoryM,state,runs]
  exact ⟨cache,next_written g.burst (.inl ⟨phase,command,rfl,accepted,rfl⟩),
    continues_settled quiet busy ⟨_,_,_,_,cache⟩⟩

theorem spilled_cycle (state : s.cache.stateReg = .spill) (phase : s.memory.phase = .write start beat) (beats : Beats g s start beat) :
    ((system g).next s x).cache = {s.cache.settle (g.cell (s.cache.transferAddrReg+4)) with
      stateReg := if beat = g.burst-1 then .waitSpill else .spill
      transferAddrReg := s.cache.transferAddrReg+4} ∧
    ((system g).next s x).memory = ⟨store s.memory.ram (start+beat*4) s.cache.rdData
      fun _ => s.cache.writeEnable g,afterBeat g.burst start (beat+1)⟩ ∧
    Continues g s ((system g).next s x) := by
  obtain ⟨busy,quiet⟩ := busy_issues admitted.1 (by simp [state])
  have runs := runs_issues admitted.1 busy (.inr (by simp [state]))
  have valued : (s.cache.toMemoryM g x).dataValid = true := by simp [toMemoryM,state]
  have cache := @next_spilled g _ _ quiet state runs
  rw [beats.counter] at cache
  exact ⟨cache,next_written g.burst (.inr ⟨phase,admitted.2.2.2 (by rw [phase]; rfl),valued⟩),
    continues_settled quiet busy ⟨_,_,_,_,cache⟩⟩

theorem waits_cycle (state : s.cache.stateReg = .waitSpill) (phase : s.memory.phase = .ack)
    (address : s.cache.rdAddrReg = g.cell s.cache.transferAddrReg) :
    ((system g).next s x).cache = {s.cache.settle (g.cell s.cache.transferAddrReg) with
      stateReg := if x.toMemory.resp = .dva then if s.cache.spillingDone then .idle else .holdSpill else .waitSpill
      memTopReg := if s.cache.spillingDone then s.cache.spillTarget g else s.cache.memTopReg} ∧
    ((system g).next s x).memory = ⟨s.memory.ram,if x.toMemory.resp = .null then .ack else .idle⟩ ∧
    Continues g s ((system g).next s x) ∧ (x.toMemory.resp = .null ∨ x.toMemory.resp = .dva) := by
  obtain ⟨issues,answers,sound,_⟩ := admitted
  obtain ⟨busy,quiet⟩ := busy_issues issues (by simp [state])
  have cache := @next_waits g _ _ quiet state (runs_issues issues busy (.inr (by simp [state]))) sound
  rw [address] at cache
  rw [BurstMemory.State.Answers] at answers
  refine ⟨cache,next_acknowledged g.burst _ _ phase,continues_settled quiet busy ⟨_,_,_,_,cache⟩,?_⟩
  cases resp : x.toMemory.resp <;> simp_all

theorem hold_step (valid : Valid g s) (bursts : 1 < g.burst) (state : s.cache.stateReg = .holdSpill) :
    Valid g ((system g).next s x) := by
  cases valid.stage_at state with
  | holdSpill phase spilling address exact near =>
    cases accepted : x.toMemory.cmdAccept with
    | false =>
      obtain ⟨cache,memory,step⟩ := refused_cycle admitted state phase address accepted
      refine pause_step valid spilling step cache (by rw [memory]) valid.memTop spilling.below le_rfl
        (fun word above below => absurd below above.not_gt) ?_
      intro spilling
      rw [state]
      refine .holdSpill (by rw [memory,phase]) spilling ?_ ?_ ?_ <;> rw [cache]
      · rfl
      · exact exact
      · exact near
    | true =>
      obtain ⟨cache,memory,step⟩ := held_cycle admitted state phase accepted
      refine beat_step valid spilling step ⟨exact,rfl,g.burst_pos⟩ cache memory ?_
      intro spilling
      refine .spill ?_ spilling ⟨exact,?_,bursts⟩ ?_
      · rw [memory,afterBeat,if_neg bursts.ne]
      · rw [cache]
      · rw [cache]
        exact near

theorem spill_step (valid : Valid g s) (state : s.cache.stateReg = .spill) : Valid g ((system g).next s x) := by
  cases valid.stage_at state with
  | @spill start beat phase spilling beats near =>
    obtain ⟨cache,memory,step⟩ := spilled_cycle admitted state phase beats
    refine beat_step valid spilling step beats cache memory ?_
    intro spilling
    have addr : ((system g).next s x).cache.transferAddrReg = start+(beat+1)*4 := by
      rw [cache,add_mul,← add_assoc,← beats.addr]
    have within := beats.within
    split
    next last =>
      have complete : beat+1 = g.burst := by omega
      rw [complete,mul_comm] at addr
      refine .waitSpill ?_ spilling ?_ ?_ ?_
      · rw [memory,afterBeat,if_pos complete]
      · rw [cache]
        rfl
      · rw [addr,add_mod_right,beats.exact]
      · rw [addr,step.target]
        exact near.le
    next more =>
      refine .spill ?_ spilling ⟨beats.exact,addr,by omega⟩ (by rwa [step.target])
      rw [memory,afterBeat,if_neg (by omega)]

omit admitted in
theorem spilled_backed (spilling : Spilling g s) (word : Nat)
    (above : (if s.cache.spillingDone then s.cache.spillTarget g else s.cache.memTopReg) ≤ 4*word)
    (below : 4*word < s.cache.memTopReg) : Agrees (s.flat.bytes word) (s.memory.ram word) := by
  cases complete : s.cache.spillingDone with
  | true =>
    have reached : s.cache.memTopReg ≤ s.cache.transferAddrReg := of_decide_eq_true complete
    simp only [complete] at above
    exact spilling.copied word above (below.trans_le reached) below
  | false =>
    simp only [complete] at above
    exact absurd below above.not_gt

theorem waitSpill_step (valid : Valid g s) (state : s.cache.stateReg = .waitSpill) : Valid g ((system g).next s x) := by
  cases valid.stage_at state with
  | waitSpill phase spilling address exact passed =>
    obtain ⟨cache,memory,step,answer⟩ := waits_cycle admitted state phase address
    refine pause_step valid spilling step cache (by rw [memory]) ?_ ?_ ?_ (spilled_backed spilling) ?_
    · split
      · exact spilling.aligned
      · exact valid.memTop
    · split
      · exact le_rfl
      · exact spilling.below
    · split
      · exact spilling.below
      · exact le_rfl
    · intro spilt
      have transfer : ((system g).next s x).cache.transferAddrReg = s.cache.transferAddrReg := by rw [cache]; rfl
      have again : ((system g).next s x).cache.rdAddrReg = g.cell ((system g).next s x).cache.transferAddrReg := by
        rw [cache]
        rfl
      rcases answer with resp | resp
      · rw [if_neg (by simp [resp])]
        exact .waitSpill (by rw [memory,if_pos resp]) spilt again (by rwa [transfer]) (by rwa [transfer,step.target])
      · have idle : ((system g).next s x).memory.phase = .idle := by rw [memory,if_neg (by simp [resp])]
        rw [if_pos resp]
        cases complete : s.cache.spillingDone with
        | true =>
          refine .idle idle ?_
          rw [cache,complete]
          exact spilling.fits
        | false =>
          refine .holdSpill idle spilt again (by rwa [transfer]) ?_
          rw [transfer,step.target]
          exact Nat.lt_of_le_of_lt passed (Nat.lt_add_of_pos_right (Nat.mul_pos (by decide) g.burst_pos))
end Cycle

theorem Filling.continue (filling : Filling g s) (step : Continues g s t) (newMemTop : t.cache.newMemTopReg = s.cache.newMemTopReg)
    (memTop : t.cache.memTopReg = s.cache.memTopReg) (transfer : t.cache.transferAddrReg = s.cache.transferAddrReg) :
    Filling g t where
  aligned := by rw [newMemTop,filling.aligned]
  below := by rw [newMemTop,memTop]; exact filling.below
  fits := by rw [newMemTop,step.stackTop]; exact filling.fits
  copied := step.held filling.copied (by rw [newMemTop,transfer])

theorem fill_pause (valid : Valid g s) (filling : Filling g s) (step : Continues g s t)
    (cache : t.cache = {s.cache.settle addr with stateReg := state}) (ram : t.memory.ram = s.memory.ram)
    (stage : Filling g t → Stage g t state) : Valid g t := by
  have memTop : t.cache.memTopReg = s.cache.memTopReg := by rw [cache]; rfl
  refine valid.busy step.toBusy memTop valid.memTop valid.ordered (step.held valid.held le_rfl) ?_ ?_
  · rw [ram]
    exact valid.backed
  · rw [cache]
    apply stage
    refine filling.continue step ?_ ?_ ?_ <;> rw [cache] <;> rfl

theorem fill_step (valid : Valid g s) (admitted : (system g).admits s x) (state : s.cache.stateReg = .fill) :
    Valid g ((system g).next s x) := by
  obtain ⟨busy,quiet⟩ := busy_issues admitted.1 (by simp [state])
  cases valid.stage_at state with
  | fill phase filling exact =>
    cases accepted : x.toMemory.cmdAccept with
    | false =>
      have cache := @next_refused g _ _ quiet (.inr state) accepted
      have memory : ((system g).next s x).memory = s.memory := by simp [BurstMemory.State.next,phase,accepted]
      refine fill_pause valid filling (continues_settled quiet busy ⟨_,_,_,_,cache⟩) cache (by rw [memory]) ?_
      intro filling
      rw [state]
      refine .fill (by rw [memory,phase]) filling ?_
      rw [system_cache,cache]
      exact exact
    | true =>
      have runs := runs_issues admitted.1 busy (.inl accepted)
      have cache := @next_requests g _ _ quiet state runs accepted
      have command : (s.cache.toMemoryM g x).cmd = .rd := by simp [toMemoryM,state,runs]
      have memory := next_requested g.burst x.toMemory phase command
      refine fill_pause valid filling (continues_settled quiet busy ⟨_,_,_,_,cache⟩) cache (by rw [system_memory,memory]) ?_
      intro filling
      refine .waitFill ?_ filling ⟨exact,?_,g.burst_pos⟩
      · rw [system_memory,memory,accepted]
        rfl
      · rw [system_cache,cache]
        rfl

theorem filled_held (valid : Valid g s) (filling : Filling g s) (aligned : s.cache.transferAddrReg % 4 = 0)
    (below : s.cache.transferAddrReg < s.cache.newMemTopReg) (above : s.cache.memTopReg ≤ s.cache.transferAddrReg) :
    let block := Function.update s.cache.memoryBlock (g.cell s.cache.transferAddrReg) (s.memory.ram (s.cache.transferAddrReg/4))
    Holds g.words block (fun word => Agrees (s.flat.bytes word)) (s.cache.stackTopReg/4) ((s.cache.transferAddrReg+4)/4) := by
  intro block
  have old := filling.copied
  rw [min_eq_left below.le] at old
  have ordered := valid.ordered
  have fits := filling.fits
  have top := valid.stackTop
  have fresh := valid.backed (s.cache.transferAddrReg/4) (by omega)
  rw [add_div_right _ (by decide)]
  apply Holds.push old
  · omega
  · rw [StackGeometry.size] at fits
    omega
  · exact fresh

theorem beat_held (valid : Valid g s) (filling : Filling g s) (aligned : s.cache.transferAddrReg % 4 = 0) :
    let block := if s.cache.memTopReg ≤ s.cache.transferAddrReg ∧ s.cache.fillingDone = false
      then Function.update s.cache.memoryBlock (g.cell s.cache.transferAddrReg) (s.memory.ram (s.cache.transferAddrReg/4))
      else s.cache.memoryBlock
    let memTop := if s.cache.fillingDone then s.cache.newMemTopReg else s.cache.memTopReg
    Holds g.words block (fun word => Agrees (s.flat.bytes word)) (s.cache.stackTopReg/4) (memTop/4) ∧
    Holds g.words block (fun word => Agrees (s.flat.bytes word)) (s.cache.stackTopReg/4)
      (min (s.cache.transferAddrReg+4) s.cache.newMemTopReg/4) := by
  cases complete : s.cache.fillingDone with
  | true =>
    have reached : s.cache.newMemTopReg ≤ s.cache.transferAddrReg := of_decide_eq_true complete
    have copied := filling.copied
    rw [min_eq_right reached] at copied
    simp only [Bool.true_eq_false,and_false]
    rw [min_eq_right (by omega)]
    exact ⟨copied,copied⟩
  | false =>
    have left : s.cache.transferAddrReg < s.cache.newMemTopReg := not_le.mp (of_decide_eq_false complete)
    have whole := filling.aligned
    have top := valid.memTop
    rw [min_eq_left (by omega)]
    simp only [and_true,Bool.false_eq_true,if_false]
    split
    next above =>
      have longer := filled_held valid filling aligned left above
      exact ⟨longer.within le_rfl (by omega),longer⟩
    next below => exact ⟨valid.held,valid.held.within le_rfl (by omega)⟩

theorem Filling.top (filling : Filling g s) (valid : Valid g s) :
    let memTop := if s.cache.fillingDone then s.cache.newMemTopReg else s.cache.memTopReg
    memTop % 4 = 0 ∧ s.cache.memTopReg ≤ memTop ∧ memTop ≤ s.cache.newMemTopReg := by
  intro memTop
  cases complete : s.cache.fillingDone with
  | true =>
    rw [show memTop = s.cache.newMemTopReg from if_pos complete]
    exact ⟨filling.aligned,filling.below,le_rfl⟩
  | false =>
    rw [show memTop = s.cache.memTopReg from if_neg (by simp [complete])]
    exact ⟨valid.memTop,le_rfl,filling.below⟩

theorem waitFill_step (valid : Valid g s) (admitted : (system g).admits s x) (state : s.cache.stateReg = .waitFill) :
    Valid g ((system g).next s x) := by
  obtain ⟨issues,answers,sound,_⟩ := admitted
  obtain ⟨busy,quiet⟩ := busy_issues issues (by simp [state])
  have runs := runs_issues issues busy (.inr (by simp [state]))
  cases valid.stage_at state with
  | @waitFill start beat phase filling beats =>
    have memory := next_beat g.burst (s.cache.toMemoryM g x) x.toMemory phase
    rw [BurstMemory.State.Answers,phase] at answers
    cases resp : x.toMemory.resp with
    | null =>
      have cache := @next_awaits g _ _ quiet state resp
      refine fill_pause valid filling (continues_settled quiet busy ⟨_,_,_,_,cache⟩) cache (by rw [system_memory,memory]) ?_
      intro filling
      rw [state]
      refine .waitFill ?_ filling ⟨beats.exact,?_,beats.within⟩
      · rw [system_memory,memory,if_pos resp]
      · rw [system_cache,cache]
        exact beats.addr
    | dva =>
      have aligned : s.cache.transferAddrReg % 4 = 0 := beats.aligned
      have word : x.toMemory.data = s.memory.ram (s.cache.transferAddrReg/4) := by
        rw [answers.2 resp,beats.addr,add_mul_div_right start beat (by decide)]
      have cache := @next_filled g _ _ quiet state runs resp
      rw [word,beats.counter] at cache
      obtain ⟨held,copied⟩ := beat_held valid filling aligned
      obtain ⟨whole,grows,within⟩ := filling.top valid
      obtain ⟨flat,load⟩ := flat_busy quiet busy g
      refine valid.busy ⟨flat,load,by rw [system_cache,cache]⟩ (by rw [system_cache,cache]) whole
        (valid.ordered.trans grows) ?_ ?_ ?_
      · rw [Held,system_cache,cache,flat]
        exact held
      · intro word above
        rw [system_memory,memory]
        exact valid.backed word (grows.trans above)
      · have addr : ((system g).next s x).cache.transferAddrReg = start+(beat+1)*4 := by
          rw [system_cache,cache,add_mul,← add_assoc,← beats.addr]
        have filling : Filling g ((system g).next s x) := by
          refine ⟨?_,?_,?_,?_⟩ <;> rw [system_cache,cache]
          · exact filling.aligned
          · exact within
          · exact filling.fits
          · rw [Held,system_cache,cache,flat]
            exact copied
        have phase : ((system g).next s x).memory.phase = if beat+1 = g.burst then .idle else .read start (beat+1) := by
          rw [system_memory,memory,resp]
          rfl
        have inside := beats.within
        have state : ((system g).next s x).cache.stateReg =
            if beat = g.burst-1 then if s.cache.fillingDone then .idle else .fill else .waitFill := by rw [system_cache,cache]
        rw [state]
        split
        next last =>
          have complete : beat+1 = g.burst := by omega
          rw [if_pos complete] at phase
          cases reached : s.cache.fillingDone with
          | true =>
            refine .idle phase ?_
            exact filling.below.trans filling.fits
          | false =>
            refine .fill phase filling ?_
            rw [addr,complete,mul_comm,add_mod_right,beats.exact]
        next more =>
          rw [if_neg (by omega)] at phase
          exact .waitFill phase filling ⟨beats.exact,addr,by omega⟩
    | fail => exact absurd resp answers.1
    | err => exact absurd resp sound
end Transfer
end Patmos.StackMemory
