import Patmos.WriteCombineFlush
namespace Patmos.WriteCombine
open Transition WriteCombineBuffer BurstMemory

attribute [local simp] State.after system next lineNext stateNext coreNext

section Step
variable {bits : Nat} {s : State} {x : Cycle}

section
variable (several : 0 < bits) (admitted : (system bits).admits s x)
include several admitted

theorem resp_step (core : s.core = .write) (phase : s.memory.phase = .ack) (count : s.buffer.cntReg = 0)
    (covered : Covered bits s) (state : s.buffer.state = .writeResp) :
    Stage bits (s.after bits x) (s.after bits x).buffer.state := by
  have count' : (s.after bits x).buffer.cntReg = 0 := by simp [state,count]
  have same : (s.after bits x).buffer.toCombineLine = s.buffer.toCombineLine := by simp [state]
  have memory := @memory_ack bits s x phase
  by_cases silent : x.slave.resp = .null
  · obtain ⟨busy,quiet,alone⟩ := @write_offers bits s x core (by simp [writeS,state,silent]) admitted.1
    obtain ⟨core',goes,_,latest⟩ := holds_next busy quiet alone
    rw [core] at core' latest
    rw [goes,stateNext,state,if_neg (not_not_intro silent)]
    refine .writeResp core' (by rw [memory,if_pos silent,phase]) count' ?_
    rw [Covered,same,tag_kept (by simp [state]),memory,if_pos silent,latest]
    exact covered
  · have free : done bits s x = true := by simp [done,core,writeS,state,silent]
    refine begin_step several admitted (by simp [state]) count' (same ▸ covered) free
      (fun _ => by rw [memory,if_neg silent]) ?_
    simp [state,silent]

theorem comb_step (core : s.core = .write) (phase : s.memory.phase = .idle) (count : s.buffer.cntReg = 0)
    (line : s.buffer.tagReg = tag bits s.buffer.writeMasterReg.addr)
    (covers : Covers bits s.buffer.toCombineLine s.buffer.tagReg s.memory.ram before)
    (latest : s.latest = store before s.buffer.writeMasterReg.addr s.buffer.writeMasterReg.data
      s.buffer.writeMasterReg.byteEn)
    (state : s.buffer.state = .writeComb) :
    Stage bits (s.after bits x) (s.after bits x).buffer.state := by
  have free : done bits s x = true := by simp [done,core,writeS,state]
  have combined : (s.after bits x).buffer.toCombineLine = s.buffer.combine (pos bits s.buffer.writeMasterReg.addr)
      s.buffer.writeMasterReg.data s.buffer.writeMasterReg.byteEn := by
    simp [state,wrPos]
  refine begin_step several admitted (by simp [state]) (by simp [state,count]) ?_ free ?_
    (by simp [state])
  · rw [line] at covers
    rw [combined,line,latest]
    exact covers_combine covers _ _
  · exact memory_rests phase (by simp [state])

theorem read_step (core : s.core = .read addr) (aligned : addr = tag bits addr*2^bits*4)
    (hit : s.buffer.hitReg = decide (s.buffer.tagReg = tag bits addr)) (inside : s.buffer.cntReg < 2^bits)
    (phase : s.memory.phase = .idle ∧ s.buffer.cntReg = 0 ∨ s.memory.phase = .read addr s.buffer.cntReg)
    (covered : Covered bits s) (state : s.buffer.state = .read) :
    Stage bits (s.after bits x) (s.after bits x).buffer.state := by
  have passes := @slaveM_passes bits s x (by simp [state])
  have same : (s.after bits x).buffer.toCombineLine = s.buffer.toCombineLine := by simp [state]
  have line := @tag_kept bits s x (by simp [state])
  have offers := admitted.1
  rcases phase with ⟨idle,count⟩ | reading
  · have busy : done bits s x = false := by simp [done,core,idle]
    simp only [Offers,Holds,busy,core,idle] at offers
    obtain ⟨alone,command,address⟩ := offers
    have answers := admitted.2.2
    simp only [BurstMemory.State.Answers,idle] at answers
    have memory : (s.after bits x).memory = _ := next_requested (2^bits) x.slave idle (by rw [passes,command])
    have count' : (s.after bits x).buffer.cntReg = 0 := by simp [state,count,answers.1]
    have stays : (s.after bits x).buffer.state = .read := by simp [alone,command]
    have latest : (s.after bits x).latest = s.latest := by
      simp [issue,alone,command,BurstMemory.Beat.write]
    have core' : (s.after bits x).core = .read addr := by simp [alone,command,address]
    rw [stays]
    refine .read core' aligned ?_ (count' ▸ Nat.two_pow_pos bits) ?_ ?_
    · rw [line]
      simp [command,address]
    · rw [memory,count',passes,address]
      cases x.slave.cmdAccept <;> simp
    · rw [Covered,same,line,memory,latest]
      exact covered
  · have memory : (s.after bits x).memory = _ :=
      next_beat (2^bits) (s.buffer.slaveM bits x.readM) x.slave reading
    by_cases last : s.buffer.cntReg = 2^bits-1 ∧ x.slave.resp ≠ .null
    · have free : done bits s x = true := by simp [done,core,reading,last]
      refine begin_step several admitted (by simp [state]) ?_ (same ▸ covered) free (fun _ => ?_)
        (by simp [state,last])
      · have wraps : s.buffer.cntReg+1 = 2^bits := by omega
        simp [state,last.2,wraps]
      · rw [memory,if_neg last.2,if_pos (by omega)]
    · have busy : done bits s x = false := by simpa [done,core,reading] using last
      simp only [Offers,Holds,busy,core,reading] at offers
      obtain ⟨alone,quiet⟩ := offers
      obtain ⟨core',goes,hit',latest⟩ := holds_next busy quiet alone
      rw [core] at core' latest
      rw [stateNext,state,if_neg (fun both => last both.symm)] at goes
      have more (given : x.slave.resp ≠ .null) : s.buffer.cntReg+1 < 2^bits := by
        have notLast : s.buffer.cntReg ≠ 2^bits-1 := fun final => last ⟨final,given⟩
        omega
      have count : (s.after bits x).buffer.cntReg =
          if x.slave.resp = .null then s.buffer.cntReg else s.buffer.cntReg+1 := by
        by_cases silent : x.slave.resp = .null
        · simp [state,silent]
        · simp [state,Nat.mod_eq_of_lt (more silent)]
      rw [goes]
      refine .read core' aligned (by rw [line,hit',hit]) ?_ (.inr ?_) ?_
      · rw [count]
        split
        · exact inside
        · rename_i given
          exact more given
      · rw [memory,count]
        by_cases silent : x.slave.resp = .null
        · simp [silent]
        · simp [silent,Nat.ne_of_lt (more silent)]
      · rw [Covered,same,line,memory,latest]
        exact covered

theorem idle_step (core : s.core = .none) (phase : s.memory.phase = .idle) (count : s.buffer.cntReg = 0)
    (covered : Covered bits s) (state : s.buffer.state = .idle) :
    Stage bits (s.after bits x) (s.after bits x).buffer.state := by
  have same : (s.after bits x).buffer.toCombineLine = s.buffer.toCombineLine := by simp [state]
  exact begin_step several admitted (by simp [state]) (by simp [state,count]) (same ▸ covered)
    (by simp [done,core]) (memory_rests phase (by simp [state])) (by simp [state])

theorem spilled_step (core : s.core = .spill addr) (phase : s.memory.phase = .ack)
    (other : s.buffer.state ≠ .write) (settles : s.buffer.stateNext bits x.slave = .idle)
    (count : (s.after bits x).buffer.cntReg = 0)
    (covers : Covers bits (s.after bits x).buffer.toCombineLine s.buffer.tagReg s.memory.ram s.latest)
    : Stage bits (s.after bits x) (s.after bits x).buffer.state := by
  have memory := @memory_ack bits s x phase
  by_cases silent : x.slave.resp = .null
  · have busy : done bits s x = false := by simp [done,core,phase,silent]
    have offers := admitted.1
    simp only [Offers,Holds,busy,core,phase] at offers
    obtain ⟨alone,quiet⟩ := offers
    obtain ⟨core',goes,_,latest⟩ := holds_next busy quiet alone
    rw [core] at core' latest
    have nothing : taken bits s x = none := by simp [taken,BurstMemory.State.taken,phase]
    rw [goes,settles]
    refine .spilled core' (by rw [memory,if_pos silent,phase]) count ?_
    rw [Covered,tag_kept other,memory,if_pos silent,latest,nothing]
    exact covers
  · have free : done bits s x = true := by simp [done,core,phase,silent]
    exact begin_step several admitted other count covers free (fun _ => by rw [memory,if_neg silent]) settles

theorem snoop_step (core : s.core = .spill addr) (snooping : Snooping bits s addr beats)
    (state : s.buffer.state = .writeSnoop) (last : LastTaken bits s x) :
    Stage bits (s.after bits x) (s.after bits x).buffer.state := by
  have other : s.buffer.state ≠ .write := by simp [state]
  have passes := @slaveM_passes bits s x other
  have line := @tag_kept bits s x other
  have follows : (s.after bits x).buffer.toCombineLine = s.buffer.snooped := by simp [state]
  have count : (s.after bits x).buffer.cntReg =
      if s.buffer.dataAcceptReg then (s.buffer.cntReg+1) % 2^bits else s.buffer.cntReg := by simp [state]
  have covers : Covers bits (s.after bits x).buffer.toCombineLine s.buffer.tagReg s.memory.ram s.latest := by
    rw [follows]
    exact snooping.covers
  have behind := snooping.behind
  have final := snooping.last
  have accepted := snooping.accepted
  have offers := admitted.1
  generalize now : s.memory.phase = phase at accepted
  cases accepted with
  | idle =>
    have busy : done bits s x = false := by simp [done,core,now]
    simp only [Offers,Holds,busy,core,now] at offers
    have quiet : s.buffer.dataAcceptReg = false := by
      cases pending : s.buffer.dataAcceptReg with
      | false => rfl
      | true => simp [pending] at behind
    have fresh : (s.after bits x).buffer.cntReg = 0 := by
      rw [count]
      simpa [quiet] using behind
    exact snoop_command several admitted other fresh covers offers.2.1 offers.1 now
  | ack =>
    have pending := final (by omega)
    have full : s.buffer.cntReg+1 = 2^bits := by simpa [pending] using behind
    refine spilled_step several admitted core now other ?_ ?_ covers
    · simp [state,show s.buffer.cntReg = 2^bits-1 by omega]
    · rw [count,pending,if_pos rfl,full,Nat.mod_self]
  | write positive inside =>
    have busy : done bits s x = false := by simp [done,core,now]
    simp only [Offers,Holds,busy,core,now] at offers
    obtain ⟨alone,quiet,valid⟩ := offers
    have notLast : s.buffer.cntReg ≠ 2^bits-1 := by
      intro full
      cases pending : s.buffer.dataAcceptReg with
      | false =>
        rw [final (by omega)] at pending
        cases pending
      | true =>
        simp only [pending,Bool.toNat_true] at behind
        omega
    have count' : (s.after bits x).buffer.cntReg = beats := by
      rw [count]
      cases pending : s.buffer.dataAcceptReg with
      | false => simpa [pending] using behind
      | true =>
        simp only [pending,Bool.toNat_true] at behind
        rw [if_pos rfl,behind,Nat.mod_eq_of_lt inside]
    obtain ⟨core',goes,hit,issued⟩ := holds_next busy quiet alone
    rw [core] at core' issued
    simp only [stateNext,state,notLast] at goes
    rw [snooping.hit,← line] at hit
    rw [← line] at covers
    obtain ⟨_,snooping'⟩ := snoop_word snooping.aligned hit issued inside count' covers (fun accept => by
        have more : beats ≠ 2^bits-1 := by
          intro full
          simp only [LastTaken,now] at last
          rw [last full] at accept
          cases accept
        exact ⟨by omega,now ▸ .write positive inside,by simp [BurstMemory.State.next,now,accept],
          by simp [taken,BurstMemory.State.taken,now,accept]⟩)
      (fun accept => by
        have memory : (s.after bits x).memory = _ := next_written (2^bits)
          (.inr ⟨now,accept,by rw [passes,valid]⟩)
        rw [passes] at memory
        exact ⟨memory,by simp [taken,BurstMemory.State.taken,now,accept,passes,valid]⟩)
    rw [goes]
    exact .writeSnoop core' snooping'

theorem stage_step (stage : Stage bits s s.buffer.state)
    (last : LastTaken bits s x) : Stage bits (s.after bits x) (s.after bits x).buffer.state := by
  generalize state : s.buffer.state = now at stage
  cases stage with
  | idle core phase count covered => exact idle_step several admitted core phase count covered state
  | spilled core phase count covered =>
    have same : (s.after bits x).buffer.toCombineLine = s.buffer.toCombineLine := by simp [state]
    exact spilled_step several admitted core phase (by simp [state]) (by simp [state]) (by simp [state,count])
      (same ▸ covered)
  | read core aligned hit inside phase covered => exact read_step several admitted core aligned hit inside phase covered state
  | write core line flushing => exact flush_step several core line flushing state admitted last
  | writeResp core phase count covered => exact resp_step several admitted core phase count covered state
  | writeComb core phase count line covers latest => exact comb_step several admitted core phase count line covers latest state
  | writeSnoop core snooping => exact snoop_step several admitted core snooping state last
end

theorem stage_reads (stage : Stage bits s s.buffer.state) (answers : s.memory.Answers (s.buffer.slaveM bits x.readM) x.slave) :
    Reads s x := by
  intro line beat reading good
  generalize state : s.buffer.state = now at stage
  cases stage with
  | read core aligned hit inside phase covered =>
    have same := phase.resolve_left fun waiting => by simp [reading] at waiting
    rw [reading] at same
    obtain ⟨rfl,rfl⟩ := BurstMemory.Phase.read.inj same
    simp only [BurstMemory.State.Answers,reading] at answers
    obtain ⟨tag',pos'⟩ := line_pos aligned inside
    have word : (line+s.buffer.cntReg*4)/4 = line/4+s.buffer.cntReg := Nat.add_mul_div_right _ _ (by decide)
    rw [tag,word] at tag'
    rw [pos,word] at pos'
    have resp : x.slave.resp = .dva := by
      simp only [readS,state] at good
      split at good <;> exact good
    rw [covered,tag',pos',← answers.2 resp]
    by_cases same : s.buffer.tagReg = tag bits line
    · simp [readS,state,hit,same]
    · simp [readS,state,hit,same,Ne.symm same]
  | write core line' flushing =>
    have phase := flushing.phase
    rw [reading] at phase
    split at phase <;> cases phase
  | writeSnoop core snooping =>
    have accepted := snooping.accepted
    rw [reading] at accepted
    cases accepted
  | idle core phase | spilled core phase | writeResp core phase | writeComb core phase =>
    rw [reading] at phase
    cases phase

theorem write_alone (offers : Offers bits s x) (command : x.readM.cmd = .wr) : x.writeM.cmd ≠ .wr := by
  unfold Offers at offers
  split at offers
  · exact (offers.resolve_left (by simp [command])).1
  · exact offers.1

theorem taken_issued (stage : Stage bits s s.buffer.state) (other : s.buffer.state ≠ .write) (offers : Offers bits s x)
    (arrives : taken bits s x = some beat) : issue bits s x = some beat := by
  have passes := @slaveM_passes bits s x other
  cases phase : s.memory.phase with
  | idle =>
    have command : x.readM.cmd = .wr := by
      by_contra none
      simp [taken,BurstMemory.State.taken,phase,passes,none] at arrives
    simp [issue,write_alone offers command,command,arrives]
  | write line count =>
    generalize state : s.buffer.state = now at stage
    cases stage with
    | writeSnoop core snooping =>
      have busy : done bits s x = false := by simp [done,core,phase]
      simp only [Offers,Holds,busy,core,phase] at offers
      simp [issue,offers.1,offers.2.1,busy,core,arrives]
    | write => exact absurd state other
    | read core aligned hit inside reading => simp [phase] at reading
    | idle core free | spilled core free | writeResp core free | writeComb core free => simp [phase] at free
  | read line count | ack => simp [taken,BurstMemory.State.taken,phase] at arrives

theorem stage_arrival (stage : Stage bits s s.buffer.state) (admitted : (system bits).admits s x)
    (arrives : taken bits s x = some beat) : ∀ i, beat.byteEn i = true →
    beat.data i = (s.after bits x).latest (beat.addr/4) i := by
  intro i enabled
  by_cases state : s.buffer.state = .write
  · rw [state] at stage
    cases stage with
    | @write old core line flushing =>
      obtain ⟨busy,quiet,alone⟩ := @write_offers bits s x core (by simp [writeS,state]) admitted.1
      have latest : (s.after bits x).latest = s.latest := by
        rw [(holds_next busy quiet alone).2.2.2,core]
        rfl
      rw [(flush_memory flushing line state quiet admitted.2.2).2] at arrives
      split at arrives
      · cases arrives
        have target : (old*2^bits*4+s.buffer.cntReg*4)/4 = old*2^bits+s.buffer.cntReg := by
          rw [← Nat.add_mul,Nat.mul_div_cancel _ (by decide)]
        rw [latest,target,flushing.held _ flushing.inside le_rfl]
        exact (if_pos enabled).symm
      · cases arrives
  · have issued := taken_issued stage state admitted.1 arrives
    simp [issued,BurstMemory.Beat.write,store_apply,merge,enabled]
end Step

def lastTaken (bits : Nat) : System State Cycle := (system bits).restrict (LastTaken bits)

instance (bits : Nat) (s : State) (x : Cycle) : Decidable ((lastTaken bits).admits s x) :=
  inferInstanceAs (Decidable (_ ∧ _))

theorem reached_stage {bits : Nat} {s : State} (several : 0 < bits) (path : Reached (lastTaken bits) s) :
    Stage bits s s.buffer.state := by
  refine path.invariant (fun s begun => ?_) fun s x stage admitted => stage_step several admitted.1 stage admitted.2
  obtain ⟨state,count,line,empty,phase,core,latest,_,_⟩ := begun
  rw [state]
  refine .idle core phase count fun word => ?_
  have none (pos : Nat) : s.buffer.byteEnBuffer pos = fun _ => false := funext (empty pos)
  rw [latest,none,merge_none,ite_self]

theorem write_combine_correct (bits : Nat) (several : 0 < bits) : ∀ s x, Reached (lastTaken bits) s → (lastTaken bits).admits s x →
    Correct bits s x := by
  intro s x path admitted
  have stage := reached_stage several path
  refine ⟨stage_reads stage admitted.1.2.2,fun _ => stage_arrival stage admitted.1,fun free => ?_⟩
  generalize state : s.buffer.state = now at stage
  cases stage with
  | idle core phase count covered => exact covered
  | spilled core | read core | write core | writeResp core | writeComb core | writeSnoop core => simp [free] at core

def quietRead : OcpBurstMasterSignals 4 := .quiet
def writeByte (addr : Nat) (value : BitVec 8) : OcpCoreMasterSignals 4 := ⟨.wr,addr,fun _ => value,fun i => i.val = 0⟩

def begin : State where
  buffer := ⟨⟨fun _ _ => 0,fun _ _ => false⟩,.idle,0,quietMaster,quietRead,0,false,false⟩
  memory := ⟨fun _ _ => 0,.idle⟩
  core := .none
  latest _ _ := 0
  issued _ _ := []
  arrived _ _ := []

theorem begin_starts (bits : Nat) : (system bits).start begin :=
  ⟨rfl,rfl,rfl,fun _ _ => rfl,rfl,rfl,rfl,fun _ _ => rfl,fun _ _ => rfl⟩

-- Two writes to address 0 are combined, a write to address 8 sends the line on.
def combined : List Cycle :=
  [⟨quietRead,writeByte 0 1,.quiet⟩,⟨quietRead,writeByte 0 2,.quiet⟩,⟨quietRead,writeByte 8 3,.quiet⟩,
    ⟨quietRead,quietMaster,.accept⟩,⟨quietRead,quietMaster,.accept⟩,⟨quietRead,quietMaster,.answer .dva⟩]

def reread : List Cycle := combined ++ [⟨.read 8,quietMaster,.accept⟩]

theorem write_combine_correct_reread : (lastTaken 1).Admits begin reread ∧
    Correct 1 ((lastTaken 1).run begin reread) ⟨quietRead,quietMaster,.answer .dva⟩ := by
  have admitted : (lastTaken 1).Admits begin reread := by decide +kernel
  have start : (lastTaken 1).start begin := begin_starts 1
  exact ⟨admitted,write_combine_correct _ (by decide) _ _ ((Reached.start start).run _ admitted) (by decide +kernel)⟩

-- The first value of the byte never reaches memory.
theorem combined_write_skipped : ¬∀ bits, 0 < bits → ∀ s x, Reached (system bits) s → (system bits).admits s x → Exact s x := by
  intro exact'
  have path := (Reached.start (begin_starts 1)).run combined (by decide +kernel)
  have once := (exact' 1 (by decide) _ ⟨quietRead,quietMaster,.quiet⟩ path (by decide +kernel)).once 0 0
  exact absurd once (by decide +kernel)
end Patmos.WriteCombine
