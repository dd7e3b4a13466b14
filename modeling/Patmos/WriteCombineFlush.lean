import Patmos.WriteCombineBuffer
namespace Patmos.WriteCombine
open Transition WriteCombineBuffer BurstMemory Nat

theorem same_word (bits addr word : Nat) : word = addr/4 ↔ word/2^bits = tag bits addr ∧ word % 2^bits = pos bits addr := by
  constructor
  · rintro rfl
    exact ⟨rfl,rfl⟩
  · rintro ⟨high,low⟩
    rw [← div_add_mod word (2^bits),high,low]
    exact div_add_mod (addr/4) (2^bits)

section Covers
variable {bits : Nat} {b : CombineLine} {ram latest : Nat → Word 4}

theorem covers_combine (covers : Covers bits b (tag bits addr) ram latest) (data : Word 4) (byteEn : ByteEn 4) :
    Covers bits (b.combine (pos bits addr) data byteEn) (tag bits addr) ram (store latest addr data byteEn) := by
  intro word
  rw [store_apply,covers word]
  by_cases line : word/2^bits = tag bits addr
  · by_cases here : word % 2^bits = pos bits addr
    · rw [if_pos ((same_word bits addr word).2 ⟨line,here⟩),if_pos line,if_pos line,here]
      funext i
      cases enabled : byteEn i <;> simp [CombineLine.combine,merge,enabled]
    · rw [if_neg fun same => here ((same_word bits addr word).1 same).2,if_pos line,if_pos line]
      simp [CombineLine.combine,Function.update_of_ne here]
  · rw [if_neg fun same => line ((same_word bits addr word).1 same).1,if_neg line,if_neg line]

theorem covers_hit (covers : Covers bits b (tag bits addr) ram latest) (data : Word 4) (byteEn : ByteEn 4) :
    Covers bits (b.combine (pos bits addr) data byteEn) (tag bits addr) (store ram addr data byteEn)
      (store latest addr data byteEn) := by
  intro word
  rw [covers_combine covers data byteEn word,store_apply]
  by_cases line : word/2^bits = tag bits addr
  · rw [if_pos line,if_pos line]
    by_cases here : word = addr/4
    · have low := ((same_word bits addr word).1 here).2
      rw [if_pos here,low]
      funext i
      cases enabled : byteEn i <;> simp [CombineLine.combine,merge,enabled]
    · rw [if_neg here]
  · rw [if_neg line,if_neg line,if_neg fun same => line ((same_word bits addr word).1 same).1]

theorem covers_miss (covers : Covers bits b line ram latest) (other : tag bits addr ≠ line) (data : Word 4) (byteEn : ByteEn 4) :
    Covers bits b line (store ram addr data byteEn) (store latest addr data byteEn) := by
  intro word
  rw [store_apply,store_apply,covers word]
  by_cases here : word = addr/4
  · have away : word/2^bits ≠ line := fun same => other (((same_word bits addr word).1 here).1.symm.trans same)
    rw [if_pos here,if_pos here,if_neg away,if_neg away]
  · rw [if_neg here,if_neg here]
end Covers

-- The old line leaves the buffer word by word, and the write that displaced it takes its place.
structure Flushing (bits : Nat) (b : CombineLine) (m : OcpCoreMasterSignals 4) (memory : BurstMemory.State 4)
    (latest : Nat → Word 4) (old count : Nat) : Prop where
  inside : count < 2^bits
  other : tag bits m.addr ≠ old
  phase : memory.phase = if count = 0 then .idle else .write (old*2^bits*4) count
  sent : ∀ off < count, latest (old*2^bits+off) = memory.ram (old*2^bits+off)
  held : ∀ off < 2^bits, count ≤ off → latest (old*2^bits+off) =
    BurstMemory.merge (memory.ram (old*2^bits+off)) (b.dataBuffer off) (b.byteEnBuffer off)
  rest : ∀ word, word/2^bits ≠ old → latest word = BurstMemory.store memory.ram m.addr m.data m.byteEn word
  cleared : ∀ off < count, off ≠ pos bits m.addr → b.byteEnBuffer off = fun _ => false
  placed : pos bits m.addr < count →
    b.dataBuffer (pos bits m.addr) = m.data ∧ b.byteEnBuffer (pos bits m.addr) = m.byteEn

-- The number of words of a spill that memory has accepted. The buffer follows one cycle later.
inductive Accepted (bits addr : Nat) : BurstMemory.Phase → Nat → Prop where
  | idle : Accepted bits addr .idle 0
  | write : 0 < beats → beats < 2^bits → Accepted bits addr (.write addr beats) beats
  | ack : Accepted bits addr .ack (2^bits)

structure Snooping (bits : Nat) (s : State) (addr beats : Nat) : Prop where
  aligned : addr = tag bits addr*2^bits*4
  hit : s.buffer.hitReg = decide (s.buffer.tagReg = tag bits addr)
  accepted : Accepted bits addr s.memory.phase beats
  behind : s.buffer.cntReg + s.buffer.dataAcceptReg.toNat = beats
  last : 2^bits ≤ beats+1 → s.buffer.dataAcceptReg = true
  covers : Covers bits s.buffer.snooped s.buffer.tagReg s.memory.ram s.latest

def Covered (bits : Nat) (s : State) : Prop := Covers bits s.buffer.toCombineLine s.buffer.tagReg s.memory.ram s.latest

inductive Stage (bits : Nat) (s : State) : WriteCombineState → Prop where
  | idle : s.core = .none → s.memory.phase = .idle → s.buffer.cntReg = 0 → Covered bits s → Stage bits s .idle
  | spilled : s.core = .spill addr → s.memory.phase = .ack → s.buffer.cntReg = 0 → Covered bits s → Stage bits s .idle
  | read : s.core = .read addr → addr = tag bits addr*2^bits*4 → s.buffer.hitReg = decide (s.buffer.tagReg = tag bits addr) →
      s.buffer.cntReg < 2^bits →
      s.memory.phase = .idle ∧ s.buffer.cntReg = 0 ∨ s.memory.phase = .read addr s.buffer.cntReg →
      Covered bits s → Stage bits s .read
  | write : s.core = .write →
      s.buffer.tagReg = (if s.buffer.cntReg = 0 then old else tag bits s.buffer.writeMasterReg.addr) →
      Flushing bits s.buffer.toCombineLine s.buffer.writeMasterReg s.memory s.latest old s.buffer.cntReg → Stage bits s .write
  | writeResp : s.core = .write → s.memory.phase = .ack → s.buffer.cntReg = 0 → Covered bits s → Stage bits s .writeResp
  | writeComb : s.core = .write → s.memory.phase = .idle → s.buffer.cntReg = 0 →
      s.buffer.tagReg = tag bits s.buffer.writeMasterReg.addr →
      Covers bits s.buffer.toCombineLine s.buffer.tagReg s.memory.ram before →
      s.latest = BurstMemory.store before s.buffer.writeMasterReg.addr s.buffer.writeMasterReg.data s.buffer.writeMasterReg.byteEn →
      Stage bits s .writeComb
  | writeSnoop : s.core = .spill addr → Snooping bits s addr beats → Stage bits s .writeSnoop

-- The last word of a write burst is accepted in the cycle in which it is offered.
def LastTaken (bits : Nat) (s : State) (x : Cycle) : Prop :=
  match s.memory.phase with
  | .write _ beat => beat = 2^bits-1 → x.slave.dataAccept = true
  | _ => True

def lastTaken? (bits : Nat) (s : State) (x : Cycle) : Bool :=
  match s.memory.phase with
  | .write _ beat => decide (beat = 2^bits-1 → x.slave.dataAccept = true)
  | _ => true

theorem lastTaken?_iff (bits : Nat) (s : State) (x : Cycle) : lastTaken? bits s x = true ↔ LastTaken bits s x := by
  unfold lastTaken? LastTaken
  cases s.memory.phase with
  | write addr beat => exact decide_eq_true_iff
  | _ => exact iff_of_true rfl trivial

instance (bits : Nat) (s : State) (x : Cycle) : Decidable (LastTaken bits s x) :=
  decidable_of_iff (lastTaken? bits s x = true) (lastTaken?_iff bits s x)

attribute [local simp] State.after system next coreNext

section Step
variable {bits : Nat} {s : State} {x : Cycle}

theorem words_several (several : 0 < bits) : 1 < 2^bits := Nat.one_lt_two_pow several.ne'

theorem line_word (line : Nat) (inside : off < 2^bits) :
    (line*2^bits+off)/2^bits = line ∧ (line*2^bits+off) % 2^bits = off := by
  constructor
  · rw [Nat.mul_comm,Nat.mul_add_div (Nat.two_pow_pos bits),Nat.div_eq_of_lt inside,Nat.add_zero]
  · rw [mul_comm,mul_add_mod,mod_eq_of_lt inside]

theorem line_pos (aligned : addr = tag bits addr*2^bits*4) (inside : beat < 2^bits) :
    tag bits (addr+beat*4) = tag bits addr ∧ pos bits (addr+beat*4) = beat := by
  have word : (addr+beat*4)/4 = tag bits addr*2^bits+beat := by
    rw [add_mul_div_right _ _ (by decide)]
    have whole : addr/4 = tag bits addr*2^bits := by
      rw [Nat.div_eq_iff_eq_mul_left (by decide) ⟨_,aligned.trans (Nat.mul_comm _ _)⟩]
      exact aligned
    rw [whole]
  unfold pos
  rw [tag,word]
  exact line_word _ inside

theorem spill_covers {c : WriteCombineBuffer} {ram latest : Nat → Word 4} (beat : Nat) (aligned : addr = tag bits addr*2^bits*4) (inside : beat < 2^bits)
    (hit : c.hitReg = decide (c.tagReg = tag bits addr)) (count : c.cntReg = beat) (accepts : c.dataAcceptReg = true)
    (covers : Covers bits c.toCombineLine c.tagReg ram latest) :
    Covers bits c.snooped c.tagReg
      (store ram (addr+beat*4) c.readMasterReg.data c.readMasterReg.dataByteEn)
      (store latest (addr+beat*4) c.readMasterReg.data c.readMasterReg.dataByteEn) := by
  obtain ⟨line,offset⟩ := line_pos aligned inside
  by_cases same : c.tagReg = tag bits addr
  · have combined : c.snooped = c.combine (pos bits (addr+beat*4)) c.readMasterReg.data c.readMasterReg.dataByteEn := by
      simp [snooped,accepts,hit,same,offset,count]
    rw [same,← line] at covers
    rw [combined,same,← line]
    exact covers_hit covers _ _
  · have untouched : c.snooped = c.toCombineLine := by simp [snooped,hit,same]
    rw [untouched]
    exact covers_miss covers (by rw [line]; exact Ne.symm same) _ _

theorem slaveM_passes (other : s.buffer.state ≠ .write) : s.buffer.slaveM bits x.readM = x.readM := by simp [slaveM,other]

theorem tag_kept (other : s.buffer.state ≠ .write) : (s.after bits x).buffer.tagReg = s.buffer.tagReg := by
  simp [other]

theorem holds_next (busy : done bits s x = false) (quiet : x.readM.cmd = .idle) (alone : x.writeM.cmd ≠ .wr) :
    (s.after bits x).core = s.core ∧ (s.after bits x).buffer.state = s.buffer.stateNext bits x.slave ∧
      (s.after bits x).buffer.hitReg = s.buffer.hitReg ∧
      (s.after bits x).latest =
        BurstMemory.Beat.write s.latest (match s.core with | .spill _ => taken bits s x | _ => none) := by
  have core : coreNext bits s x = s.core := by simp [quiet,alone,busy]
  refine ⟨core,by simp [quiet,alone],by simp [quiet],?_⟩
  cases here : s.core <;> simp only [State.after,system,issue,alone,if_false,core,here]

theorem memory_ack (phase : s.memory.phase = .ack) :
    (s.after bits x).memory = if x.slave.resp = .null then s.memory else ⟨s.memory.ram,.idle⟩ := by
  simp [BurstMemory.State.next,phase]

theorem memory_rests (phase : s.memory.phase = .idle) (other : s.buffer.state ≠ .write) (quiet : x.readM.cmd = .idle) :
    (s.after bits x).memory = ⟨s.memory.ram,.idle⟩ := by
  have unused := next_unused (2^bits) x.slave phase quiet
  rw [← @slaveM_passes bits s x other] at unused
  rw [← phase]
  exact unused

theorem snoop_word (aligned : addr = tag bits addr*2^bits*4)
    (hit : (s.after bits x).buffer.hitReg = decide ((s.after bits x).buffer.tagReg = tag bits addr))
    (issued : (s.after bits x).latest = BurstMemory.Beat.write s.latest (taken bits s x))
    (inside : beats < 2^bits) (count : (s.after bits x).buffer.cntReg = beats)
    (covers : Covers bits (s.after bits x).buffer.toCombineLine (s.after bits x).buffer.tagReg s.memory.ram s.latest)
    (waits : x.slave.dataAccept = false → beats+1 < 2^bits ∧ Accepted bits addr s.memory.phase beats ∧
      (s.after bits x).memory = s.memory ∧ taken bits s x = none)
    (stores : x.slave.dataAccept = true →
      (s.after bits x).memory = ⟨store s.memory.ram (addr+beats*4) x.readM.data x.readM.dataByteEn,
        afterBeat (2^bits) addr (beats+1)⟩ ∧
      taken bits s x = some ⟨addr+beats*4,x.readM.data,x.readM.dataByteEn⟩) :
    ∃ beats', Snooping bits (s.after bits x) addr beats' := by
  cases accept : x.slave.dataAccept with
  | false =>
    obtain ⟨more,accepted,same,nothing⟩ := waits accept
    have pending : (s.after bits x).buffer.dataAcceptReg = false := accept
    refine ⟨beats,aligned,hit,by rwa [same],by rw [count,pending]; rfl,fun full => by omega,?_⟩
    rw [same,issued,nothing]
    simpa [snooped,pending,BurstMemory.Beat.write,-system] using covers
  | true =>
    obtain ⟨memory,stored⟩ := stores accept
    have pending : (s.after bits x).buffer.dataAcceptReg = true := accept
    refine ⟨beats+1,aligned,hit,?_,by simp [count,pending,-system],fun _ => pending,?_⟩
    · rw [memory,afterBeat]
      by_cases full : beats+1 = 2^bits
      · rw [if_pos full,full]
        exact .ack
      · rw [if_neg full]
        exact .write (succ_pos _) (by omega)
    · rw [memory,issued,stored]
      exact spill_covers beats aligned inside hit count pending covers

section
variable (several : 0 < bits) (admitted : (system bits).admits s x) (other : s.buffer.state ≠ .write)
  (count : (s.after bits x).buffer.cntReg = 0)
  (covers : Covers bits (s.after bits x).buffer.toCombineLine s.buffer.tagReg s.memory.ram s.latest)
include several admitted other count covers

theorem snoop_command (command : x.readM.cmd = .wr) (alone : x.writeM.cmd ≠ .wr) (idle : s.memory.phase = .idle) :
    Stage bits (s.after bits x) (s.after bits x).buffer.state := by
  have passes := @slaveM_passes bits s x other
  have aligned : x.readM.addr = tag bits x.readM.addr*2^bits*4 := admitted.2.1 (by simp [command])
  have begins : (s.after bits x).buffer.state = .writeSnoop := by simp [command]
  have core : (s.after bits x).core = .spill x.readM.addr := by simp [command]
  have line := @tag_kept bits s x other
  have hit : (s.after bits x).buffer.hitReg = decide ((s.after bits x).buffer.tagReg = tag bits x.readM.addr) := by
    rw [line]
    simp [command]
  have issued : (s.after bits x).latest = BurstMemory.Beat.write s.latest (taken bits s x) := by
    simp [issue,alone,command]
  have answers := admitted.2.2
  simp only [passes,BurstMemory.State.Answers,idle,command,forall_const] at answers
  rw [← line] at covers
  obtain ⟨_,snooping⟩ := snoop_word aligned hit issued (Nat.two_pow_pos bits) count covers (fun accept => by
      have waits : x.slave.cmdAccept = false := answers.2.symm.trans accept
      exact ⟨words_several several,idle ▸ .idle,by simp [BurstMemory.State.next,idle,waits],
        by simp [taken,BurstMemory.State.taken,idle,waits]⟩)
    (fun accept => by
      have takes : x.slave.cmdAccept = true := answers.2.symm.trans accept
      have memory : (s.after bits x).memory = _ := next_written (2^bits)
        (.inl ⟨idle,by rw [passes,command],by rw [passes],takes,rfl⟩)
      rw [passes] at memory
      refine ⟨?_,by simp [taken,BurstMemory.State.taken,idle,takes,passes,command]⟩
      exact memory)
  rw [begins]
  exact .writeSnoop core snooping

theorem begin_step (free : done bits s x = true) (rests : x.readM.cmd = .idle → (s.after bits x).memory = ⟨s.memory.ram,.idle⟩)
    (settles : s.buffer.stateNext bits x.slave = .idle) :
    Stage bits (s.after bits x) (s.after bits x).buffer.state := by
  have passes := @slaveM_passes bits s x other
  have line := @tag_kept bits s x other
  have offers := admitted.1
  simp only [Offers,free] at offers
  by_cases quiet : x.readM.cmd = .idle
  · by_cases write : x.writeM.cmd = .wr
    · have core : (s.after bits x).core = .write := by simp [quiet,write]
      have latched : (s.after bits x).buffer.writeMasterReg = x.writeM := by simp [write]
      have latest : (s.after bits x).latest = store s.latest x.writeM.addr x.writeM.data x.writeM.byteEn := by
        simp [issue,write,BurstMemory.Beat.write]
      by_cases hit : s.buffer.tagReg = tag bits x.writeM.addr
      · have begins : (s.after bits x).buffer.state = .writeComb := by simp [quiet,write,hit]
        rw [begins]
        refine .writeComb core (by rw [rests quiet]) count (by rw [line,latched,hit]) ?_ (by rw [latest,latched])
        rw [line,rests quiet]
        exact covers
      · have begins : (s.after bits x).buffer.state = .write := by simp [quiet,write,hit]
        have flushing : Flushing bits (s.after bits x).buffer.toCombineLine x.writeM ⟨s.memory.ram,.idle⟩
            (store s.latest x.writeM.addr x.writeM.data x.writeM.byteEn) s.buffer.tagReg 0 := by
          refine ⟨Nat.two_pow_pos bits,Ne.symm hit,rfl,fun off early => absurd early (Nat.not_lt_zero _),?_,?_,
            fun off early => absurd early (not_lt_zero _),fun early => absurd early (not_lt_zero _)⟩
          · intro off fits _
            obtain ⟨high,low⟩ := line_word s.buffer.tagReg fits
            have away : s.buffer.tagReg*2^bits+off ≠ x.writeM.addr/4 :=
              fun same => hit (high.symm.trans ((same_word bits _ _).1 same).1)
            rw [store_apply,if_neg away,covers,high,low,if_pos rfl]
          · intro word away
            rw [store_apply,store_apply,covers word,if_neg away]
        rw [begins]
        exact .write core (by rw [count,line]; rfl) (by rw [latched,count,rests quiet,latest]; exact flushing)
    · have core : (s.after bits x).core = .none := by simp [quiet,write,free]
      have latest : (s.after bits x).latest = s.latest := by
        simp [issue,write,quiet,free,BurstMemory.Beat.write]
      have settled : (s.after bits x).buffer.state = .idle := by simp [quiet,write,settles]
      rw [settled]
      refine .idle core (by rw [rests quiet]) count ?_
      rw [Covered,rests quiet,latest,line]
      exact covers
  · obtain ⟨alone,idle⟩ := offers.resolve_left quiet
    cases command : x.readM.cmd with
    | idle => exact absurd command quiet
    | wr => exact snoop_command several admitted other count covers command alone idle
    | rd =>
      have memory : (s.after bits x).memory = _ := next_requested (2^bits) x.slave idle (by rw [passes,command])
      have core : (s.after bits x).core = .read x.readM.addr := by simp [alone,command]
      have latest : (s.after bits x).latest = s.latest := by
        simp [issue,alone,command,BurstMemory.Beat.write]
      have begins : (s.after bits x).buffer.state = .read := by simp [alone,command]
      rw [begins]
      refine .read core (admitted.2.1 quiet) ?_ (count ▸ Nat.two_pow_pos bits) ?_ ?_
      · rw [line]
        simp [command]
      · rw [memory,count,passes]
        cases x.slave.cmdAccept <;> simp
      · rw [Covered,memory,latest,line]
        exact covers
end

theorem flush_memory (flushing : Flushing bits s.buffer.toCombineLine s.buffer.writeMasterReg s.memory s.latest old s.buffer.cntReg)
    (line : s.buffer.tagReg = if s.buffer.cntReg = 0 then old else tag bits s.buffer.writeMasterReg.addr)
    (state : s.buffer.state = .write) (quiet : x.readM.cmd = .idle)
    (answers : s.memory.Answers (s.buffer.slaveM bits x.readM) x.slave) :
    (s.after bits x).memory = (if x.slave.dataAccept then
      ⟨store s.memory.ram (old*2^bits*4+s.buffer.cntReg*4) (s.buffer.dataBuffer s.buffer.cntReg)
        (s.buffer.byteEnBuffer s.buffer.cntReg),afterBeat (2^bits) (old*2^bits*4) (s.buffer.cntReg+1)⟩
      else s.memory) ∧ taken bits s x = if x.slave.dataAccept then
      some ⟨old*2^bits*4+s.buffer.cntReg*4,s.buffer.dataBuffer s.buffer.cntReg,s.buffer.byteEnBuffer s.buffer.cntReg⟩ else none := by
  have phase := flushing.phase
  by_cases first : s.buffer.cntReg = 0
  · rw [if_pos first] at line phase
    have master : s.buffer.slaveM bits x.readM =
        ⟨.wr,old*2^bits*4,s.buffer.dataBuffer s.buffer.cntReg,true,s.buffer.byteEnBuffer s.buffer.cntReg⟩ := by
      simp [slaveM,state,quiet,first,line]
    simp only [BurstMemory.State.Answers,phase] at answers
    constructor
    · cases accept : x.slave.dataAccept <;> rw [accept] at answers <;>
        simp [BurstMemory.State.next,phase,master,← answers.2,first]
    · cases accept : x.slave.dataAccept <;> rw [accept] at answers <;>
        simp [taken,BurstMemory.State.taken,phase,master,← answers.2,first]
  · rw [if_neg first] at phase
    constructor
    · cases accept : x.slave.dataAccept <;> simp [BurstMemory.State.next,phase,accept,slaveM,state,quiet]
    · cases accept : x.slave.dataAccept <;> simp [taken,BurstMemory.State.taken,phase,accept,slaveM,state,quiet]

theorem write_offers (core : s.core = .write) (silent : (s.buffer.writeS x.slave).resp = .null) (offers : Offers bits s x) :
    done bits s x = false ∧ x.readM.cmd = .idle ∧ x.writeM.cmd ≠ .wr := by
  have busy : done bits s x = false := by simp [done,core,silent]
  simp only [Offers,Holds,busy,core] at offers
  exact ⟨busy,offers.2,offers.1⟩

def displace (bits : Nat) (b : CombineLine) (m : OcpCoreMasterSignals 4) (count : Nat) : CombineLine :=
  if count = pos bits m.addr then b.replace count m.data m.byteEn else b.clear count

theorem displace_other {b : CombineLine} (m : OcpCoreMasterSignals 4) (other : off ≠ beat) :
    (displace bits b m beat).dataBuffer off = b.dataBuffer off ∧ (displace bits b m beat).byteEnBuffer off = b.byteEnBuffer off := by
  unfold displace
  split <;> simp [CombineLine.replace,CombineLine.clear,Function.update_of_ne other]

theorem flushing_beat {b : CombineLine} {m : OcpCoreMasterSignals 4} {memory : BurstMemory.State 4} {latest : Nat → Word 4}
    (flushing : Flushing bits b m memory latest old beat) :
    let ram := store memory.ram (old*2^bits*4+beat*4) (b.dataBuffer beat) (b.byteEnBuffer beat)
    (∀ off < beat+1, latest (old*2^bits+off) = ram (old*2^bits+off)) ∧
    (∀ off < 2^bits, beat < off → latest (old*2^bits+off) = merge (ram (old*2^bits+off))
      ((displace bits b m beat).dataBuffer off) ((displace bits b m beat).byteEnBuffer off)) ∧
    (∀ word, word/2^bits ≠ old → latest word = store ram m.addr m.data m.byteEn word) ∧
    (∀ off < beat+1, off ≠ pos bits m.addr → (displace bits b m beat).byteEnBuffer off = fun _ => false) ∧
    (pos bits m.addr < beat+1 → (displace bits b m beat).dataBuffer (pos bits m.addr) = m.data ∧
      (displace bits b m beat).byteEnBuffer (pos bits m.addr) = m.byteEn) := by
  intro ram
  have target : (old*2^bits*4+beat*4)/4 = old*2^bits+beat := by
    rw [← Nat.add_mul,Nat.mul_div_cancel _ (by decide)]
  have stored (word : Nat) : ram word = if word = old*2^bits+beat
      then merge (memory.ram word) (b.dataBuffer beat) (b.byteEnBuffer beat) else memory.ram word := by
    rw [← target]
    exact store_apply _ _ _ _ _
  have inside := flushing.inside
  refine ⟨fun off early => ?_,fun off fits later => ?_,fun word away => ?_,fun off early away => ?_,fun early => ?_⟩
  · rw [stored]
    by_cases newest : off = beat
    · rw [newest,if_pos rfl]
      exact flushing.held beat inside le_rfl
    · rw [if_neg (by omega)]
      exact flushing.sent off (by omega)
  · obtain ⟨data,byteEn⟩ := @displace_other bits off beat b m (by omega)
    rw [stored,if_neg (by omega),data,byteEn]
    exact flushing.held off fits (by omega)
  · have elsewhere : word ≠ old*2^bits+beat := fun same => away (by rw [same]; exact (line_word old inside).1)
    rw [flushing.rest word away,store_apply,store_apply,stored,if_neg elsewhere]
  · by_cases newest : off = beat
    · simp [displace,← newest,away,CombineLine.clear]
    · rw [(displace_other m newest).2]
      exact flushing.cleared off (by omega) away
  · by_cases newest : pos bits m.addr = beat
    · simp [displace,newest,CombineLine.replace]
    · rw [(displace_other m newest).1,(displace_other m newest).2]
      exact flushing.placed (by omega)

theorem flushed_covers {b : CombineLine} {m : OcpCoreMasterSignals 4} {ram latest : Nat → Word 4} (other : tag bits m.addr ≠ old)
    (sent : ∀ off < 2^bits, latest (old*2^bits+off) = ram (old*2^bits+off))
    (rest : ∀ word, word/2^bits ≠ old → latest word = store ram m.addr m.data m.byteEn word)
    (cleared : ∀ off < 2^bits, off ≠ pos bits m.addr → b.byteEnBuffer off = fun _ => false)
    (placed : b.dataBuffer (pos bits m.addr) = m.data ∧ b.byteEnBuffer (pos bits m.addr) = m.byteEn) :
    Covers bits b (tag bits m.addr) ram latest := by
  intro word
  have low : word % 2^bits < 2^bits := Nat.mod_lt _ (Nat.two_pow_pos bits)
  by_cases leaving : word/2^bits = old
  · have split : old*2^bits+word % 2^bits = word := by rw [← leaving]; exact div_add_mod' word (2^bits)
    have gone := sent _ low
    rw [split] at gone
    rw [gone,if_neg (by rw [leaving]; exact Ne.symm other)]
  · rw [rest word leaving,store_apply]
    by_cases line : word/2^bits = tag bits m.addr
    · rw [if_pos line]
      by_cases here : word % 2^bits = pos bits m.addr
      · rw [if_pos ((same_word bits m.addr word).2 ⟨line,here⟩),here,placed.1,placed.2]
      · rw [if_neg fun same => here ((same_word bits m.addr word).1 same).2,cleared _ low here,merge_none]
    · rw [if_neg line,if_neg fun same => line ((same_word bits m.addr word).1 same).1]

theorem flush_step (several : 0 < bits) (core : s.core = .write)
    (line : s.buffer.tagReg = if s.buffer.cntReg = 0 then old else tag bits s.buffer.writeMasterReg.addr)
    (flushing : Flushing bits s.buffer.toCombineLine s.buffer.writeMasterReg s.memory s.latest old s.buffer.cntReg)
    (state : s.buffer.state = .write) (admitted : (system bits).admits s x) (last : LastTaken bits s x) :
    Stage bits (s.after bits x) (s.after bits x).buffer.state := by
  obtain ⟨busy,quiet,alone⟩ := @write_offers bits s x core (by simp [writeS,state]) admitted.1
  obtain ⟨memory,_⟩ := flush_memory flushing line state quiet admitted.2.2
  have several' := words_several several
  have inside := flushing.inside
  obtain ⟨core',goes,_,latest⟩ := holds_next busy quiet alone
  rw [core] at core' latest
  have latched : (s.after bits x).buffer.writeMasterReg = s.buffer.writeMasterReg := by simp [alone]
  cases accept : x.slave.dataAccept with
  | false =>
    have notLast : s.buffer.cntReg ≠ 2^bits-1 := by
      intro final
      have phase := flushing.phase
      rw [if_neg (by omega)] at phase
      simp only [LastTaken,phase] at last
      rw [last final] at accept
      cases accept
    have stays : (s.after bits x).buffer.state = .write := by rw [goes]; simp [stateNext,state,notLast]
    have same : (s.after bits x).buffer.toCombineLine = s.buffer.toCombineLine := by
      simp [lineNext,state,accept]
    have count : (s.after bits x).buffer.cntReg = s.buffer.cntReg := by simp [state,accept]
    have tag' : (s.after bits x).buffer.tagReg = s.buffer.tagReg := by simp [accept]
    rw [accept] at memory
    rw [stays]
    exact .write core' (by rw [tag',count,latched]; exact line) (by rw [same,count,latched,memory,latest]; exact flushing)
  | true =>
    have sends : (s.after bits x).buffer.toCombineLine =
        displace bits s.buffer.toCombineLine s.buffer.writeMasterReg s.buffer.cntReg := by
      change s.buffer.lineNext bits x.slave = _
      simp only [lineNext,state,accept]
      rfl
    have count : (s.after bits x).buffer.cntReg = (s.buffer.cntReg+1) % 2^bits := by simp [state,accept]
    have tag' : (s.after bits x).buffer.tagReg = tag bits s.buffer.writeMasterReg.addr := by
      simp [state,accept]
    obtain ⟨sent,held,rest,cleared,placed⟩ := flushing_beat flushing
    rw [accept,if_pos rfl] at memory
    by_cases final : s.buffer.cntReg+1 = 2^bits
    · have stops : (s.after bits x).buffer.state = .writeResp := by
        rw [goes]
        simp [stateNext,state,show s.buffer.cntReg = 2^bits-1 by omega]
      rw [stops]
      refine .writeResp core' ?_ (by rw [count,final,mod_self]) ?_
      · rw [memory,afterBeat,if_pos final]
      · rw [final] at sent cleared placed
        rw [Covered,sends,tag',memory,latest]
        exact flushed_covers flushing.other sent rest cleared (placed (Nat.mod_lt _ (Nat.two_pow_pos bits)))
    · have wraps : (s.buffer.cntReg+1) % 2^bits = s.buffer.cntReg+1 := mod_eq_of_lt (by omega)
      have stays : (s.after bits x).buffer.state = .write := by
        rw [goes]
        simp [stateNext,state,show s.buffer.cntReg ≠ 2^bits-1 by omega]
      have moves : afterBeat (2^bits) (old*2^bits*4) (s.buffer.cntReg+1) =
          .write (old*2^bits*4) (s.buffer.cntReg+1) := by rw [afterBeat,if_neg final]
      have flushing' : Flushing bits (displace bits s.buffer.toCombineLine s.buffer.writeMasterReg s.buffer.cntReg)
          s.buffer.writeMasterReg (s.after bits x).memory s.latest old (s.buffer.cntReg+1) := by
        rw [memory,moves]
        exact ⟨by omega,flushing.other,rfl,sent,held,rest,cleared,placed⟩
      have line' : (s.after bits x).buffer.tagReg =
          if (s.after bits x).buffer.cntReg = 0 then old else tag bits s.buffer.writeMasterReg.addr := by
        rw [tag',count,wraps]
        rfl
      rw [stays]
      refine .write core' (by rw [latched]; exact line') ?_
      rw [sends,latched,latest,count,wraps]
      exact flushing'
end Step
end Patmos.WriteCombine
