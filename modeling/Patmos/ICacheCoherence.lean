import Patmos.ICache
namespace Patmos
open Geometry

namespace Geometry
section
variable (g : Geometry)

theorem index_word (word : Nat) : g.index (word*4) = g.wordIndex word := by
  rw [index,Nat.mul_div_cancel _ (by decide),wordIndex,lineOf]

theorem tag_word (word : Nat) : g.tag (word*4) = g.wordTag word := by
  rw [tag,Nat.mul_div_cancel _ (by decide),wordTag,lineOf]

theorem cell_word (word : Nat) : g.cell (word*4) = g.wordCell word := by
  rw [cell,Nat.mul_div_cancel _ (by decide),wordCell]

theorem lineOf_split (line : Nat) (fits : off < g.words) : g.lineOf (line*g.words+off) = line := quotient_exact line fits

theorem lineOf_first (line : Nat) : g.lineOf (line*g.words) = line := Nat.mul_div_cancel _ g.words_pos

theorem base_first (line : Nat) : g.base (line*g.words*4) = line*g.words := by
  rw [base,Nat.mul_div_cancel _ (by decide),Nat.mul_div_cancel _ g.words_pos]

theorem wordCell_split (line : Nat) (fits : off < g.words) : g.wordCell (line*g.words+off) = line % g.lines*g.words+off := by
  rw [← cell_word,cell_split,index_word,wordIndex,lineOf_split g line fits,offset,Nat.mul_div_cancel _ (by decide),
    Nat.mul_comm line,Nat.mul_add_mod,Nat.mod_eq_of_lt fits]
end
end Geometry

namespace InstructionCache
open Transition ICacheCtrl BurstMemory

structure Large (g : Geometry) : Prop where
  words : 0 < g.wordBits
  lines : 0 < g.indexBits

theorem Large.halves {g : Geometry} (large : Large g) : 2 ∣ g.words ∧ 2 ∣ g.lines :=
  ⟨Nat.pow_dvd_pow 2 large.words,Nat.pow_dvd_pow 2 large.lines⟩

theorem pair_banks {g : Geometry} (large : Large g) (pair : Pair addrEven addrOdd) :
    g.wordIndex addrOdd = g.wordIndex addrEven ∨ g.wordIndex addrOdd % 2 ≠ g.wordIndex addrEven % 2 := by
  obtain ⟨⟨half,words⟩,lines⟩ := large.halves
  rcases pair with ⟨low,rfl⟩ | ⟨high,rfl⟩
  · left
    have same : (addrEven+1)/g.words = addrEven/g.words := by
      rw [Nat.succ_div,if_neg]
      · rfl
      · rintro ⟨k,whole⟩
        rw [words,Nat.mul_assoc] at whole
        omega
    rw [wordIndex,wordIndex,lineOf,lineOf,same]
  · rw [wordIndex,wordIndex,lineOf,lineOf,Nat.succ_div]
    split
    · right
      rw [Nat.mod_mod_of_dvd _ lines,Nat.mod_mod_of_dvd _ lines]
      omega
    · left
      rfl

theorem cell_parity {g : Geometry} (large : Large g) (word : Nat) : g.wordCell word % 2 = word % 2 :=
  Nat.mod_mod_of_dvd word (Nat.dvd_mul_right_of_dvd large.halves.1 g.lines)

-- The outputs of the memories belong to the registered addresses.
structure Seen (g : Geometry) (c : ICache) : Prop where
  tagEven : c.repl.tagEven g = c.repl.tagMem.content (g.wordIndex c.repl.addrEvenReg)
  tagOdd : c.repl.tagOdd g = c.repl.tagMem.content (g.wordIndex c.repl.addrOddReg)
  even : c.mem.even.rdData = c.mem.content (g.wordCell c.repl.addrEvenReg)
  odd : c.mem.odd.rdData = c.mem.content (g.wordCell c.repl.addrOddReg)

def tags (c : ICache) : Nat → Nat := c.repl.tagMem.content

def Lines (g : Geometry) (s : State) (beats : Nat) : Prop :=
  g.Filling s.cache.repl.validVec (tags s.cache) s.cache.mem.content (s.cache.ctrl.addrReg*g.words*4) s.memory.ram beats

-- The words of the line that memory has sent. The last one may still be in the input register.
structure Received (g : Geometry) (s : State) (beats : Nat) : Prop where
  count : s.cache.ctrl.fetchCntReg + (if s.cache.ctrl.ocpSlaveReg.resp = .dva then 1 else 0) = beats
  within : beats ≤ g.words
  phase : s.memory.phase = if beats = g.words then .idle else .read (s.cache.ctrl.addrReg*g.words*4) beats
  burst : s.cache.ctrl.burstCntReg = s.cache.ctrl.fetchCntReg % g.words
  word : s.cache.ctrl.ocpSlaveReg.resp = .null ∨ s.cache.ctrl.ocpSlaveReg.resp = .dva ∧
    s.cache.ctrl.ocpSlaveReg.data = s.memory.ram (s.cache.ctrl.addrReg*g.words+s.cache.ctrl.fetchCntReg)

inductive Stage (g : Geometry) (s : State) : ICacheState → Prop where
  | settled : state = .init ∨ state = .idle → s.memory.phase = .idle → s.cache.ctrl.ocpSlaveReg.resp = .null →
      g.Coherent s.cache.repl.validVec (tags s.cache) s.cache.mem.content s.memory.ram → Stage g s state
  | wait : s.memory.phase = .idle → s.cache.ctrl.ocpSlaveReg.resp = .null → s.cache.ctrl.fetchCntReg = 0 →
      s.cache.ctrl.burstCntReg = 0 → Lines g s 0 → Stage g s .wait
  | transfer : Received g s beats → Lines g s s.cache.ctrl.fetchCntReg → Stage g s .transfer

abbrev Staged (g : Geometry) (s : State) : Prop := Stage g s s.cache.ctrl.stateReg

structure Valid (g : Geometry) (s : State) : Prop where
  seen : (∀ idx, s.cache.repl.validVec idx = false) ∨ Seen g s.cache
  stage : Stage g s s.cache.ctrl.stateReg
  unmarked : ∀ idx, s.failed idx = false

def ErrorFree (_ : State) (x : Cycle) : Prop := x.slave.resp ≠ .err

attribute [local simp] State.after system ICache.next next

section Step
variable {g : Geometry} {ispmOneBit : Nat} {s : State} {x : Cycle}

theorem seen_next (large : Large g) (pair : Pair x.fe.addrEven x.fe.addrOdd) : Seen g (s.after g ispmOneBit x).cache := by
  have banks := pair_banks large pair
  have parity : x.fe.addrEven % 2 = 0 ∧ x.fe.addrOdd % 2 = 1 := by
    rcases pair with ⟨low,same⟩ | ⟨high,same⟩ <;> omega
  refine ⟨?_,?_,?_,?_⟩
  · by_cases high : g.wordIndex x.fe.addrEven % 2 = 1
    · simp only [State.after,system,ICache.next,ICacheReplDm.next,ICacheReplDm.tagEven,high]
      exact Banked.odd_next _ _ _ _ _ _ high rfl
    · simp only [State.after,system,ICache.next,ICacheReplDm.next,ICacheReplDm.tagEven,high]
      exact Banked.even_next _ _ _ _ _ _ (by omega) rfl
  · by_cases high : g.wordIndex x.fe.addrOdd % 2 = 1
    · simp only [State.after,system,ICache.next,ICacheReplDm.next,ICacheReplDm.tagOdd,high]
      refine Banked.odd_next _ _ _ _ _ _ high ?_
      rcases banks with same | other
      · rw [same] at high ⊢
        rw [if_pos high]
      · rw [if_neg (by omega)]
    · simp only [State.after,system,ICache.next,ICacheReplDm.next,ICacheReplDm.tagOdd,high]
      refine Banked.even_next _ _ _ _ _ _ (by omega) ?_
      rcases banks with same | other
      · rw [same] at high ⊢
        rw [if_neg high]
      · rw [if_pos (by omega)]
  · exact Banked.even_next _ _ _ _ _ _ (by rw [cell_parity large]; exact parity.1) rfl
  · exact Banked.odd_next _ _ _ _ _ _ (by rw [cell_parity large]; exact parity.2) rfl

theorem content_next : (s.after g ispmOneBit x).cache.mem.content = overlay s.cache.mem.content
    (s.cache.ctrl.arrives g) (g.wordCell (s.cache.ctrlrepl g).wAddr) (s.cache.ctrlrepl g).wData := by
  funext cell
  exact Banked.content_next _ _ _ _ _ _ _

theorem tags_next (idx : Nat) : tags (s.after g ispmOneBit x).cache idx =
    if (s.cache.miss g = true) ∧ idx = g.wordIndex (s.cache.repl.fetchAddr g) then g.wordTag (s.cache.repl.fetchAddr g)
    else tags s.cache idx := by
  have step : tags (s.after g ispmOneBit x).cache idx = _ := Banked.content_next _ _ _ _ _ _ _
  rw [step]
  cases missing : s.cache.miss g with
  | false =>
    have none : (s.cache.ctrlrepl g).wTag = false := missing
    simp [none,tags]
  | true =>
    have allocates : (s.cache.ctrlrepl g).wTag = true := missing
    have line : (s.cache.ctrlrepl g).wAddr = g.lineOf (s.cache.repl.fetchAddr g)*g.words := if_pos missing
    rw [allocates,line,wordIndex,wordTag,g.lineOf_first]
    rfl

theorem valid_before (other : ¬(s.cache.miss g = true ∧ idx = g.wordIndex (s.cache.repl.fetchAddr g)))
    (after : (s.after g ispmOneBit x).cache.repl.validVec idx = true) : s.cache.repl.validVec idx = true := by
  simp only [State.after,system,ICache.next,ICacheReplDm.next] at after
  split at after
  · cases after
  · split at after
    · rename_i allocated
      obtain ⟨missing,here⟩ := allocated
      have line : (s.cache.ctrlrepl g).wAddr = g.lineOf (s.cache.repl.fetchAddr g)*g.words := if_pos missing
      rw [line,wordIndex,g.lineOf_first] at here
      exact absurd ⟨missing,here⟩ other
    · exact after

section
variable (still : s.cache.miss g = false)
include still

theorem valid_kept (idx : Nat) (after : (s.after g ispmOneBit x).cache.repl.validVec idx = true) :
    s.cache.repl.validVec idx = true := valid_before (by simp [still]) after

theorem tags_kept : tags (s.after g ispmOneBit x).cache = tags s.cache := by
  funext idx
  rw [tags_next,if_neg (by simp [still])]

theorem addr_kept : (s.after g ispmOneBit x).cache.ctrl.addrReg = s.cache.ctrl.addrReg :=
  if_neg (ne_true_of_eq_false still)

theorem lines_kept (none : s.cache.ctrl.arrives g = false) (ram : (s.after g ispmOneBit x).memory.ram = s.memory.ram)
    (lines : Lines g s beats) : Lines g (s.after g ispmOneBit x) beats := by
  unfold Lines
  rw [addr_kept still,tags_kept still,content_next,none,ram]
  exact filling_kept lines (valid_kept still)
end

theorem requested_step (idle : s.memory.phase = .idle) (command : (s.cache.ocpM g).cmd = .rd)
    (address : (s.cache.ocpM g).addr = (s.after g ispmOneBit x).cache.ctrl.addrReg*g.words*4)
    (answers : s.memory.Answers (s.cache.ocpM g) x.slave)
    (fetch : (s.after g ispmOneBit x).cache.ctrl.fetchCntReg = 0)
    (burst : (s.after g ispmOneBit x).cache.ctrl.burstCntReg = 0)
    (state : (s.after g ispmOneBit x).cache.ctrl.stateReg = if x.slave.cmdAccept then .transfer else .wait)
    (lines : Lines g (s.after g ispmOneBit x) 0) :
    Staged g (s.after g ispmOneBit x) := by
  simp only [BurstMemory.State.Answers,idle] at answers
  have memory : (s.after g ispmOneBit x).memory = _ := next_requested g.words x.slave idle command
  have silent : (s.after g ispmOneBit x).cache.ctrl.ocpSlaveReg.resp = .null := answers.1
  rw [Staged,state]
  cases accept : x.slave.cmdAccept with
  | false => exact .wait (by simp [memory,accept,-system]) silent fetch burst lines
  | true =>
    have none : 0 ≠ g.words := g.words_pos.ne
    have received : Received g (s.after g ispmOneBit x) 0 := by
      refine ⟨by rw [fetch,silent]; rfl,Nat.zero_le _,?_,by rw [burst,fetch,Nat.zero_mod],.inl silent⟩
      rw [memory,accept,if_neg none,address]
      rfl
    exact .transfer received (fetch ▸ lines)

section
variable (idle : s.memory.phase = .idle) (silent : s.cache.ctrl.ocpSlaveReg.resp = .null)
  (coherent : g.Coherent s.cache.repl.validVec (tags s.cache) s.cache.mem.content s.memory.ram)
  (answers : s.memory.Answers (s.cache.ocpM g) x.slave)
include idle silent coherent answers

theorem rest_step (state : s.cache.ctrl.stateReg = .init ∨ s.cache.ctrl.stateReg = .idle) (still : s.cache.miss g = false) :
    Staged g (s.after g ispmOneBit x) := by
  simp only [BurstMemory.State.Answers,idle] at answers
  have none : s.cache.ctrl.arrives g = false := by
    rcases state with state | state <;> simp [arrives,state]
  have quiet : (s.cache.ocpM g).cmd = .idle := by
    have noMiss : s.cache.ctrl.miss s.cache.repl.selCacheReg (s.cache.hit g) = false := still
    rcases state with state | state <;> simp [ICache.ocpM,ocpM,refetch,none,noMiss,state]
  have memory : (s.after g ispmOneBit x).memory = s.memory := next_unused g.words x.slave idle quiet
  refine .settled ?_ (by rw [memory,idle]) answers.1 ?_
  · simp only [State.after,system,ICache.next,next,silent]
    rcases state with state | state
    · cases select : s.cache.repl.selCacheReg <;> simp [stateNext,state]
    · cases select : s.cache.repl.selCacheReg with
      | false => simp [stateNext,state]
      | true =>
        have hit : s.cache.hit g = true := by simpa [ICache.miss,miss,state,select] using still
        simp [stateNext,state,hit]
  · intro idx inside valid
    rw [tags_kept still,content_next,none,memory]
    exact coherent idx inside (valid_kept still idx valid)

theorem miss_step (missing : s.cache.miss g = true) : Staged g (s.after g ispmOneBit x) := by
  have misses : s.cache.ctrl.miss s.cache.repl.selCacheReg (s.cache.hit g) = true := missing
  obtain ⟨state,select,noHit⟩ := of_decide_eq_true misses
  have line : (s.after g ispmOneBit x).cache.ctrl.addrReg = g.lineOf (s.cache.repl.fetchAddr g) := if_pos misses
  have none : s.cache.ctrl.arrives g = false := by simp [arrives,state]
  have memory : (s.after g ispmOneBit x).memory.ram = s.memory.ram := by
    have command : (s.cache.ocpM g).cmd = .rd := by simp [ICache.ocpM,ocpM,misses]
    rw [show (s.after g ispmOneBit x).memory = _ from next_requested g.words x.slave idle command]
  refine requested_step idle (by simp [ICache.ocpM,ocpM,misses]) ?_ answers ?_ ?_ ?_ ?_
  · simp [ICache.ocpM,ocpM,ocpAddr,misses]
  · simp [misses]
  · simp [misses,silent]
  · have noHit' : s.cache.hit g = false := by simpa using noHit
    simp [illMem,silent,stateNext,state,select,noHit']
  · have index : g.index (g.lineOf (s.cache.repl.fetchAddr g)*g.words*4) = g.wordIndex (s.cache.repl.fetchAddr g) := by
      rw [g.index_word,wordIndex,g.lineOf_first,wordIndex]
    unfold Lines
    rw [line,content_next,none,memory]
    refine filling_begins coherent (fun idx other => ?_) ?_
    · rw [index] at other
      exact ⟨valid_before fun both => other both.2,by rw [tags_next,if_neg fun both => other both.2]⟩
    · rw [index,tags_next,if_pos ⟨missing,rfl⟩,g.tag_word,wordTag,wordTag,g.lineOf_first]
end

theorem busy_still (state : s.cache.ctrl.stateReg ≠ .idle) :
    s.cache.ctrl.miss s.cache.repl.selCacheReg (s.cache.hit g) = false := by
  simp [miss,state]

theorem wait_step (state : s.cache.ctrl.stateReg = .wait) (idle : s.memory.phase = .idle)
    (silent : s.cache.ctrl.ocpSlaveReg.resp = .null) (fetch : s.cache.ctrl.fetchCntReg = 0) (burst : s.cache.ctrl.burstCntReg = 0)
    (lines : Lines g s 0) (answers : s.memory.Answers (s.cache.ocpM g) x.slave) :
    Staged g (s.after g ispmOneBit x) := by
  have none : s.cache.ctrl.arrives g = false := by simp [arrives,state]
  have command : (s.cache.ocpM g).cmd = .rd := by simp [ICache.ocpM,ocpM,state]
  have memory : (s.after g ispmOneBit x).memory.ram = s.memory.ram := by
    rw [show (s.after g ispmOneBit x).memory = _ from next_requested g.words x.slave idle command]
  refine requested_step idle command ?_ answers ?_ ?_ ?_ ?_
  · simp [ICache.ocpM,ocpM,ocpAddr,state]
  · simp [none,fetch]
  · simp [none,silent,burst]
  · simp [illMem,silent,stateNext,state]
  · exact lines_kept (busy_still (by simp [state])) none memory lines

section
variable (state : s.cache.ctrl.stateReg = .transfer) (received : Received g s beats)
include state received

theorem transfer_lines (large : Large g) (lines : Lines g s s.cache.ctrl.fetchCntReg) (ram : (s.after g ispmOneBit x).memory.ram = s.memory.ram) :
    (s.after g ispmOneBit x).cache.ctrl.fetchCntReg = beats ∧ Lines g (s.after g ispmOneBit x) beats := by
  have noMiss := @busy_still g s (by simp [state])
  have count := received.count
  have within := received.within
  have index : g.index (s.cache.ctrl.addrReg*g.words*4) = s.cache.ctrl.addrReg % g.lines := by
    rw [g.index_word,wordIndex,g.lineOf_first]
  cases arrives : s.cache.ctrl.arrives g with
  | false =>
    have none : s.cache.ctrl.ocpSlaveReg.resp ≠ .dva := by
      intro given
      rw [if_pos given] at count
      have early : s.cache.ctrl.fetchCntReg < g.words := by omega
      simp [ICacheCtrl.arrives,state,given,early] at arrives
    rw [if_neg none] at count
    exact ⟨by simpa [noMiss,arrives] using count,lines_kept noMiss arrives ram (count ▸ lines)⟩
  | true =>
    obtain ⟨_,early,given⟩ := of_decide_eq_true arrives
    rw [if_pos given] at count
    have several : g.words < g.words*g.lines := by
      have lines : 1 < g.lines := Nat.one_lt_two_pow large.lines.ne'
      exact (Nat.lt_mul_iff_one_lt_right g.words_pos).2 lines
    have small : s.cache.ctrl.fetchCntReg+1 < g.words*g.lines := by omega
    have target : (s.cache.ctrlrepl g).wAddr = s.cache.ctrl.addrReg*g.words+s.cache.ctrl.fetchCntReg := by
      simp [ICache.ctrlrepl,ICacheCtrl.ctrlrepl,noMiss,state,early]
    have data : (s.cache.ctrlrepl g).wData = s.cache.ctrl.ocpSlaveReg.data := if_pos arrives
    refine ⟨?_,?_⟩
    · rw [← count,← Nat.mod_eq_of_lt small]
      simp [noMiss,arrives]
    · have good := received.word.resolve_left (by simp [given])
      have step := filling_next lines (@valid_kept g ispmOneBit s x noMiss) true s.cache.ctrl.ocpSlaveReg.data (fun _ => early)
        (fun _ _ => by rw [g.base_first]; exact good.2)
      unfold Lines
      rw [addr_kept noMiss,tags_kept noMiss,content_next,arrives,target,data,g.wordCell_split _ early,ram,← count,← index]
      exact step

theorem transfer_quiet : (s.cache.ocpM g).cmd = .idle ∧ s.cache.ctrl.refetch g = false := by
  have noMiss := @busy_still g s (by simp [state])
  have once : s.cache.ctrl.refetch g = false := by
    rw [refetch,decide_eq_false_iff_not]
    rintro ⟨_,early,late⟩
    rw [received.burst,Nat.mod_eq_of_lt (by omega)] at late
    omega
  exact ⟨by simp [ICache.ocpM,ocpM,noMiss,state,once],once⟩

theorem transfer_burst : (s.after g ispmOneBit x).cache.ctrl.burstCntReg = beats % g.words := by
  have noMiss := @busy_still g s (by simp [state])
  have once := (transfer_quiet state received).2
  have count := received.count
  have within := received.within
  rcases received.word with silent | ⟨given,_⟩
  · have none : s.cache.ctrl.arrives g = false := by simp [arrives,silent]
    simp only [silent,reduceCtorEq,if_false,Nat.add_zero] at count
    simp [silent,noMiss,once,none,received.burst,count]
  · rw [if_pos given] at count
    have arrives : s.cache.ctrl.arrives g = true := by
      have early : s.cache.ctrl.fetchCntReg < g.words := by omega
      simp [arrives,state,given,early]
    simp [noMiss,once,arrives,received.burst,← count]
end

theorem transfer_memory (quiet : (s.cache.ocpM g).cmd = .idle) (received : Received g s beats)
    (answers : s.memory.Answers (s.cache.ocpM g) x.slave) (good : x.slave.resp ≠ .err) :
    (s.after g ispmOneBit x).memory.ram = s.memory.ram ∧
      (x.slave.resp = .null ∧ (s.after g ispmOneBit x).memory.phase = s.memory.phase ∨
      x.slave.resp = .dva ∧ x.slave.data = s.memory.ram (s.cache.ctrl.addrReg*g.words+beats) ∧ beats < g.words ∧
        (s.after g ispmOneBit x).memory.phase =
          if beats+1 = g.words then .idle else .read (s.cache.ctrl.addrReg*g.words*4) (beats+1)) := by
  have phase := received.phase
  have within := received.within
  by_cases full : beats = g.words
  · rw [if_pos full] at phase
    have memory : (s.after g ispmOneBit x).memory = s.memory := next_unused g.words x.slave phase quiet
    simp only [BurstMemory.State.Answers,phase] at answers
    exact ⟨by rw [memory],.inl ⟨answers.1,by rw [memory]⟩⟩
  · rw [if_neg full] at phase
    have memory : (s.after g ispmOneBit x).memory = _ := next_beat g.words (s.cache.ocpM g) x.slave phase
    simp only [BurstMemory.State.Answers,phase,Nat.mul_div_cancel _ (show 0 < 4 by decide)] at answers
    refine ⟨by rw [memory],?_⟩
    cases resp : x.slave.resp with
    | null => exact .inl ⟨rfl,by rw [memory,if_pos resp,phase]⟩
    | dva => exact .inr ⟨rfl,answers.2 resp,by omega,by rw [memory,if_neg (by simp [resp])]⟩
    | fail => exact absurd resp answers.1
    | err => exact absurd resp good

theorem transfer_step (large : Large g) (state : s.cache.ctrl.stateReg = .transfer) (received : Received g s beats)
    (lines : Lines g s s.cache.ctrl.fetchCntReg) (answers : s.memory.Answers (s.cache.ocpM g) x.slave)
    (good : x.slave.resp ≠ .err) : Staged g (s.after g ispmOneBit x) := by
  have noError : s.cache.ctrl.ocpSlaveReg.resp ≠ .err := by
    rcases received.word with silent | ⟨given,_⟩ <;> simp [*]
  have goes : (s.after g ispmOneBit x).cache.ctrl.stateReg =
      if s.cache.ctrl.fetchCntReg < g.words then .transfer else .idle := by
    simp [illMem,state,noError,stateNext]
  have count := received.count
  have within := received.within
  have line := @addr_kept g ispmOneBit s x (busy_still (by simp [state]))
  have burst := @transfer_burst beats g ispmOneBit s x state received
  have register : (s.after g ispmOneBit x).cache.ctrl.ocpSlaveReg = x.slave := rfl
  obtain ⟨ram,answer⟩ := @transfer_memory g ispmOneBit s x beats (transfer_quiet state received).1 received answers good
  obtain ⟨fetched,lines'⟩ := transfer_lines state received large lines ram
  rw [Staged,goes]
  rcases answer with ⟨silent,phase⟩ | ⟨given,data,more,phase⟩
  · rw [received.phase] at phase
    by_cases complete : s.cache.ctrl.fetchCntReg < g.words
    · rw [if_pos complete]
      exact .transfer ⟨by rw [fetched,register,silent]; rfl,within,by rw [phase,line],by rw [fetched,burst],.inl silent⟩ (fetched ▸ lines')
    · have full : beats = g.words := by omega
      rw [if_neg complete]
      rw [full] at lines'
      exact .settled (.inr rfl) (by rw [phase,if_pos full]) silent (filling_done lines')
  · rw [if_pos (by omega)]
    exact .transfer ⟨by rw [fetched,register,given]; rfl,more,by rw [phase,line],by rw [fetched,burst],
      .inr ⟨given,by rw [ram,line,fetched,register,data]⟩⟩ (fetched ▸ lines')

theorem stage_step (large : Large g) (stage : Stage g s s.cache.ctrl.stateReg) (admitted : (system g ispmOneBit).admits s x)
    (good : x.slave.resp ≠ .err) :
    Staged g (s.after g ispmOneBit x) := by
  generalize state : s.cache.ctrl.stateReg = now at stage
  cases stage with
  | settled rests idle silent coherent =>
    subst state
    cases missing : s.cache.miss g with
    | false => exact rest_step idle silent coherent admitted.2 rests missing
    | true => exact miss_step idle silent coherent admitted.2 missing
  | wait idle silent fetch burst lines => exact wait_step state idle silent fetch burst lines admitted.2
  | transfer received lines => exact transfer_step large state received lines admitted.2 good
end Step

def errorFree (g : Geometry) (ispmOneBit : Nat) : System State Cycle := (system g ispmOneBit).restrict ErrorFree

section
variable {g : Geometry} {ispmOneBit : Nat} {s : State}

theorem preserves_valid (large : Large g) (s : State) (x : Cycle) (valid : Valid g s)
    (admitted : (errorFree g ispmOneBit).admits s x) : Valid g ((errorFree g ispmOneBit).next s x) where
  seen := .inr (seen_next large admitted.1.1)
  stage := stage_step large valid.stage admitted.1 admitted.2
  unmarked idx := by
    have good : x.slave.resp ≠ .err := admitted.2
    simp [errorFree,System.restrict,good,valid.unmarked]

theorem reached_valid (large : Large g) (path : Reached (errorFree g ispmOneBit) s) : Valid g s := by
  refine path.invariant (fun s begun => ?_) (preserves_valid large)
  obtain ⟨state,_,_,silent,_,invalid,phase,unmarked⟩ := begun
  exact ⟨.inl invalid,.settled (.inl state) phase silent fun idx _ valid => absurd valid (by simp [invalid]),unmarked⟩

theorem word_read {c : ICache} {ram : Nat → Word 4} (coherent : g.Coherent c.repl.validVec (tags c) c.mem.content ram)
    (tag : c.repl.tagMem.content (g.wordIndex word) = g.wordTag word) (valid : c.repl.validVec (g.wordIndex word) = true) :
    c.mem.content (g.wordCell word) = ram word := by
  rw [← g.index_word] at tag valid
  have read := line_read (coherent _ (g.index_lt _) valid) (tag.trans (g.tag_word word).symm)
  rwa [g.cell_word,Nat.mul_div_cancel _ (by decide)] at read

theorem valid_correct (valid : Valid g s) : Correct g s := by
  have stage := valid.stage
  refine ⟨fun idx inside held other => ?_,fun enabled hit => ?_,fun _ idx _ marked => ?_⟩
  · have filling (line : Nat) (lines : g.Filling s.cache.repl.validVec (tags s.cache) s.cache.mem.content
        (s.cache.ctrl.addrReg*g.words*4) s.memory.ram line) (working : busy s.cache.ctrl = true) :
        g.Line s.cache.mem.content (s.cache.repl.tagMem.content idx) s.memory.ram idx := by
      refine lines.others idx inside (fun here => other ⟨working,?_⟩) held
      rw [here,g.index_word,wordIndex,g.lineOf_first]
    generalize state : s.cache.ctrl.stateReg = now at stage
    cases stage with
    | settled rests idle silent coherent => exact coherent idx inside held
    | wait idle silent fetch burst lines | transfer received lines => exact filling _ lines (by simp [busy,state])
  · generalize state : s.cache.ctrl.stateReg = now at stage
    cases stage with
    | settled rests idle silent coherent =>
      rcases valid.seen with invalid | seen
      · simp [ICache.hit,ICacheReplDm.hit,ICacheReplDm.hitEven,invalid] at hit
      · simp only [ICache.hit,ICacheReplDm.hit,ICacheReplDm.hitEven,ICacheReplDm.hitOdd,seen.tagEven,seen.tagOdd,
          Bool.and_eq_true,beq_iff_eq] at hit
        rw [seen.even,seen.odd]
        exact ⟨word_read coherent hit.1.1 hit.1.2,word_read coherent hit.2.1 hit.2.2⟩
    | wait | transfer => simp [ICache.fetchEna,fetchEna,state] at enabled
  · rw [valid.unmarked] at marked
    cases marked
end

theorem icache_correct (g : Geometry) (ispmOneBit : Nat) (large : Large g) : ∀ s, Reached (errorFree g ispmOneBit) s → Correct g s :=
  fun _ path => valid_correct (reached_valid large path)

def begin : State where
  cache := {
    ctrl := ⟨.init,0,0,0,.quiet⟩
    repl := ⟨⟨⟨fun _ => 0,0,false,false,0⟩,⟨fun _ => 0,0,false,false,0⟩⟩,fun _ => false,1,1,false,false,0,1⟩
    mem := ⟨⟨fun _ _ => 0,fun _ => 0,false,false,fun _ => 0⟩,⟨fun _ _ => 0,fun _ => 0,false,false,fun _ => 0⟩⟩ }
  memory := ⟨fun _ _ => 1,.idle⟩
  failed _ := false

theorem begin_starts (g : Geometry) (ispmOneBit : Nat) : (system g ispmOneBit).start begin :=
  ⟨rfl,rfl,rfl,rfl,rfl,fun _ => rfl,rfl,fun _ => rfl⟩

def idleCycle (slave : OcpBurstSlaveSignals 4) : Cycle := ⟨true,false,⟨false,0,0⟩,⟨0,1⟩,slave⟩
def callCycle : Cycle := {idleCycle .quiet with ex := ⟨true,2^15,0⟩}
def word : OcpBurstSlaveSignals 4 := ⟨.dva,fun _ => 1,false,false⟩

def fetchLine (first : OcpBurstSlaveSignals 4) : List Cycle :=
  [callCycle,idleCycle .quiet,idleCycle .accept,idleCycle first,idleCycle word,idleCycle .quiet]

instance (g : Geometry) (ispmOneBit : Nat) (s : State) (x : Cycle) : Decidable ((errorFree g ispmOneBit).admits s x) :=
  inferInstanceAs (Decidable (_ ∧ x.slave.resp ≠ .err))

theorem icache_correct_line : (errorFree ⟨1,1⟩ 16).Admits begin (fetchLine word ++ [idleCycle .quiet]) ∧
    ((errorFree ⟨1,1⟩ 16).run begin (fetchLine word ++ [idleCycle .quiet])).cache.hit ⟨1,1⟩ = true ∧
    Correct ⟨1,1⟩ ((errorFree ⟨1,1⟩ 16).run begin (fetchLine word ++ [idleCycle .quiet])) := by
  have admitted : (errorFree ⟨1,1⟩ 16).Admits begin (fetchLine word ++ [idleCycle .quiet]) := by decide +kernel
  have start : (errorFree ⟨1,1⟩ 16).start begin := begin_starts ⟨1,1⟩ 16
  exact ⟨admitted,by decide +kernel,icache_correct _ 16 ⟨by decide,by decide⟩ _ ((Reached.start start).run _ admitted)⟩

-- The line stays valid after an error beat, and what is in the on-chip memory is fetched from it.
theorem error_line_fetched : ¬∀ g ispmOneBit, Large g → ∀ s, Reached (system g ispmOneBit) s → Correct g s := by
  intro correct
  have path := (Reached.start (begin_starts ⟨1,1⟩ 16)).run (fetchLine (.answer .err)) (by decide +kernel)
  have fetched := (correct _ 16 ⟨by decide,by decide⟩ _ path).fetch (by decide +kernel) (by decide +kernel)
  exact absurd fetched.1 (by decide +kernel)
end InstructionCache
end Patmos
