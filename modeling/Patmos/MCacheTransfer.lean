import Patmos.MCacheFifo
namespace Patmos.MethodCache
open Transition MCacheCtrl CircularBuffer BurstMemory Nat

section Signals
variable {g : MethodGeometry} {ispmOneBit : Nat} {s : State} {x : Cycle}

@[simp] theorem system_ctrl : (s.after g ispmOneBit x).cache.ctrl =
    s.cache.ctrl.next g s.cache.repl.hitReg x.ex x.fe x.slave := rfl

@[simp] theorem system_repl : (s.after g ispmOneBit x).cache.repl =
    s.cache.repl.next g ispmOneBit x.ena (x.invalidate || s.cache.ctrl.illMem g) x.ex (s.cache.ctrlrepl g x.fe) s.cache.mem := rfl

@[simp] theorem system_mem : (s.after g ispmOneBit x).cache.mem =
    s.cache.repl.memNext g s.cache.mem (s.cache.ctrlrepl g x.fe) := rfl

@[simp] theorem system_memory : (s.after g ispmOneBit x).memory =
    s.memory.next g.burst (s.cache.ocpM g) x.slave := rfl

@[simp] theorem ctrlrepl_wTag (c : MCache) (fe : FeICache) : (c.ctrlrepl g fe).wTag = c.ctrl.sized g := rfl
end Signals

theorem burst_pos (g : MethodGeometry) : 0 < g.burst := Nat.two_pow_pos g.burstBits

-- A burst of which n words have been consumed. The response to the next one may be in the input register.
inductive Receiving (g : MethodGeometry) (s : State) (start : Nat) : Nat → Prop where
  | requested : s.cache.ctrl.ocpCmdReg = .rd → s.cache.ctrl.ocpAddrReg = start → s.memory.phase = .idle →
      s.cache.ctrl.ocpSlaveReg.resp = .null → Receiving g s start 0
  | reading : n < g.burst → s.cache.ctrl.ocpCmdReg = .idle → s.memory.phase = .read (start*4) n →
      s.cache.ctrl.ocpSlaveReg.resp = .null → Receiving g s start n
  | arrived : n < g.burst → s.cache.ctrl.ocpCmdReg = .idle →
      s.memory.phase = (if n+1 = g.burst then .idle else .read (start*4) (n+1)) → s.cache.ctrl.ocpSlaveReg.resp = .dva →
      s.cache.ctrl.ocpSlaveReg.data = s.memory.ram (start+n) → Receiving g s start n

abbrev State.calledSize (s : State) : Nat := methodSize s.memory.ram s.cache.ctrl.callRetBaseReg

attribute [local simp] MCacheCtrl.next MCache.ocpM MCacheCtrl.ocpM

section Burst
variable {g : MethodGeometry} {ispmOneBit : Nat} {s : State} {x : Cycle}

def consumed (s : State) (n : Nat) : Nat := if s.cache.ctrl.ocpSlaveReg.resp = .dva then n+1 else n

section
variable (sound : s.cache.ctrl.ocpSlaveReg.resp ≠ .err) (none : s.cache.ctrl.request g s.cache.repl.hitReg = none)
include sound none

theorem ocpCmd_next : (s.cache.ctrl.next g s.cache.repl.hitReg x.ex x.fe x.slave).ocpCmdReg =
      if x.slave.cmdAccept then .idle else s.cache.ctrl.ocpCmdReg := by
  simp [sound,none]

theorem ocpM_none : (s.cache.ocpM g).cmd = s.cache.ctrl.ocpCmdReg ∧ (s.cache.ocpM g).addr = s.cache.ctrl.ocpAddrReg*4 := by
  simp [sound,none]
end

theorem beat_step (within : n < g.burst) (phase : s.memory.phase = .read (start*4) n)
    (command : (s.cache.ctrl.next g s.cache.repl.hitReg x.ex x.fe x.slave).ocpCmdReg = .idle)
    (answers : s.memory.Answers (s.cache.ocpM g) x.slave) (sound : x.slave.resp ≠ .err) :
    Receiving g (s.after g ispmOneBit x) start n := by
  have memory := next_beat g.burst (s.cache.ocpM g) x.slave phase
  rw [BurstMemory.State.Answers,phase] at answers
  cases resp : x.slave.resp with
  | null => exact .reading within command (by rw [system_memory,memory,if_pos resp]) resp
  | dva =>
    refine .arrived within command ?_ resp ?_
    · rw [system_memory,memory,resp]
      rfl
    · rw [system_memory,memory,← Nat.mul_div_cancel start (show 0 < 4 by decide)]
      exact answers.2 resp
  | fail => exact absurd resp answers.1
  | err => exact absurd resp sound

section
variable (receiving : Receiving g s start n)
include receiving

theorem Receiving.word (valid : s.cache.ctrl.ocpSlaveReg.resp = .dva) :
    s.cache.ctrl.ocpSlaveReg.data = s.memory.ram (start+n) ∧ (n+1 = g.burst → s.memory.phase = .idle) := by
  cases receiving with
  | requested _ _ _ silent | reading _ _ _ silent => simp [valid] at silent
  | arrived within command phase _ data =>
    refine ⟨data,fun last => ?_⟩
    rw [phase,if_pos last]

theorem Receiving.command (later : 0 < n) : s.cache.ctrl.ocpCmdReg = .idle := by
  cases receiving with
  | requested => exact absurd later (lt_irrefl 0)
  | reading _ command | arrived _ command => exact command

theorem Receiving.within : n < g.burst := by
  cases receiving with
  | requested => exact burst_pos g
  | reading within | arrived within => exact within

theorem receive_step (none : s.cache.ctrl.request g s.cache.repl.hitReg = none)
    (answers : s.memory.Answers (s.cache.ocpM g) x.slave) (sound : x.slave.resp ≠ .err) (more : consumed s n < g.burst) :
    Receiving g (s.after g ispmOneBit x) start (consumed s n) := by
  cases receiving with
  | requested command address phase silent =>
    have steady : s.cache.ctrl.ocpSlaveReg.resp ≠ .err := by simp [silent]
    have issued := ocpM_none steady none
    have memory := next_requested g.burst x.slave phase (issued.1.trans command)
    have next := @ocpCmd_next g s x steady none
    rw [BurstMemory.State.Answers,phase] at answers
    rw [consumed,silent]
    cases accepted : x.slave.cmdAccept with
    | false =>
      rw [accepted,command] at next
      refine .requested next ?_ ?_ answers.1
      · simp [none,address]
      · rw [system_memory,memory,accepted]
        rfl
    | true =>
      rw [accepted] at next
      refine .reading (burst_pos g) next ?_ answers.1
      rw [system_memory,memory,accepted,issued.2,address]
      rfl
  | reading within command phase silent =>
    have steady : s.cache.ctrl.ocpSlaveReg.resp ≠ .err := by simp [silent]
    rw [consumed,silent]
    exact beat_step within phase (by rw [ocpCmd_next steady none,command,ite_self]) answers sound
  | arrived within command phase valid data =>
    have steady : s.cache.ctrl.ocpSlaveReg.resp ≠ .err := by simp [valid]
    rw [consumed,if_pos valid] at more ⊢
    rw [if_neg more.ne] at phase
    exact beat_step more phase (by rw [ocpCmd_next steady none,command,ite_self]) answers sound
end

theorem request_step (phase : s.memory.phase = .idle) (steady : s.cache.ctrl.ocpSlaveReg.resp ≠ .err)
    (request : s.cache.ctrl.request g s.cache.repl.hitReg = some start)
    (answers : s.memory.Answers (s.cache.ocpM g) x.slave) : Receiving g (s.after g ispmOneBit x) start 0 := by
  have command : (s.cache.ocpM g).cmd = .rd := by simp [steady,request]
  have address : (s.cache.ocpM g).addr = start*4 := by simp [request]
  have memory := next_requested g.burst x.slave phase command
  rw [BurstMemory.State.Answers,phase] at answers
  cases accepted : x.slave.cmdAccept with
  | false =>
    refine .requested ?_ ?_ ?_ answers.1
    · simp [steady,accepted,request]
    · simp [request]
    · rw [system_memory,memory,accepted]
      rfl
  | true =>
    refine .reading (burst_pos g) ?_ ?_ answers.1
    · simp [accepted]
    · rw [system_memory,memory,accepted,address]
      rfl
end Burst

section Control
variable {g : MethodGeometry} {c : MCacheCtrl} {hit : Bool}

theorem idle_signals (g : MethodGeometry) (state : c.stateReg = .idle) :
    c.sized g = false ∧ c.arrives = false ∧ c.illMem g = false := by
  simp [sized,arrives,fetching,illMem,state]

theorem size_signals (g : MethodGeometry) (state : c.stateReg = .size) : c.arrives = false ∧ c.illMem g = false := by
  simp [arrives,fetching,illMem,state]

theorem transfer_signals (g : MethodGeometry) (state : c.stateReg = .transfer) : c.sized g = false ∧ c.illMem g = false := by
  simp [sized,illMem,state]

theorem sized_cases (hit : Bool) (tagged : c.sized g = true) (count : c.burstCntReg = n) (within : n < g.burst) :
    n+1 = g.burst ∧ c.request g hit = some c.callRetBaseReg ∨ n+1 < g.burst ∧ c.request g hit = none := by
  have state := (of_decide_eq_true tagged).1
  by_cases last : n = g.burst-1
  · exact .inl ⟨by omega,by simp [request,state,tagged,lastBeat,count,last]⟩
  · exact .inr ⟨by omega,by simp [request,state,lastBeat,count,last]⟩

theorem word_cases (hit : Bool) (state : c.stateReg = .transfer) (limit : c.transferSizeReg = length-1) (left : c.fetchCntReg < length)
    (data : c.ocpSlaveReg.resp = .dva) (count : c.burstCntReg = n) (within : n < g.burst) : c.arrives = true ∧
    (n+1 = g.burst ∧ c.fetchCntReg+1 < length ∧ c.finishes g = false ∧ c.request g hit = some (c.callRetBaseReg+c.fetchCntReg+1) ∨
      n+1 = g.burst ∧ c.fetchCntReg+1 = length ∧ c.finishes g = true ∧ c.request g hit = none ∨
      n+1 < g.burst ∧ c.finishes g = false ∧ c.request g hit = none) := by
  have untagged := (transfer_signals g state).1
  have arriving : c.arrives = true := by
    simp only [arrives,fetching,decide_eq_true_eq,state,data,true_and,and_true]
    omega
  refine ⟨arriving,?_⟩
  by_cases last : n = g.burst-1
  · have beat : c.lastBeat g = true := by simp [lastBeat,count,last]
    by_cases more : c.fetchCntReg+1 < length
    · have limited : c.fetchCntReg < c.transferSizeReg := by omega
      refine .inl ⟨by omega,more,?_,by simp [request,state,untagged,arriving,limited,beat]⟩
      simp only [finishes,decide_eq_false_iff_not]
      omega
    · have same : c.fetchCntReg = c.transferSizeReg := by omega
      exact .inr (.inl ⟨by omega,by omega,by simp [finishes,state,beat,arriving,same],by simp [request,state,untagged,same]⟩)
  · have beat : c.lastBeat g = false := by simp [lastBeat,count,last]
    exact .inr (.inr ⟨by omega,by simp [finishes,beat],by simp [request,state,beat]⟩)

theorem pause_cases (hit : Bool) (state : c.stateReg = .transfer) (limit : c.transferSizeReg = length-1) (some : 1 ≤ length)
    (upTo : c.fetchCntReg ≤ length) (pauses : c.fetchCntReg < length → c.ocpSlaveReg.resp ≠ .dva) (count : c.burstCntReg = n)
    (within : n < g.burst) : c.arrives = false ∧ c.request g hit = none ∧
    (c.fetchCntReg < length ∧ c.finishes g = false ∨ c.fetchCntReg = length ∧ n+1 = g.burst ∧ c.finishes g = true ∨
      c.fetchCntReg = length ∧ n+1 < g.burst ∧ c.finishes g = false) := by
  have quiet : c.arrives = false := by
    simp only [arrives,fetching,decide_eq_false_iff_not,decide_eq_true_eq]
    rintro ⟨left,data⟩
    exact pauses (by omega) data
  refine ⟨quiet,by simp [request,state,(transfer_signals g state).1,quiet],?_⟩
  by_cases left : c.fetchCntReg < length
  · have early : ¬c.transferSizeReg < c.fetchCntReg := by omega
    exact .inl ⟨left,by simp [finishes,quiet,early]⟩
  · have passed : c.transferSizeReg < c.fetchCntReg := by omega
    by_cases last : n = g.burst-1
    · exact .inr (.inl ⟨by omega,by omega,by simp [finishes,lastBeat,count,last,state,passed]⟩)
    · exact .inr (.inr ⟨by omega,by omega,by simp [finishes,lastBeat,count,last]⟩)
end Control

-- The cache only reads main memory.
structure ReadOnly (s : State) : Prop where
  sound : s.cache.ctrl.ocpSlaveReg.resp ≠ .err
  command : s.cache.ctrl.ocpCmdReg ≠ .wr
  phase : s.memory.phase = .idle ∨ ∃ addr beat, s.memory.phase = .read addr beat

section Main
variable {g : MethodGeometry} {ispmOneBit : Nat} {s : State} {x : Cycle}

section
variable (only : ReadOnly s)
include only

theorem readOnly_command (g : MethodGeometry) : (s.cache.ocpM g).cmd ≠ .wr := by
  have command := only.command
  cases request : s.cache.ctrl.request g s.cache.repl.hitReg <;>
    simp [only.sound,request,command]

theorem ram_step : (s.after g ispmOneBit x).memory.ram = s.memory.ram := by
  have command := readOnly_command only g
  rw [system_memory,ram_next]
  rcases only.phase with idle | ⟨addr,beat,reading⟩
  · simp [BurstMemory.State.taken,idle,command,BurstMemory.Beat.write,-MCache.ocpM]
  · simp [BurstMemory.State.taken,reading,BurstMemory.Beat.write]

theorem readOnly_step (sound : x.slave.resp ≠ .err) : ReadOnly (s.after g ispmOneBit x) := by
  have command := only.command
  refine ⟨sound,?_,?_⟩
  · simp only [system_ctrl,MCacheCtrl.next,only.sound,if_false]
    split
    · decide
    · split
      · decide
      · exact command
  · have issued := readOnly_command only g
    rcases only.phase with idle | ⟨addr,beat,reading⟩
    · cases kind : (s.cache.ocpM g).cmd with
      | idle => exact .inl (by rw [system_memory,next_unused _ _ idle kind,idle])
      | rd =>
        rw [system_memory,next_requested _ _ idle kind]
        cases x.slave.cmdAccept with
        | false => exact .inl rfl
        | true => exact .inr ⟨_,_,rfl⟩
      | wr => exact absurd kind issued
    · rw [system_memory,next_beat _ _ _ reading]
      split
      · exact .inr ⟨_,_,rfl⟩
      · split
        · exact .inl rfl
        · exact .inr ⟨_,_,rfl⟩

theorem counts_early (state : s.cache.ctrl.stateReg = .size) (untagged : s.cache.ctrl.sized g = false)
    (count : s.cache.ctrl.burstCntReg = n) (before : n ≤ s.cache.ctrl.msizeAddr % g.burst) :
    consumed s n ≤ s.cache.ctrl.msizeAddr % g.burst ∧
      (s.after g ispmOneBit x).cache.ctrl.stateReg = .size := by
  refine ⟨?_,by simp [(size_signals g state).2,only.sound,stateNext,state,untagged]⟩
  rw [consumed]
  split
  next data =>
    have other : n ≠ s.cache.ctrl.msizeAddr % g.burst := by
      intro same
      simp [sized,state,data,count,same] at untagged
    omega
  next => exact before

theorem transfer_next (state : s.cache.ctrl.stateReg = .transfer) :
    (s.after g ispmOneBit x).cache.repl.wrPosReg = s.cache.repl.wrPosReg ∧
    (s.after g ispmOneBit x).cache.ctrl.transferSizeReg = s.cache.ctrl.transferSizeReg ∧
    (s.after g ispmOneBit x).cache.ctrl.stateReg = if s.cache.ctrl.finishes g then .idle else .transfer := by
  obtain ⟨untagged,healthy⟩ := transfer_signals g state
  exact ⟨by simp [MCacheReplFifo.next,untagged],by simp [untagged],
    by simp [healthy,only.sound,stateNext,state]⟩
end

theorem counts_word (state : s.cache.ctrl.stateReg = .transfer) (arriving : s.cache.ctrl.arrives = true)
    (more : s.cache.ctrl.fetchCntReg+1 < g.words) :
    (s.after g ispmOneBit x).cache.ctrl.fetchCntReg = s.cache.ctrl.fetchCntReg+1 := by
  simp only [system_ctrl,MCacheCtrl.next,(transfer_signals g state).1,arriving]
  exact mod_eq_of_lt more

theorem counts_pause (state : s.cache.ctrl.stateReg = .transfer) (quiet : s.cache.ctrl.arrives = false) :
    (s.after g ispmOneBit x).cache.ctrl.fetchCntReg = s.cache.ctrl.fetchCntReg := by
  simp [(transfer_signals g state).1,quiet]

theorem content_still (quiet : s.cache.ctrl.arrives = false) :
    (s.after g ispmOneBit x).cache.mem.content = s.cache.mem.content := by
  funext cell
  simp [MCacheReplFifo.memNext,Banked.content,MemBlock.mem_next,MCache.ctrlrepl,MCacheCtrl.ctrlrepl,quiet]

theorem memNext_banked (r : MCacheReplFifo) (mem : Banked (Word 4)) (ctrl : MCacheCtrlRepl) (wide : 0 < g.sizeBits)
    (even : r.wrPosReg % 2 = 0) : r.memNext g mem ctrl = mem.next (ctrl.addrEven % 2^g.sizeBits/2) (ctrl.addrOdd % 2^g.sizeBits/2)
      ctrl.wEna ((r.wrPosReg+ctrl.wAddr) % g.words) ctrl.wData := by
  have half : 2 ∣ g.words := pow_dvd_pow 2 wide
  have parity : (r.wrPosReg+ctrl.wAddr) % g.words % 2 = ctrl.wAddr % 2 := by
    rw [mod_mod_of_dvd _ half]
    omega
  rw [MCacheReplFifo.memNext,Banked.next,parity]
  rcases mod_two_eq_zero_or_one ctrl.wAddr with low | low <;> simp [low,MethodGeometry.words]

theorem content_written (wide : 0 < g.sizeBits) (place : s.cache.repl.wrPosReg = start % g.words) (even : start % 2 = 0)
    (arrives : s.cache.ctrl.arrives = true) : (s.after g ispmOneBit x).cache.mem.content =
      Function.update s.cache.mem.content ((start+s.cache.ctrl.fetchCntReg) % g.words) s.cache.ctrl.ocpSlaveReg.data := by
  have half : 2 ∣ g.words := pow_dvd_pow 2 wide
  have fetching : s.cache.ctrl.fetching = true := (of_decide_eq_true arrives).1
  have other := (transfer_signals g (of_decide_eq_true fetching).1).1
  rw [system_mem,memNext_banked _ _ _ wide (by rw [place,mod_mod_of_dvd _ half,even])]
  funext cell
  rw [Banked.content_next,Function.update_apply]
  simp [MCache.ctrlrepl,MCacheCtrl.ctrlrepl,arrives,fetching,other,place]

-- The words of a method from its first one on.
def Stored (g : MethodGeometry) (s : State) (m : Method) (count : Nat) : Prop :=
  Holds g.words s.cache.mem.content (fun position word => word = s.memory.ram (m.base+(position-m.start))) m.start (m.start+count)

-- Methods up to `whole` are complete, except where they are being overwritten.
structure Resident (g : MethodGeometry) (s : State) (first last : Nat) (entry : Nat → Method) (whole : Nat) : Prop where
  fifo : Fifo g s.memory.ram s.cache.repl first last entry
  words : ∀ n, first ≤ n → n < whole → s.cache.repl.validVec (n % g.methods) = true →
    (entry last).start ≤ (entry n).start+g.words → Stored g s (entry n) (methodSize s.memory.ram (entry n).base)

def firstAfter (s : State) (first : Nat) : Nat := if s.cache.repl.frees then first+1 else first

theorem firstAfter_le (s : State) (first : Nat) : first ≤ firstAfter s first := by
  rw [firstAfter]
  split <;> omega

theorem fifo_step (only : ReadOnly s) (several : 0 < g.methods) (fifo : Fifo g s.memory.ram s.cache.repl first last entry)
    (untagged : s.cache.ctrl.sized g = false) : Fifo g (s.after g ispmOneBit x).memory.ram
      (s.after g ispmOneBit x).cache.repl (firstAfter s first) last entry := by
  rw [ram_step only,firstAfter]
  cases frees : s.cache.repl.frees with
  | true => exact fifo.evict (labels_matches g _) several frees untagged
  | false => exact fifo.keep (labels_matches g _) frees untagged

theorem resident_still (only : ReadOnly s) (several : 0 < g.methods) (resident : Resident g s first last entry whole)
    (untagged : s.cache.ctrl.sized g = false) (quiet : s.cache.ctrl.arrives = false) :
    Resident g (s.after g ispmOneBit x) (firstAfter s first) last entry whole := by
  refine ⟨fifo_step only several resident.fifo untagged,?_⟩
  intro n above below valid near
  have before := valid_before valid (.inl untagged)
  have stored := resident.words n (le_trans (firstAfter_le s first) above) below before near
  rw [Stored,content_still quiet,ram_step only]
  exact stored

theorem size_even (size : Nat) : size ≤ evenSize size ∧ evenSize size % 2 = 0 := by
  unfold evenSize
  omega

section
variable (only : ReadOnly s) (wide : 0 < g.sizeBits) (resident : Resident g s first (last+1) entry last)
  (arrives : s.cache.ctrl.arrives = true) (place : s.cache.repl.wrPosReg = (entry last).start % g.words)
  (even : (entry last).start % 2 = 0) (within : s.cache.ctrl.fetchCntReg < (entry last).length)
include only wide resident arrives place even within

-- A word of the newest method is written. It lies behind the other methods and overwrites only those that are being
-- evicted.
theorem stored_other (above : first ≤ n) (below : n < last)
    (valid : s.cache.repl.validVec (n % g.methods) = true) (near : (entry (last+1)).start ≤ (entry n).start+g.words) :
    Stored g (s.after g ispmOneBit x) (entry n) (methodSize s.memory.ram (entry n).base) := by
  have stored := resident.words n above below valid near
  have fifo := resident.fifo
  have length := (fifo.held n above (lt_succ_of_lt below)).length valid
  have size := (size_even (methodSize s.memory.ram (entry n).base)).1
  have chained := fifo.chain n above (lt_succ_of_lt below)
  have newest := fifo.chain last (le_of_lt_succ fifo.some) (lt_succ_self _)
  have behind : (entry (n+1)).start ≤ (entry last).start :=
    fifo.start_mono (le_succ_of_le above) below (le_succ last)
  rw [Stored,content_written wide place even arrives,ram_step only]
  refine stored.write (by omega) (by omega) (by omega) (fun _ _ _ _ _ same => same) ?_
  intro inside
  omega

theorem resident_written (several : 0 < g.methods) :
    Resident g (s.after g ispmOneBit x) (firstAfter s first) (last+1) entry last := by
  have untagged := (transfer_signals g (of_decide_eq_true (of_decide_eq_true arrives).1).1).1
  refine ⟨fifo_step only several resident.fifo untagged,?_⟩
  intro n above below valid near
  rw [ram_step only]
  exact stored_other only wide resident arrives place even within (le_trans (firstAfter_le s first) above) below
    (valid_before valid (.inl untagged)) near
end

theorem stored_newest (only : ReadOnly s) (wide : 0 < g.sizeBits) (stored : Stored g s m done)
    (arrives : s.cache.ctrl.arrives = true) (place : s.cache.repl.wrPosReg = m.start % g.words) (even : m.start % 2 = 0)
    (counted : s.cache.ctrl.fetchCntReg = done) (short : done < g.words)
    (data : s.cache.ctrl.ocpSlaveReg.data = s.memory.ram (m.base+done)) :
    Stored g (s.after g ispmOneBit x) m (done+1) := by
  rw [Stored,content_written wide place even arrives,ram_step only,counted]
  refine stored.push (le_add_right _ _) (by omega) _ ?_
  rw [data,Nat.add_sub_cancel_left]

theorem resident_tagged (only : ReadOnly s) (several : 0 < g.methods) (resident : Resident g s first last entry last)
    (frees : s.cache.repl.frees = false) (tagged : s.cache.ctrl.sized g = true)
    (size : s.cache.ctrl.size g = s.calledSize)
    (short : evenSize s.calledSize < g.words)
    (fresh : ∀ n, first ≤ n → n < last → s.cache.repl.validVec (n % g.methods) = true →
      (entry n).base ≠ s.cache.ctrl.callRetBaseReg) :
    Resident g (s.after g ispmOneBit x) (firstNext g first last) (last+1)
      (placed entry last s.cache.ctrl.callRetBaseReg (evenSize s.calledSize)) last := by
  have addr : (s.cache.ctrlrepl g x.fe).wAddr = s.cache.ctrl.callRetBaseReg := if_pos tagged
  have wider : 2^(g.sizeBits+1) = g.words*2 := pow_succ ..
  have length : (s.cache.ctrlrepl g x.fe).wSize = evenSize s.calledSize := by
    refine (if_pos tagged).trans ?_
    rw [size]
    exact mod_eq_of_lt (by change evenSize _ < _; omega)
  have quiet := (size_signals g (of_decide_eq_true tagged).1).1
  have fifo : Fifo g s.memory.ram (s.after g ispmOneBit x).cache.repl _ _ _ :=
    resident.fifo.insert (labels_matches g _) several frees tagged (by rwa [length]) (by rw [length]; exact (size_even _).2)
      ⟨rfl,fun _ => rfl,fun _ => resident.fifo.pos,fun _ => by rw [length,addr]⟩ (by rwa [addr])
  rw [length,addr] at fifo
  have later : first ≤ firstNext g first last := by
    rw [firstNext]
    split <;> omega
  have within : ∀ n, firstNext g first last ≤ n → n < last → n % g.methods ≠ s.cache.repl.nextIndexReg := by
    intro n above below
    rw [resident.fifo.index]
    have room := fifo.room
    exact position_ne below (by omega)
  refine ⟨by rwa [ram_step only],?_⟩
  intro n above below valid near
  rw [placed_next,placed_old _ _ _ below] at near
  have stored := resident.words n (later.trans above) below (valid_before valid (.inr (within n above below)))
    (le_trans (le_add_right _ _) near)
  rw [placed_old _ _ _ below,Stored,content_still quiet,ram_step only]
  exact stored
end Main
end Patmos.MethodCache
