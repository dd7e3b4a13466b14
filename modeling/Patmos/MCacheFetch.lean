import Patmos.MCacheCoherence
namespace Patmos.MethodCache
open Transition MCacheCtrl Nat

-- A write to the on-chip memory: the index in the method, and the bank and the row in it.
structure Write where
  index : Nat
  odd : Bool
  row : Nat
  data : Word 4

section
variable (g : MethodGeometry) (s : State) (x : Cycle)

def writes : List Write :=
  let ctrl := s.cache.ctrlrepl g x.fe
  if ctrl.wEna then
    [⟨ctrl.wAddr,ctrl.wAddr % 2 == 1,(s.cache.repl.wrPosReg+ctrl.wAddr) % g.words/2,ctrl.wData⟩]
  else []

-- A command is taken by the memory, a response is consumed by the control unit.
inductive BusEvent where
  | response
  | command (addr : Nat)

def busEvents : List BusEvent :=
  (if s.cache.ctrl.stateReg ≠ .idle ∧ s.cache.ctrl.ocpSlaveReg.resp = .dva then [.response] else []) ++
    if (s.cache.ocpM g).cmd = .rd ∧ x.slave.cmdAccept then [.command (s.cache.ocpM g).addr] else []

def watch (log : List Write × List BusEvent) : List Write × List BusEvent := (log.1 ++ writes g s x,log.2 ++ busEvents g s x)

-- The responses that are outstanding, for commands that are aligned to bursts and wait for the responses of the one
-- before.
def outstanding (burst : Nat) : Option Nat → BusEvent → Option Nat
  | some 0,.command addr => if addr % (burst*4) = 0 then some burst else none
  | some (n+1),.response => some n
  | _,_ => none

-- The memory leaves a command or a beat for a later cycle.
def Delays : Prop :=
  (s.memory.phase = .idle ∧ (s.cache.ocpM g).cmd = .rd ∧ x.slave.cmdAccept = false) ∨
  (∃ addr beat, s.memory.phase = .read addr beat) ∧ x.slave.resp = .null

structure Misses : Prop where
  state : s.cache.ctrl.stateReg = .idle
  hit : s.cache.repl.hitReg = false
  command : s.cache.ctrl.ocpCmdReg = .idle
  sound : s.cache.ctrl.ocpSlaveReg.resp ≠ .err
  phase : s.memory.phase = .idle
  based : 0 < s.cache.ctrl.callRetBaseReg
  some : 1 ≤ methodSize s.memory.ram s.cache.ctrl.callRetBaseReg
  fits : methodSize s.memory.ram s.cache.ctrl.callRetBaseReg ≤ g.words
end

structure Job where
  ram : Nat → Word 4
  base : Nat
  pos : Nat

namespace Job
variable (g : MethodGeometry) (j : Job)

def size : Nat := methodSize j.ram j.base

def write (k : Nat) : Write := ⟨k,k % 2 == 1,(j.pos+k) % g.words/2,j.ram (j.base+k)⟩
def written (count : Nat) : List Write := (List.range count).map (j.write g)
end Job

-- A method that fills the cache ends with a burst.
structure Job.Fits (g : MethodGeometry) (j : Job) : Prop where
  based : 0 < j.base
  some : 1 ≤ j.size
  fits : j.size ≤ g.words
  whole : j.size < g.words ∨ (j.base+j.size) % g.burst = 0

def job (s : State) : Job := ⟨s.memory.ram,s.cache.ctrl.callRetBaseReg,s.cache.repl.posReg⟩

section Burst
variable {g : MethodGeometry} {ispmOneBit : Nat} {s : State} {x : Cycle}

def left (g : MethodGeometry) (s : State) (n : Nat) : Nat := if s.cache.ctrl.ocpCmdReg = .rd then 0 else g.burst-n

def distance (s : State) : Nat :=
  if s.cache.ctrl.ocpCmdReg = .rd then 2 else if s.cache.ctrl.ocpSlaveReg.resp = .dva then 0 else 1

structure Moves (g : MethodGeometry) (ispmOneBit : Nat) (s : State) (x : Cycle) (start n start' n' : Nat) : Prop where
  receiving : Receiving g (s.after g ispmOneBit x) start' n'
  bus : (busEvents g s x).foldl (outstanding g.burst) (some (left g s n)) = some (left g (s.after g ispmOneBit x) n')
  nearer : start'+n' = start+n+1 ∨ start'+n' = start+n ∧
    (distance (s.after g ispmOneBit x) < distance s ∨ distance (s.after g ispmOneBit x) = distance s ∧ Delays g s x)

theorem left_idle (command : s.cache.ctrl.ocpCmdReg = .idle) : left g s n = g.burst-n := if_neg (by rw [command]; decide)

theorem slave_next : (s.after g ispmOneBit x).cache.ctrl.ocpSlaveReg = x.slave := rfl

theorem busEvents_none (busy : s.cache.ctrl.stateReg ≠ .idle) (sound : s.cache.ctrl.ocpSlaveReg.resp ≠ .err)
    (none : s.cache.ctrl.request g s.cache.repl.hitReg = none) :
    busEvents g s x = (if s.cache.ctrl.ocpSlaveReg.resp = .dva then [.response] else []) ++
      if s.cache.ctrl.ocpCmdReg = .rd ∧ x.slave.cmdAccept then [.command (s.cache.ctrl.ocpAddrReg*4)] else [] := by
  obtain ⟨command,address⟩ := ocpM_none sound none
  rw [busEvents,command,address]
  simp only [ne_eq,busy,not_false_eq_true,true_and]

theorem aligned_bytes (aligned : start % g.burst = 0) : start*4 % (g.burst*4) = 0 := by
  rw [mul_mod_mul_right,aligned]

theorem outstanding_consumed (within : n < g.burst) :
    outstanding g.burst (some (g.burst-n)) .response = some (g.burst-(n+1)) := by
  obtain ⟨rest,equal⟩ : ∃ rest, g.burst-n = rest+1 := ⟨g.burst-n-1,by omega⟩
  rw [equal,show g.burst-(n+1) = rest by omega]
  rfl

theorem outstanding_command (aligned : start % g.burst = 0) :
    outstanding g.burst (some 0) (.command (start*4)) = some g.burst := if_pos (aligned_bytes aligned)

theorem distance_idle (command : s.cache.ctrl.ocpCmdReg = .idle) :
    distance s = if s.cache.ctrl.ocpSlaveReg.resp = .dva then 0 else 1 := if_neg (by rw [command]; decide)

section
variable (busy : s.cache.ctrl.stateReg ≠ .idle) (receiving : Receiving g s start n) (aligned : start % g.burst = 0)
include busy receiving aligned

theorem receive_moves (none : s.cache.ctrl.request g s.cache.repl.hitReg = none)
    (answers : s.memory.Answers (s.cache.ocpM g) x.slave) (sound : x.slave.resp ≠ .err) (more : consumed s n < g.burst) :
    Moves g ispmOneBit s x start n start (consumed s n) := by
  have later := @receive_step _ _ g ispmOneBit s x receiving none answers sound more
  have steady : s.cache.ctrl.ocpSlaveReg.resp ≠ .err := by
    cases receiving with
    | requested _ _ _ silent | reading _ _ _ silent => simp [silent]
    | arrived _ _ _ valid _ => simp [valid]
  have events := @busEvents_none g s x busy steady none
  have command' := @ocpCmd_next g s x steady none
  cases receiving with
  | requested command address phase silent =>
    have same : consumed s 0 = 0 := if_neg (by simp [silent])
    rw [same] at later ⊢
    refine ⟨later,?_,.inr ⟨rfl,?_⟩⟩
    · cases accepted : x.slave.cmdAccept with
      | false =>
        simp [events,left,silent,accepted,command']
      | true =>
        simp only [events,left,silent,command,accepted,command',address,system_ctrl]
        exact outstanding_command aligned
    · have before : distance s = 2 := if_pos command
      cases accepted : x.slave.cmdAccept with
      | false =>
        rw [accepted,command] at command'
        exact .inr ⟨(if_pos command').trans before.symm,.inl ⟨phase,(ocpM_none steady none).1.trans command,accepted⟩⟩
      | true =>
        rw [accepted] at command'
        refine .inl ?_
        rw [before,distance_idle command']
        split <;> decide
  | reading within command phase silent =>
    have same : consumed s n = n := if_neg (by simp [silent])
    rw [command,ite_self] at command'
    rw [same] at later ⊢
    refine ⟨later,by simp [events,left,silent,command,command'],.inr ⟨rfl,?_⟩⟩
    have before : distance s = 1 := by simp [distance,command,silent]
    rw [BurstMemory.State.Answers,phase] at answers
    cases resp : x.slave.resp with
    | null =>
      refine .inr ⟨?_,.inr ⟨⟨_,_,phase⟩,resp⟩⟩
      rw [before,distance_idle command',slave_next,resp]
      rfl
    | dva =>
      refine .inl ?_
      rw [before,distance_idle command',slave_next,if_pos resp]
      decide
    | fail => exact absurd resp answers.1
    | err => exact absurd resp sound
  | arrived within command phase valid data =>
    have counted : consumed s n = n+1 := if_pos valid
    rw [command,ite_self] at command'
    rw [counted] at later ⊢
    refine ⟨later,?_,.inl rfl⟩
    simp only [events,left,valid,command,command',system_ctrl]
    exact outstanding_consumed within

theorem request_moves (valid : s.cache.ctrl.ocpSlaveReg.resp = .dva) (last : n+1 = g.burst) (follows : start' = start+g.burst)
    (request : s.cache.ctrl.request g s.cache.repl.hitReg = some start')
    (answers : s.memory.Answers (s.cache.ocpM g) x.slave) :
    Moves g ispmOneBit s x start n start' 0 := by
  have steady : s.cache.ctrl.ocpSlaveReg.resp ≠ .err := by simp [valid]
  have command : (s.cache.ocpM g).cmd = .rd := by simp [MCache.ocpM,ocpM,steady,request]
  have address : (s.cache.ocpM g).addr = start'*4 := by simp [MCache.ocpM,ocpM,request]
  have phase := (receiving.word valid).2 last
  have before : left g s n = 1 := by
    cases receiving with
    | requested _ _ _ silent | reading _ _ _ silent => simp [valid] at silent
    | arrived _ command =>
      simp only [left,command,reduceCtorEq,if_false]
      omega
  refine ⟨request_step phase steady request answers,?_,.inl (by omega)⟩
  have events : busEvents g s x = .response :: if x.slave.cmdAccept then [.command (start'*4)] else [] := by
    rw [busEvents,command,address]
    simp [busy,valid]
  rw [events,before]
  cases accepted : x.slave.cmdAccept with
  | false =>
    have command' : (s.after g ispmOneBit x).cache.ctrl.ocpCmdReg = .rd := by
      simp [next,steady,accepted,request]
    rw [left,if_pos command']
    rfl
  | true =>
    have command' : (s.after g ispmOneBit x).cache.ctrl.ocpCmdReg = .idle := by simp [next,accepted]
    have next : start' % g.burst = 0 := by rw [follows,add_mod_right,aligned]
    rw [left,command']
    exact outstanding_command next
end
end Burst

-- The stage of a miss: the words consumed so far are those before the size, or the first words of the method have been
-- written.
inductive Fetches (g : MethodGeometry) (j : Job) (s : State) (log : List Write) (start n : Nat) : Prop where
  | sizing : s.cache.ctrl.stateReg = .size → s.cache.repl.posReg = j.pos → log = [] → start = g.burstStart (j.base-1) →
      n ≤ (j.base-1) % g.burst → Fetches g j s log start n
  | moving : s.cache.ctrl.stateReg = .transfer → s.cache.repl.wrPosReg = j.pos → s.cache.ctrl.transferSizeReg = j.size-1 →
      s.cache.ctrl.fetchCntReg ≤ j.size → s.cache.ctrl.fetchCntReg < g.words → log = j.written g s.cache.ctrl.fetchCntReg →
      (if s.cache.ctrl.fetchCntReg < j.size then j.base+s.cache.ctrl.fetchCntReg = start+n else 0 < n) → Fetches g j s log start n

section
variable (g : MethodGeometry) (ispmOneBit : Nat) (j : Job) (s : State) (x : Cycle) (log : List Write × List BusEvent)

structure Running (start n : Nat) : Prop where
  only : ReadOnly s
  ram : s.memory.ram = j.ram
  base : s.cache.ctrl.callRetBaseReg = j.base
  aligned : start % g.burst = 0
  early : start < j.base+j.size
  receiving : Receiving g s start n
  count : s.cache.ctrl.burstCntReg = n
  stage : Fetches g j s log.1 start n
  bus : log.2.foldl (outstanding g.burst) (some 0) = some (left g s n)

-- The method is in the cache. The last response may still be outstanding.
structure Fetched : Prop where
  state : s.cache.ctrl.stateReg = .idle
  written : log.1 = j.written g j.size
  bus : ∃ n ≤ 1, log.2.foldl (outstanding g.burst) (some 0) = some n

def rank (start n : Nat) : Nat := 3*(j.base+j.size+g.burst-(start+n))+distance s

def Steps (start n : Nat) : Prop :=
  Fetched g j (s.after g ispmOneBit x) (watch g s x log) ∨
  ∃ start' n', Running g j (s.after g ispmOneBit x) (watch g s x log) start' n' ∧
    (rank g j (s.after g ispmOneBit x) start' n' < rank g j s start n ∨
      rank g j (s.after g ispmOneBit x) start' n' = rank g j s start n ∧ Delays g s x)
end

section Run
variable {g : MethodGeometry} {ispmOneBit : Nat} {j : Job} {s : State} {x : Cycle} {log : List Write × List BusEvent} {start n : Nat}

theorem distance_le (s : State) : distance s ≤ 2 := by
  unfold distance
  split
  · decide
  · split <;> decide

theorem Running.continues (running : Running g j s log start n) (silent : x.ex.doCallRet = false) (sound : x.slave.resp ≠ .err)
    (moves : Moves g ispmOneBit s x start n start' n') (aligned : start' % g.burst = 0) (early : start' < j.base+j.size)
    (count : (s.after g ispmOneBit x).cache.ctrl.burstCntReg = n')
    (stage : Fetches g j (s.after g ispmOneBit x) (log.1 ++ writes g s x) start' n') :
    Steps g ispmOneBit j s x log start n := by
  refine .inr ⟨start',n',⟨readOnly_step running.only sound,?_,?_,aligned,early,moves.receiving,count,stage,?_⟩,?_⟩
  · rw [ram_step running.only,running.ram]
  · rw [← running.base]
    simp [next,silent]
  · rw [watch,List.foldl_append,running.bus]
    exact moves.bus
  · have within := running.receiving.within
    have bound := running.early
    have near := distance_le (s.after g ispmOneBit x)
    unfold rank
    rcases moves.nearer with next | ⟨same,nearer | ⟨still,delays⟩⟩
    · exact .inl (by omega)
    · exact .inl (by omega)
    · exact .inr ⟨by omega,delays⟩

theorem writes_none (quiet : s.cache.ctrl.arrives = false) : writes g s x = [] :=
  if_neg (by simp [MCache.ctrlrepl,ctrlrepl,quiet])

theorem writes_word (arriving : s.cache.ctrl.arrives = true) : writes g s x =
    [⟨s.cache.ctrl.fetchCntReg,s.cache.ctrl.fetchCntReg % 2 == 1,
      (s.cache.repl.wrPosReg+s.cache.ctrl.fetchCntReg) % g.words/2,s.cache.ctrl.ocpSlaveReg.data⟩] := by
  have fetching : s.cache.ctrl.fetching = true := (of_decide_eq_true arriving).1
  have untagged := (transfer_signals g (of_decide_eq_true fetching).1).1
  simp [writes,MCache.ctrlrepl,ctrlrepl,arriving,fetching,untagged]

theorem Job.written_succ (g : MethodGeometry) (j : Job) (k : Nat) : j.written g (k+1) = j.written g k ++ [j.write g k] := by
  simp [Job.written,List.range_succ]

theorem Running.bus_ends (running : Running g j s log start n) (busy : s.cache.ctrl.stateReg ≠ .idle)
    (none : s.cache.ctrl.request g s.cache.repl.hitReg = none) (data : s.cache.ctrl.ocpSlaveReg.resp = .dva)
    (last : n+1 = g.burst) : (log.2 ++ busEvents g s x).foldl (outstanding g.burst) (some 0) = some 0 := by
  have command : s.cache.ctrl.ocpCmdReg = .idle := by
    cases running.receiving with
    | requested _ _ _ silent => simp [data] at silent
    | reading _ command | arrived _ command => exact command
  rw [List.foldl_append,running.bus,busEvents_none busy running.only.sound none,data,command,left_idle command,← last,
    Nat.add_sub_cancel_left]
  rfl

section Sizing
variable (running : Running g j s log start n) (admitted : (system g ispmOneBit).admits s x)
  (state : s.cache.ctrl.stateReg = .size) (place : s.cache.repl.posReg = j.pos) (nothing : log.1 = [])
  (first : start = g.burstStart (j.base-1)) (before : n ≤ (j.base-1) % g.burst)
include running admitted state place nothing first before

theorem Running.waits (untagged : s.cache.ctrl.sized g = false) : Steps g ispmOneBit j s x log start n := by
  obtain ⟨issues,answers,sound⟩ := admitted
  have silent := issues_quiet issues (.inl (by rw [state]; decide))
  have quiet := (size_signals g state).1
  have none : s.cache.ctrl.request g s.cache.repl.hitReg = none := by simp [request,state,untagged,quiet]
  have msize : s.cache.ctrl.msizeAddr = j.base-1 := congrArg (· - 1) running.base
  rw [← msize] at before
  obtain ⟨early,state'⟩ := @counts_early g ispmOneBit s x running.only _ state untagged running.count before
  rw [msize] at early
  have more := early.trans_lt (mod_lt _ (burst_pos g))
  have moves := @receive_moves _ _ g ispmOneBit s x (by rw [state]; decide) running.receiving running.aligned none answers sound more
  refine running.continues silent sound moves running.aligned running.early
    (burstCnt_next running.only (.inl state) none running.count more) (.sizing state' ?_ ?_ first early)
  · rw [← place]
    simp [MCacheReplFifo.next,silent]
  · rw [writes_none quiet,nothing,List.append_nil]

omit before in
theorem Running.tags (fits : j.Fits g) (tagged : s.cache.ctrl.sized g = true) : Steps g ispmOneBit j s x log start n := by
  obtain ⟨issues,answers,sound⟩ := admitted
  obtain ⟨based,some,room,-⟩ := fits
  have silent := issues_quiet issues (.inl (by rw [state]; decide))
  obtain ⟨quiet,healthy⟩ := size_signals g state
  have writesTag : (s.cache.ctrlrepl g x.fe).wTag = true := tagged
  have state' : (s.after g ispmOneBit x).cache.ctrl.stateReg = .transfer := by
    simp [next,healthy,running.only.sound,stateNext,state,tagged]
  have arrived : s.cache.ctrl.ocpSlaveReg.resp = .dva := (of_decide_eq_true tagged).2.1
  have wider : 2^(g.sizeBits+1) = g.words*2 := pow_succ ..
  have msize : s.cache.ctrl.msizeAddr = j.base-1 := congrArg (· - 1) running.base
  have method : s.calledSize = j.size := by rw [State.calledSize,running.ram,running.base]; rfl
  obtain ⟨address,size⟩ := sized_word (by rw [msize,← first]; exact running.receiving) tagged running.count (by rw [method]; omega)
  rw [msize,running.base] at address
  rw [method] at size
  have count : (s.after g ispmOneBit x).cache.ctrl.fetchCntReg = 0 := if_pos tagged
  have limit : (s.after g ispmOneBit x).cache.ctrl.transferSizeReg = j.size-1 := by
    refine (if_pos tagged).trans ?_
    rw [size,Nat.sub_add_comm some,Nat.add_mod_right]
    exact mod_eq_of_lt (by change _ < g.words; omega)
  have pos : (s.after g ispmOneBit x).cache.repl.wrPosReg = j.pos := (if_pos writesTag).trans place
  have stage : ∀ {start' n'}, j.base = start'+n' → Fetches g j (s.after g ispmOneBit x) (log.1 ++ writes g s x) start' n' := by
    intro start' n' next
    have none : log.1 ++ writes g s x = j.written g 0 := by rw [writes_none quiet,nothing]; rfl
    refine .moving state' pos limit (by omega) ?_ (by rwa [count]) ?_
    · omega
    · rw [count,if_pos (show 0 < j.size from some)]
      exact next
  rcases sized_cases s.cache.repl.hitReg tagged running.count running.receiving.within with ⟨last,requested⟩ | ⟨after,none⟩
  · rw [running.base] at requested
    have follows : j.base = start+g.burst := by omega
    have moves := @request_moves _ _ g ispmOneBit s x (by rw [state]; decide) running.receiving running.aligned _ arrived (by omega)
      follows requested answers
    refine running.continues silent sound moves ?_ (by omega) ?_ (stage rfl)
    · rw [follows,add_mod_right,running.aligned]
    · simp [next,running.only.sound,requested,state]
  · have counted : consumed s n = n+1 := if_pos arrived
    have more : consumed s n < g.burst := by omega
    have moves := @receive_moves _ _ g ispmOneBit s x (by rw [state]; decide) running.receiving running.aligned none answers sound more
    exact running.continues silent sound moves running.aligned running.early
      (burstCnt_next running.only (.inl state) none running.count more) (stage (by omega))
end Sizing

section Moving
variable (running : Running g j s log start n) (admitted : (system g ispmOneBit).admits s x)
  (state : s.cache.ctrl.stateReg = .transfer) (place : s.cache.repl.wrPosReg = j.pos)
  (limit : s.cache.ctrl.transferSizeReg = j.size-1)
include running state admitted place limit

theorem Running.moves_word (fits : j.Fits g) (within : s.cache.ctrl.fetchCntReg < j.size)
    (short : s.cache.ctrl.fetchCntReg < g.words) (written : log.1 = j.written g s.cache.ctrl.fetchCntReg)
    (next : j.base+s.cache.ctrl.fetchCntReg = start+n) (data : s.cache.ctrl.ocpSlaveReg.resp = .dva) :
    Steps g ispmOneBit j s x log start n := by
  obtain ⟨issues,answers,sound⟩ := admitted
  obtain ⟨based,some,room,whole⟩ := fits
  have busy : s.cache.ctrl.stateReg ≠ .idle := by rw [state]; decide
  have silent := issues_quiet issues (.inl busy)
  obtain ⟨pos',limit',state'⟩ := @transfer_next g ispmOneBit s x running.only state
  have beats := running.receiving.within
  obtain ⟨arriving,cases⟩ := word_cases s.cache.repl.hitReg state limit within data running.count beats
  have word := (running.receiving.word data).1
  have written' : log.1 ++ writes g s x = j.written g (s.cache.ctrl.fetchCntReg+1) := by
    rw [Job.written_succ,← written,writes_word arriving,place,word,← next,running.ram]
    rfl
  have counted := @counts_word g ispmOneBit s x state arriving
  have stage {start' n' : Nat} (going : s.cache.ctrl.finishes g = false) (more : s.cache.ctrl.fetchCntReg+1 < g.words)
      (onward : if s.cache.ctrl.fetchCntReg+1 < j.size then j.base+(s.cache.ctrl.fetchCntReg+1) = start'+n' else 0 < n') :
      Fetches g j (s.after g ispmOneBit x) (log.1 ++ writes g s x) start' n' := by
    rw [going] at state'
    refine .moving state' (pos'.trans place) (limit'.trans limit) ?_ ?_ ?_ ?_ <;> rw [counted more]
    · exact within
    · exact more
    · exact written'
    · exact onward
  rcases cases with ⟨final,more,going,requested⟩ | ⟨final,complete,ends,none⟩ | ⟨early,going,none⟩
  · rw [running.base] at requested
    have moves := @request_moves _ _ g ispmOneBit s x busy running.receiving running.aligned _ data final (by omega) requested
      answers
    refine running.continues silent sound moves ?_ (by omega) ?_ (stage going (by omega) ?_)
    · rw [show j.base+s.cache.ctrl.fetchCntReg+1 = start+g.burst by omega,add_mod_right,running.aligned]
    · simp [MCacheCtrl.next,running.only.sound,requested,state]
    · rw [if_pos more]
      rfl
  · rw [ends] at state'
    refine .inl ⟨state',?_,0,zero_le 1,running.bus_ends busy none data final⟩
    rw [watch,written',complete]
  · have consume : consumed s n = n+1 := if_pos data
    have more : consumed s n < g.burst := by omega
    have moves := @receive_moves _ _ g ispmOneBit s x busy running.receiving running.aligned none answers sound more
    refine running.continues silent sound moves running.aligned running.early
      (burstCnt_next running.only (.inr state) none running.count more) (stage going ?_ ?_)
    · -- The last word of a method that fills the cache would be the last one of the burst.
      by_contra full
      have filled : (j.base+j.size) % g.burst = 0 := whole.resolve_left (by omega)
      rw [show j.base+j.size = start+(n+1) by omega,add_mod,running.aligned,zero_add,mod_mod,mod_eq_of_lt early] at filled
      exact succ_ne_zero n filled
    · rw [consume]
      split
      · omega
      · exact succ_pos _

theorem Running.moves_pause (fits : j.Fits g) (within : s.cache.ctrl.fetchCntReg ≤ j.size)
    (short : s.cache.ctrl.fetchCntReg < g.words) (written : log.1 = j.written g s.cache.ctrl.fetchCntReg)
    (next : if s.cache.ctrl.fetchCntReg < j.size then j.base+s.cache.ctrl.fetchCntReg = start+n else 0 < n)
    (pauses : s.cache.ctrl.fetchCntReg < j.size → s.cache.ctrl.ocpSlaveReg.resp ≠ .dva) :
    Steps g ispmOneBit j s x log start n := by
  obtain ⟨issues,answers,sound⟩ := admitted
  have busy : s.cache.ctrl.stateReg ≠ .idle := by rw [state]; decide
  have silent := issues_quiet issues (.inl busy)
  obtain ⟨pos',limit',state'⟩ := @transfer_next g ispmOneBit s x running.only state
  have beats := running.receiving.within
  obtain ⟨quiet,none,cases⟩ := pause_cases s.cache.repl.hitReg state limit fits.some within pauses running.count beats
  have counted := @counts_pause g ispmOneBit s x state quiet
  have goes (going : s.cache.ctrl.finishes g = false) (more : consumed s n < g.burst)
      (onward : if s.cache.ctrl.fetchCntReg < j.size then j.base+s.cache.ctrl.fetchCntReg = start+consumed s n
        else 0 < consumed s n) : Steps g ispmOneBit j s x log start n := by
    rw [going] at state'
    refine running.continues silent sound (receive_moves busy running.receiving running.aligned none answers sound more)
      running.aligned running.early (burstCnt_next running.only (.inr state) none running.count more)
      (.moving state' (pos'.trans place) (limit'.trans limit) ?_ ?_ ?_ ?_) <;> rw [counted]
    · exact within
    · exact short
    · rw [writes_none quiet,List.append_nil]
      exact written
    · exact onward
  have several : n ≤ consumed s n ∧ consumed s n ≤ n+1 := by
    rw [consumed]
    split <;> omega
  rcases cases with ⟨more,going⟩ | ⟨complete,final,ends⟩ | ⟨complete,early,going⟩
  · have same : consumed s n = n := if_neg (pauses more)
    exact goes going (by rwa [same]) (by rwa [same])
  · rw [if_neg (by omega)] at next
    rw [ends] at state'
    refine .inl ⟨state',?_,?_⟩
    · rw [watch,writes_none quiet,List.append_nil,written,complete]
    · by_cases data : s.cache.ctrl.ocpSlaveReg.resp = .dva
      · exact ⟨0,zero_le 1,running.bus_ends busy none data final⟩
      · have command := running.receiving.command next
        refine ⟨1,le_refl 1,?_⟩
        rw [watch,List.foldl_append,running.bus,busEvents_none busy running.only.sound none,if_neg data,command,
          left_idle command,show g.burst-n = 1 by omega]
        rfl
  · rw [if_neg (by omega)] at next
    refine goes going (by omega) ?_
    rw [if_neg (by omega)]
    omega
end Moving

theorem running_step (fits : j.Fits g) (running : Running g j s log start n)
    (admitted : (system g ispmOneBit).admits s x) : Steps g ispmOneBit j s x log start n := by
  cases running.stage with
  | sizing state place nothing first before =>
    cases tagged : s.cache.ctrl.sized g with
    | false => exact running.waits admitted state place nothing first before tagged
    | true => exact running.tags admitted state place nothing first fits tagged
  | moving state place limit within short written next =>
    by_cases arrives : s.cache.ctrl.fetchCntReg < j.size ∧ s.cache.ctrl.ocpSlaveReg.resp = .dva
    · rw [if_pos arrives.1] at next
      exact running.moves_word admitted state place limit fits arrives.1 short written next arrives.2
    · exact running.moves_pause admitted state place limit fits within short written next
        fun more data => arrives ⟨more,data⟩

theorem miss_begins (misses : Misses g s) (admitted : (system g ispmOneBit).admits s x) :
    Running g (job s) (s.after g ispmOneBit x) (watch g s x ([],[])) (g.burstStart ((job s).base-1)) 0 := by
  obtain ⟨issues,answers,sound⟩ := admitted
  obtain ⟨state,hit,command,healthy,phase,based,some,-⟩ := misses
  have only : ReadOnly s := ⟨healthy,by rw [command]; decide,.inl phase⟩
  have silent := issues_quiet issues (.inr hit)
  have quiet : s.cache.ctrl.arrives = false := by simp [arrives,fetching,state]
  have calm : s.cache.ctrl.illMem g = false := by simp [illMem,state]
  have requested : s.cache.ctrl.request g s.cache.repl.hitReg = Option.some (g.burstStart ((job s).base-1)) := by
    simp [request,state,hit,msizeAddr,job]
  have aligned : g.burstStart ((job s).base-1) % g.burst = 0 := mul_mod_left ..
  refine ⟨readOnly_step only sound,ram_step only,?_,aligned,?_,request_step phase healthy requested answers,?_,
    .sizing ?_ ?_ ?_ rfl (zero_le _),?_⟩
  · simp [next,silent,job]
  · have low : g.burstStart ((job s).base-1) ≤ (job s).base-1 := div_mul_le_self ..
    have positive : 0 < (job s).base := based
    omega
  · simp [next,healthy,requested,state]
  · simp [next,calm,healthy,stateNext,state,hit]
  · simp [MCacheReplFifo.next,silent,job]
  · rw [watch,writes_none quiet]
    rfl
  · have issued : (s.cache.ocpM g).cmd = .rd := by simp [MCache.ocpM,ocpM,healthy,requested]
    have address : (s.cache.ocpM g).addr = g.burstStart ((job s).base-1)*4 := by simp [MCache.ocpM,ocpM,requested]
    have events : busEvents g s x = if x.slave.cmdAccept then [.command (g.burstStart ((job s).base-1)*4)] else [] := by
      rw [busEvents,issued,address]
      simp [state]
    rw [watch,events]
    cases accepted : x.slave.cmdAccept with
    | false =>
      have command' : (s.after g ispmOneBit x).cache.ctrl.ocpCmdReg = .rd := by
        simp [next,healthy,accepted,requested]
      rw [left,if_pos command']
      rfl
    | true =>
      have command' : (s.after g ispmOneBit x).cache.ctrl.ocpCmdReg = .idle := by
        simp [next,accepted]
      rw [left_idle command']
      exact outstanding_command aligned

theorem running_busy (running : Running g j s log start n) : s.cache.ctrl.stateReg ≠ .idle := by
  cases running.stage with
  | sizing state | moving state =>
    rw [state]
    decide

section
variable (g : MethodGeometry) (j : Job) (r : Nat) (s : State × List Write × List BusEvent)

def observed (ispmOneBit : Nat) : System (State × List Write × List BusEvent) Cycle :=
  (system g ispmOneBit).monitored (watch g)

def Underway : Prop := ∃ start n, Running g j s.1 s.2 start n ∧ rank g j s.1 start n = r

def Complete : Prop := Fetched g j s.1 s.2

def Held (x : Cycle) : Prop := Delays g s.1 x
end

theorem method_transferred (g : MethodGeometry) (ispmOneBit : Nat) (misses : Misses g s)
    (whole : methodSize s.memory.ram s.cache.ctrl.callRetBaseReg < g.words ∨
      (s.cache.ctrl.callRetBaseReg+methodSize s.memory.ram s.cache.ctrl.callRetBaseReg) % g.burst = 0)
    {inputs : Nat → Cycle} (follows : ∀ t, (system g ispmOneBit).Follows s inputs t)
    (fair : ∀ t, ∃ u, t ≤ u ∧ ¬Delays g ((system g ispmOneBit).states s inputs u) (inputs u)) :
    ∃ t, Fetched g (job s) ((system g ispmOneBit).states s inputs (t+1))
        ((system g ispmOneBit).monitor (watch g) s inputs ([],[]) (t+1)) ∧
      ∀ u, 0 < u → u ≤ t → ((system g ispmOneBit).states s inputs u).cache.ctrl.stateReg ≠ .idle := by
  have fits : (job s).Fits g := ⟨misses.based,misses.some,misses.fits,whole⟩
  have begun := miss_begins misses (follows 1 0 zero_lt_one)
  have seen := (system g ispmOneBit).states_monitored (watch g) s inputs ([],[])
  have progress : ∀ r s' x, Underway g (job s) r s' → (observed g ispmOneBit).admits s' x →
      Complete g (job s) ((observed g ispmOneBit).next s' x) ∨
      ∃ k, Underway g (job s) k ((observed g ispmOneBit).next s' x) ∧ (k < r ∨ k = r ∧ Held g s' x) := by
    rintro r s' x ⟨start,n,running,rfl⟩ admitted
    rcases running_step fits running admitted with fetched | ⟨start',n',still,nearer⟩
    · exact .inl fetched
    · exact .inr ⟨_,⟨start',n',still,rfl⟩,nearer⟩
  have follows' : ∀ t, (observed g ispmOneBit).Follows (s,([],[])) inputs t := fun t u before => by
    rw [observed,seen]
    exact follows t u before
  have fair' : ∀ t, ∃ u, t ≤ u ∧ ¬Held g ((observed g ispmOneBit).states (s,([],[])) inputs u) (inputs u) := by
    intro t
    obtain ⟨u,later,prompt⟩ := fair t
    exact ⟨u,later,by rwa [observed,seen]⟩
  have run := System.settles (t := 1) progress follows' fair' ⟨_,_,begun,rfl⟩
  obtain ⟨t,-,fetched,before⟩ := run
  refine ⟨t,?_,fun u past upTo => ?_⟩
  · rw [observed,seen] at fetched
    exact fetched
  · obtain ⟨r,start,n,running,-⟩ := before u past upTo
    rw [observed,seen] at running
    exact running_busy running

def prompt (s : State) : Cycle :=
  match s.memory.phase with
  | .read addr beat => respond ⟨.dva,s.memory.ram (addr/4+beat),false,false⟩
  | _ => respond .accept

theorem prompt_admitted (g : MethodGeometry) (ispmOneBit : Nat) (s : State) : (system g ispmOneBit).admits s (prompt s) := by
  unfold system Issues BurstMemory.State.Answers prompt
  cases phase : s.memory.phase with
  | idle | read addr beat | write addr beat | ack => simp [phase,respond,calls,OcpBurstSlaveSignals.accept]

theorem prompt_undelayed (g : MethodGeometry) (s : State) : ¬Delays g s (prompt s) := by
  unfold Delays prompt
  cases phase : s.memory.phase with
  | idle | read addr beat | write addr beat | ack => simp [respond,OcpBurstSlaveSignals.accept]

-- Every word has its address in it, and a method of four words is at the base.
def missing (base : Nat) : State where
  cache := {(begin ⟨2,16,1⟩).cache with
    ctrl := {(begin ⟨2,16,1⟩).cache.ctrl with callRetBaseReg := base}
    repl := {(begin ⟨2,16,1⟩).cache.repl with hitReg := false}}
  memory := ⟨fun word i => if i.val ≠ 0 then 0#8 else if word = base-1 then 16#8 else BitVec.ofNat 8 word,.idle⟩
  reported := []

def promptly (t : Nat) : Cycle := prompt ((system ⟨2,16,1⟩ 16).driven prompt (missing 4) t)

theorem missing_misses (base : Nat) (based : 0 < base) : Misses ⟨2,16,1⟩ (missing base) := by
  have size : methodSize (missing base).memory.ram base = 4 := by simp [methodSize,missing,Word.toNat]
  refine ⟨rfl,rfl,rfl,nofun,rfl,based,?_,?_⟩
  · change 1 ≤ methodSize (missing base).memory.ram base
    rw [size]
    decide
  · change methodSize (missing base).memory.ram base ≤ 4
    rw [size]

theorem method_transferred_aligned : ∃ t, Fetched ⟨2,16,1⟩ (job (missing 4)) ((system ⟨2,16,1⟩ 16).states (missing 4) promptly (t+1))
    ((system ⟨2,16,1⟩ 16).monitor (watch ⟨2,16,1⟩) (missing 4) promptly ([],[]) (t+1)) := by
  have driven : ∀ t, promptly t = prompt ((system ⟨2,16,1⟩ 16).states (missing 4) promptly t) :=
    fun t => congrArg _ ((system ⟨2,16,1⟩ 16).states_driven prompt (missing 4) t).symm
  obtain ⟨t,fetched,-⟩ := @method_transferred _ ⟨2,16,1⟩ 16 (missing_misses 4 (by decide)) (.inr (by decide)) promptly
    (fun _ u _ => by rw [driven]; exact prompt_admitted _ _ _)
    (fun t => ⟨t,le_rfl,by rw [driven]; exact prompt_undelayed _ _⟩)
  exact ⟨t,fetched⟩

def answer (word : Nat) : Cycle := respond ⟨.dva,(missing 3).memory.ram word,false,false⟩

-- The method fills the cache and does not end with a burst. The counter of the words starts again with the word behind
-- the method.
def overrun : List Cycle := [accept,answer 2,answer 3,accept,answer 4,answer 5,accept,answer 6,answer 7,accept]

def told (w : Write) : Nat × Nat := (w.index,Word.toNat w.data)

-- In the second run the last response of the first miss comes in the second one, which then writes its size as the
-- first word.
theorem transfers_wrong :
    (Misses ⟨2,16,1⟩ (missing 3) ∧ (system ⟨2,16,1⟩ 16).Admits (missing 3) overrun ∧
      (system ⟨2,16,1⟩ 16).record (fun s _ => [s.cache.ctrl.stateReg]) (missing 3) overrun =
        [.idle,.size,.size,.transfer,.transfer,.transfer,.transfer,.transfer,.transfer,.transfer] ∧
      ((system ⟨2,16,1⟩ 16).record (writes ⟨2,16,1⟩) (missing 3) overrun).map told = [(0,3),(1,4),(2,5),(3,6),(0,7)]) ∧
    (system ⟨3,16,1⟩ 16).Admits (begin ⟨3,16,1⟩) undrained ∧ methodSize program 32834 = 1 ∧ methodSize program 32850 = 2 ∧
      ((system ⟨3,16,1⟩ 16).record (writes ⟨3,16,1⟩) (begin ⟨3,16,1⟩) undrained).map told = [(0,66),(0,8),(1,82)] :=
  ⟨⟨missing_misses 3 (by decide),by decide +kernel,by decide +kernel,by decide +kernel⟩,by decide +kernel,by decide +kernel,
    by decide +kernel,by decide +kernel⟩
end Run
end Patmos.MethodCache
