import Patmos.TransitionSystem
import Patmos.RegisterWidth
import Patmos.OcpBurstProtocol
namespace Patmos.RoundRobinArbiter
open OcpBurst Transition Register Nat

inductive FsmState where
  | sIdle
  | sRead
  | sWrite
  deriving DecidableEq, Repr

-- The positions of mBuffer from burstLen on are not registers of the source and are never read.
structure Arbiter (cnt lanes : Nat) where
  turnReg : Fin cnt
  burstCntReg : Nat
  stateReg : FsmState
  mBuffer : Fin cnt → Nat → OcpBurstMasterSignals lanes
  sBuffer : Fin cnt → OcpBurstSlaveSignals lanes

variable {cnt burstLen lanes : Nat}

section
variable (burstLen : Nat) (a : Arbiter cnt lanes) (master : Fin cnt → OcpBurstMasterSignals lanes) (slave : OcpBurstSlaveSignals lanes)

def free (i : Fin cnt) : Bool := (a.mBuffer i 0).cmd = .idle

def slaveM : OcpBurstMasterSignals lanes := a.mBuffer a.turnReg 0

def bufferS (i : Fin cnt) : OcpBurstSlaveSignals lanes := if i = a.turnReg then slave else ⟨.null,slave.data,false,false⟩

def masterS (i : Fin cnt) : OcpBurstSlaveSignals lanes := {a.sBuffer i with cmdAccept := free a i,dataAccept := free a i}

def shift (buffer : Nat → OcpBurstMasterSignals lanes) (master : OcpBurstMasterSignals lanes) :
    Nat → OcpBurstMasterSignals lanes :=
  fun p => if p+1 < burstLen then buffer (p+1) else master

def turnNext (turn : Fin cnt) : Fin cnt :=
  if more : turn.val+1 < cnt then ⟨turn.val+1,more⟩ else ⟨0,zero_lt_of_lt turn.isLt⟩

def next : Arbiter cnt lanes where
  turnReg :=
    match a.stateReg with
    | .sIdle => if (slaveM a).cmd ≠ .idle then a.turnReg else turnNext a.turnReg
    | .sWrite => if slave.resp = .dva then turnNext a.turnReg else a.turnReg
    | .sRead => if slave.resp = .dva ∧ a.burstCntReg = burstLen-1 then turnNext a.turnReg else a.turnReg
  burstCntReg :=
    match a.stateReg with
    | .sIdle => if (slaveM a).cmd = .wr then 0 else a.burstCntReg
    | .sWrite => a.burstCntReg
    | .sRead => if slave.resp = .dva then (a.burstCntReg+1) % 2^log2Up burstLen else a.burstCntReg
  stateReg :=
    match a.stateReg with
    | .sIdle => match (slaveM a).cmd with
      | .idle => .sIdle
      | .rd => .sRead
      | .wr => .sWrite
    | .sWrite => if slave.resp = .dva then .sIdle else .sWrite
    | .sRead => if slave.resp = .dva ∧ a.burstCntReg = burstLen-1 then .sIdle else .sRead
  mBuffer i :=
    if free a i ∨ (bufferS a slave i).cmdAccept then shift burstLen (a.mBuffer i) (master i) else a.mBuffer i
  sBuffer i := bufferS a slave i
end

-- The arbiter between its masters and its slave. The issuer is the master whose command the slave accepted last.
structure State (cnt lanes : Nat) where
  arbiter : Arbiter cnt lanes
  master : Fin cnt → Phase
  slave : Phase
  issuer : Fin cnt

structure Cycle (cnt lanes : Nat) where
  master : Fin cnt → OcpBurstMasterSignals lanes
  slave : OcpBurstSlaveSignals lanes

def accepts (s : State cnt lanes) (x : Cycle cnt lanes) (i : Fin cnt) : Prop :=
  s.arbiter.turnReg = i ∧ (slaveM s.arbiter).cmd ≠ .idle ∧ x.slave.cmdAccept = true

def takesData : Phase → Bool
  | .data _ => true
  | _ => false

-- During reset no master drives a command and the slave does not respond; the buffers are loaded with what they see. A
-- slave that has accepted a write takes the further beats one a cycle, as the buffer shifts them out.
def system (cnt burstLen lanes : Nat) : System (State cnt lanes) (Cycle cnt lanes) where
  start s := s.arbiter.turnReg.val = 0 ∧ s.arbiter.burstCntReg = 0 ∧ s.arbiter.stateReg = .sIdle ∧
    (∀ i p, (s.arbiter.mBuffer i p).cmd = .idle) ∧ (∀ i, (s.arbiter.sBuffer i).resp = .null) ∧
    (∀ i, s.master i = .idle) ∧ s.slave = .idle
  admits s x := (∀ i, (s.master i).Offers (x.master i)) ∧ s.slave.Answers (slaveM s.arbiter) x.slave ∧
    (takesData s.slave → x.slave.dataAccept = true) ∧ x.slave.resp ≠ .fail
  next s x := {
    arbiter := next burstLen s.arbiter x.master x.slave
    master i := (s.master i).next burstLen (x.master i) (masterS s.arbiter i)
    slave := (s.slave.next burstLen (slaveM s.arbiter) x.slave).outstanding
    issuer := if (slaveM s.arbiter).cmd ≠ .idle ∧ x.slave.cmdAccept then s.arbiter.turnReg else s.issuer }

abbrev State.after (burstLen : Nat) (s : State cnt lanes) (x : Cycle cnt lanes) := (system cnt burstLen lanes).next s x

instance (s : State cnt lanes) (x : Cycle cnt lanes) : Decidable ((system cnt burstLen lanes).admits s x) :=
  inferInstanceAs (Decidable (_ ∧ _ ∧ _ ∧ _))

def Empty (burstLen : Nat) (buffer : Nat → OcpBurstMasterSignals lanes) : Prop := ∀ p < burstLen, (buffer p).cmd = .idle

structure Holds (burstLen : Nat) (buffer : Nat → OcpBurstMasterSignals lanes) (p : Nat) (cmd : OcpCmd) : Prop where
  inside : p < burstLen
  busy : cmd ≠ .idle
  here : (buffer p).cmd = cmd
  alone : ∀ q < burstLen, q ≠ p → (buffer q).cmd = .idle

-- A write beat enters the buffer with every step of its command.
def pendingPhase (burstLen p : Nat) : OcpCmd → Phase
  | .wr => .afterBeat p
  | _ => .response burstLen

-- A master whose burst is not at the slave: it is idle, its command is in the buffer, or its last response is about to
-- be seen.
inductive Lane (burstLen : Nat) (buffer : Nat → OcpBurstMasterSignals lanes) : OcpResp → Phase → Prop where
  | idle : Empty burstLen buffer → Lane burstLen buffer .null .idle
  | pending : Holds burstLen buffer p cmd → Lane burstLen buffer .null (pendingPhase burstLen p cmd)
  | done : Empty burstLen buffer → resp ≠ .null → Lane burstLen buffer resp (.response 1)

section Shift
variable {buffer : Nat → OcpBurstMasterSignals lanes} {master : OcpBurstMasterSignals lanes}

theorem shift_empty (empty : Empty burstLen buffer) (quiet : master.cmd = .idle) : Empty burstLen (shift burstLen buffer master) := by
  intro p _
  unfold shift
  split
  · exact empty _ (by assumption)
  · exact quiet

theorem shift_enters (positive : 0 < burstLen) (empty : Empty burstLen buffer) (busy : master.cmd ≠ .idle) :
    Holds burstLen (shift burstLen buffer master) (burstLen-1) master.cmd := by
  refine ⟨by omega,busy,?_,fun q inside other => ?_⟩
  · rw [shift,if_neg (by omega)]
  · rw [shift,if_pos (by omega)]
    exact empty _ (by omega)

theorem shift_moves (held : Holds burstLen buffer (p+1) cmd) (quiet : master.cmd = .idle) :
    Holds burstLen (shift burstLen buffer master) p cmd := by
  have inside := held.inside
  refine ⟨by omega,held.busy,?_,fun q within other => ?_⟩
  · rw [shift,if_pos inside,held.here]
  · unfold shift
    split
    · exact held.alone _ (by assumption) (by omega)
    · exact quiet

theorem shift_leaves (held : Holds burstLen buffer 0 cmd) (quiet : master.cmd = .idle) : Empty burstLen (shift burstLen buffer master) := by
  intro p within
  unfold shift
  split
  · exact held.alone _ (by assumption) (by omega)
  · exact quiet

theorem pending_offers (busy : cmd ≠ .idle) (offers : (pendingPhase burstLen p cmd).Offers master) : master.cmd = .idle := by
  cases cmd with
  | idle => exact absurd rfl busy
  | rd => exact offers
  | wr =>
    cases p with
    | zero => exact offers
    | succ p => exact offers.1

theorem holds_not_empty (held : Holds burstLen buffer p cmd) (empty : Empty burstLen buffer) : False :=
  held.busy (held.here.symm.trans (empty p held.inside))

theorem lane_empty (lane : Lane burstLen buffer resp phase) (offers : phase.Offers master) (presents : master.cmd ≠ .idle) :
    Empty burstLen buffer := by
  cases lane with
  | idle empty | done empty _ => exact empty
  | pending held => exact absurd (pending_offers held.busy offers) presents
end Shift

attribute [local simp] State.after system Phase.next Phase.outstanding Phase.afterBeat

section Buffer
variable {a : Arbiter cnt lanes} {slave : OcpBurstSlaveSignals lanes} {i : Fin cnt}
  {master : Fin cnt → OcpBurstMasterSignals lanes}

theorem mBuffer_shifts (moves : (a.mBuffer i 0).cmd = .idle ∨ (bufferS a slave i).cmdAccept = true) :
    (next burstLen a master slave).mBuffer i = shift burstLen (a.mBuffer i) (master i) := by
  simp only [next]
  rw [if_pos (moves.imp_left fun idle => by simp [free,idle])]

theorem mBuffer_stays (busy : (a.mBuffer i 0).cmd ≠ .idle) (refused : (bufferS a slave i).cmdAccept = false) :
    (next burstLen a master slave).mBuffer i = a.mBuffer i := by
  simp only [next]
  rw [if_neg (by simp [free,busy,refused])]

section
variable (positive : 0 < burstLen) (lane : Lane burstLen (a.mBuffer i) (a.sBuffer i).resp phase)
include positive lane

theorem lane_step (offers : phase.Offers (master i)) (silent : (bufferS a slave i).resp = .null)
    (refused : (a.mBuffer i 0).cmd ≠ .idle → (bufferS a slave i).cmdAccept = false) :
    Lane burstLen ((next burstLen a master slave).mBuffer i) ((next burstLen a master slave).sBuffer i).resp
      (phase.next burstLen (master i) (masterS a i)) := by
  rw [show ((next burstLen a master slave).sBuffer i).resp = .null from silent]
  generalize seen : (a.sBuffer i).resp = resp at lane
  cases lane with
  | idle empty =>
    have idle := empty 0 positive
    rw [mBuffer_shifts (.inl idle)]
    by_cases quiet : (master i).cmd = .idle
    · rw [waiting_quiet burstLen .idle quiet]
      exact .idle (shift_empty empty quiet)
    · rw [waiting_accepted burstLen .idle quiet (by simp [masterS,free,idle])]
      have entered := shift_enters positive empty quiet
      cases cmd : (master i).cmd with
      | idle => exact absurd cmd quiet
      | rd | wr => exact .pending (cmd ▸ entered)
  | done empty answered =>
    rw [mBuffer_shifts (.inl (empty 0 positive))]
    have ended : (Phase.response 1).next burstLen (master i) (masterS a i) = .idle := by
      simp [masterS,seen,answered]
    rw [ended]
    exact .idle (shift_empty empty offers)
  | @pending p cmd held =>
    have quiet := pending_offers held.busy offers
    cases p with
    | zero =>
      have busy : (a.mBuffer i 0).cmd ≠ .idle := by
        rw [held.here]
        exact held.busy
      have same : (pendingPhase burstLen 0 cmd).next burstLen (master i) (masterS a i) = pendingPhase burstLen 0 cmd := by
        cases cmd <;> simp [pendingPhase,masterS,seen]
      rw [mBuffer_stays busy (refused busy),same]
      exact .pending held
    | succ p =>
      have idle := held.alone 0 (zero_lt_of_lt held.inside) (by omega)
      have beat : (pendingPhase burstLen (p+1) cmd).next burstLen (master i) (masterS a i) = pendingPhase burstLen p cmd := by
        cases cmd <;> simp [pendingPhase,masterS,free,idle,seen]
      rw [mBuffer_shifts (.inl idle),beat]
      exact .pending (shift_moves held quiet)

theorem lane_front (busy : (a.mBuffer i 0).cmd ≠ .idle) :
    Holds burstLen (a.mBuffer i) 0 (a.mBuffer i 0).cmd ∧ (a.sBuffer i).resp = .null ∧
      phase = pendingPhase burstLen 0 (a.mBuffer i 0).cmd := by
  generalize seen : (a.sBuffer i).resp = resp at lane
  cases lane with
  | idle empty | done empty _ => exact absurd (empty 0 positive) busy
  | @pending p cmd held =>
    cases p with
    | zero =>
      rw [held.here]
      exact ⟨held,rfl,rfl⟩
    | succ p => exact absurd (held.alone 0 positive (by omega)) busy
end

-- The master whose burst is at the slave has all of it out of its buffer. A response reaches it one cycle after the
-- slave has given it.
structure Served (burstLen : Nat) (buffer : Nat → OcpBurstMasterSignals lanes) (resp : OcpResp) (phase : Phase)
    (missing : Nat) : Prop where
  empty : Empty burstLen buffer
  phase : phase = .response (missing + if resp = .null then 0 else 1)

theorem served_accepted (positive : 0 < burstLen) (lane : Lane burstLen (a.mBuffer i) (a.sBuffer i).resp phase)
    (offers : phase.Offers (master i)) (busy : (a.mBuffer i 0).cmd ≠ .idle)
    (accept : (bufferS a slave i).cmdAccept = true) (silent : (bufferS a slave i).resp = .null) :
    Served burstLen ((next burstLen a master slave).mBuffer i) ((next burstLen a master slave).sBuffer i).resp
      (phase.next burstLen (master i) (masterS a i)) (if (a.mBuffer i 0).cmd = .wr then 1 else burstLen) := by
  obtain ⟨held,seen,rfl⟩ := lane_front positive lane busy
  have quiet := pending_offers busy offers
  rw [mBuffer_shifts (.inr accept),show ((next burstLen a master slave).sBuffer i).resp = .null from silent]
  refine ⟨shift_leaves held quiet,?_⟩
  cases cmd : (a.mBuffer i 0).cmd <;> simp [pendingPhase,masterS,seen]

theorem served_step (positive : 0 < burstLen) (some : 0 < missing)
    (served : Served burstLen (a.mBuffer i) (a.sBuffer i).resp phase missing) (offers : phase.Offers (master i)) :
    Empty burstLen ((next burstLen a master slave).mBuffer i) ∧
      phase.next burstLen (master i) (masterS a i) = .response missing := by
  obtain ⟨empty,rfl⟩ := served
  refine ⟨?_,?_⟩
  · rw [mBuffer_shifts (.inl (empty 0 positive))]
    exact shift_empty empty offers
  · by_cases silent : (a.sBuffer i).resp = .null
    · simp [masterS,silent]
    · simp [masterS,silent,some.ne']
end Buffer

-- The arbiter and its slave during one burst, with the responses still missing.
inductive Service (burstLen : Nat) : FsmState → Nat → Phase → Nat → Prop where
  | read : left+1 ≤ burstLen → Service burstLen .sRead (burstLen-(left+1)) (.response (left+1)) (left+1)
  | data : Service burstLen .sWrite 0 (.data (left+1)) 1
  | write : Service burstLen .sWrite 0 (.response 1) 1

def serves : OcpCmd → FsmState
  | .idle => .sIdle
  | .rd => .sRead
  | .wr => .sWrite

theorem service_begins (positive : 0 < burstLen) (busy : cmd ≠ .idle) : Service burstLen (serves cmd) 0
    (Phase.accepted burstLen cmd).outstanding (if cmd = .wr then 1 else burstLen) := by
  obtain ⟨rest,rfl⟩ := Nat.exists_eq_add_of_le' positive
  cases cmd with
  | idle => exact absurd rfl busy
  | rd => simpa [serves,Phase.accepted] using Service.read (le_refl (rest+1))
  | wr =>
    cases rest with
    | zero => exact .write
    | succ rest => exact .data

theorem service_missing (service : Service burstLen fsm beats phase missing) : 0 < missing := by
  cases service <;> omega

inductive Valid (burstLen : Nat) (s : State cnt lanes) : Prop where
  | free : s.slave = .idle → s.arbiter.burstCntReg = 0 →
      (s.arbiter.stateReg = .sIdle ∨ (slaveM s.arbiter).cmd ≠ .idle ∧ s.arbiter.stateReg = serves (slaveM s.arbiter).cmd) →
      (∀ i, Lane burstLen (s.arbiter.mBuffer i) (s.arbiter.sBuffer i).resp (s.master i)) → Valid burstLen s
  | serving : Service burstLen s.arbiter.stateReg s.arbiter.burstCntReg s.slave missing →
      s.issuer = s.arbiter.turnReg →
      Served burstLen (s.arbiter.mBuffer s.arbiter.turnReg) (s.arbiter.sBuffer s.arbiter.turnReg).resp
        (s.master s.arbiter.turnReg) missing →
      (∀ i, i ≠ s.arbiter.turnReg → Lane burstLen (s.arbiter.mBuffer i) (s.arbiter.sBuffer i).resp (s.master i)) →
      Valid burstLen s

theorem service_step {a : Arbiter cnt lanes} {slave : OcpBurstSlaveSignals lanes} (k : Nat) (power : burstLen = 2^(k+1))
    (service : Service burstLen a.stateReg a.burstCntReg phase missing)
    (answers : phase.Answers (slaveM a) slave) (takes : takesData phase → slave.dataAccept = true)
    (good : slave.resp = .null ∨ slave.resp = .dva) (master : Fin cnt → OcpBurstMasterSignals lanes) :
    (slave.resp = .dva ∧ missing = 1 ∧ (next burstLen a master slave).stateReg = .sIdle ∧
      (next burstLen a master slave).burstCntReg = 0 ∧ (next burstLen a master slave).turnReg = turnNext a.turnReg ∧
      (phase.next burstLen (slaveM a) slave).outstanding = .idle) ∨
    ∃ left, missing = left + (if slave.resp = .null then 0 else 1) ∧
      Service burstLen (next burstLen a master slave).stateReg (next burstLen a master slave).burstCntReg
        (phase.next burstLen (slaveM a) slave).outstanding left ∧
      (next burstLen a master slave).turnReg = a.turnReg := by
  generalize state : a.stateReg = fsm at service
  generalize count : a.burstCntReg = beats at service
  cases service with
  | @read left bounded =>
    rcases good with silent | answered
    · refine .inr ⟨left+1,by simp [silent],?_,by simp [next,state,silent]⟩
      simpa [next,state,count,silent] using Service.read bounded
    · cases left with
      | zero =>
        have wraps : (burstLen-1+1) % 2^log2Up burstLen = 0 := by
          rw [Nat.sub_add_cancel bounded,power,log2Up_two_pow,Nat.mod_self]
        exact .inl ⟨answered,rfl,by simp [next,state,count,answered],by simp [next,state,count,answered,wraps],
          by simp [next,state,count,answered],by simp [answered]⟩
      | succ left =>
        have more : ¬burstLen-(left+1+1) = burstLen-1 := by omega
        have counts : (burstLen-(left+1+1)+1) % 2^log2Up burstLen = burstLen-(left+1) := by
          have width := le_two_pow_log2Up burstLen
          rw [mod_eq_of_lt (by omega)]
          omega
        refine .inr ⟨left+1,by simp [answered],?_,by simp [next,state,count,more]⟩
        simpa [next,state,count,answered,more,counts] using
          Service.read (le_of_succ_le bounded)
  | @data left =>
    have silent : slave.resp = .null := answers
    refine .inr ⟨1,by simp [silent],?_,by simp [next,state,silent]⟩
    cases left with
    | zero => simpa [next,state,count,silent,takes rfl] using Service.write
    | succ left => simpa [next,state,count,silent,takes rfl] using Service.data
  | write =>
    rcases good with silent | answered
    · refine .inr ⟨1,by simp [silent],?_,by simp [next,state,silent]⟩
      simpa [next,state,count,silent] using Service.write
    · exact .inl ⟨answered,rfl,by simp [next,state,answered],by simp [next,state,count],by simp [next,state,answered],
        by simp [answered]⟩

-- The arbiter only looks for DVA.
def noError (_ : State cnt lanes) (x : Cycle cnt lanes) : Prop := x.slave.resp ≠ .err

def errorFree (cnt burstLen lanes : Nat) : System (State cnt lanes) (Cycle cnt lanes) :=
  (system cnt burstLen lanes).restrict noError

theorem answer_good {s : State cnt lanes} {x : Cycle cnt lanes} (admitted : (errorFree cnt burstLen lanes).admits s x) :
    x.slave.resp = .null ∨ x.slave.resp = .dva := by
  obtain ⟨⟨_,_,_,known⟩,good⟩ := admitted
  cases resp : x.slave.resp with
  | null => exact .inl rfl
  | dva => exact .inr rfl
  | fail => exact absurd resp known
  | err => exact absurd resp good

theorem bufferS_other {a : Arbiter cnt lanes} (slave : OcpBurstSlaveSignals lanes) (other : i ≠ a.turnReg) :
    bufferS a slave i = ⟨.null,slave.data,false,false⟩ := if_neg other

theorem bufferS_turn (a : Arbiter cnt lanes) (slave : OcpBurstSlaveSignals lanes) : bufferS a slave a.turnReg = slave :=
  if_pos rfl

abbrev LaneOf (burstLen : Nat) (s : State cnt lanes) (i : Fin cnt) : Prop :=
  Lane burstLen (s.arbiter.mBuffer i) (s.arbiter.sBuffer i).resp (s.master i)

section Step
variable {s : State cnt lanes} {x : Cycle cnt lanes}

theorem other_lane (positive : 0 < burstLen) (i : Fin cnt) (other : i ≠ s.arbiter.turnReg) (offers : (s.master i).Offers (x.master i)) (lane : LaneOf burstLen s i) :
    LaneOf burstLen (s.after burstLen x) i := by
  have quiet := bufferS_other x.slave other
  exact lane_step positive lane offers (by rw [quiet]) fun _ => by rw [quiet]

theorem lanes_step (positive : 0 < burstLen) (admitted : (system cnt burstLen lanes).admits s x) (silent : x.slave.resp = .null)
    (refused : (slaveM s.arbiter).cmd ≠ .idle → x.slave.cmdAccept = false) (lanes' : ∀ i, LaneOf burstLen s i) (i : Fin cnt) :
    LaneOf burstLen (s.after burstLen x) i := by
  by_cases turn : i = s.arbiter.turnReg
  · subst turn
    exact lane_step positive (lanes' _) (admitted.1 _) (by rw [bufferS_turn,silent]) fun busy => by rw [bufferS_turn,refused busy]
  · exact other_lane positive i turn (admitted.1 i) (lanes' i)

theorem free_silent (admitted : (system cnt burstLen lanes).admits s x) (idle : s.slave = .idle) : x.slave.resp = .null := by
  have answers := admitted.2.1
  rw [idle] at answers
  exact answers.1

-- The turn does not leave a command at the front while the slave is free.
theorem turn_waits (waiting : s.arbiter.stateReg = .sIdle ∨ s.arbiter.stateReg = serves (slaveM s.arbiter).cmd)
    (busy : (slaveM s.arbiter).cmd ≠ .idle) (silent : x.slave.resp = .null) :
    (s.after burstLen x).arbiter.turnReg = s.arbiter.turnReg := by
  rcases waiting with state | state
  · simp [next,state,busy]
  · cases cmd : (slaveM s.arbiter).cmd with
    | idle => exact absurd cmd busy
    | rd | wr => simp [next,state,cmd,serves,silent]

theorem free_step (positive : 0 < burstLen) (admitted : (system cnt burstLen lanes).admits s x) (idle : s.slave = .idle)
    (fresh : s.arbiter.burstCntReg = 0)
    (waiting : s.arbiter.stateReg = .sIdle ∨
      (slaveM s.arbiter).cmd ≠ .idle ∧ s.arbiter.stateReg = serves (slaveM s.arbiter).cmd)
    (lanes' : ∀ i, LaneOf burstLen s i) : Valid burstLen (s.after burstLen x) := by
  have silent := free_silent admitted idle
  have offers := admitted.1
  by_cases busy : (slaveM s.arbiter).cmd = .idle
  · have state : s.arbiter.stateReg = .sIdle := waiting.resolve_right fun held => held.1 busy
    refine .free ?_ ?_ (.inl ?_) (lanes_step positive admitted silent (absurd busy) lanes')
    · simp [idle,busy]
    · simp [next,state,fresh]
    · simp [next,state,busy]
  · have turn := @turn_waits cnt burstLen lanes s x (waiting.imp_right And.right) busy silent
    obtain ⟨state,count⟩ : (s.after burstLen x).arbiter.stateReg = serves (slaveM s.arbiter).cmd ∧
        (s.after burstLen x).arbiter.burstCntReg = 0 := by
      rcases waiting with state | ⟨_,state⟩ <;> cases cmd : (slaveM s.arbiter).cmd <;>
        simp [next,state,cmd,serves,silent,fresh]
    cases accept : x.slave.cmdAccept with
    | false =>
      have front : slaveM (s.after burstLen x).arbiter = slaveM s.arbiter := by
        unfold slaveM
        rw [turn]
        exact congrFun (mBuffer_stays busy (by rw [bufferS_turn,accept])) 0
      refine .free ?_ count (.inr ?_) (lanes_step positive admitted silent (fun _ => accept) lanes')
      · simp [idle,busy,accept]
      · rw [front]
        exact ⟨busy,state⟩
    | true =>
      have service := service_begins positive busy
      have taken : (s.after burstLen x).slave = (Phase.accepted burstLen (slaveM s.arbiter).cmd).outstanding := by
        simp [idle,busy,accept]
      refine .serving (by rw [state,count,taken]; exact service) ?_ ?_ ?_
      · rw [turn]
        simp [busy,accept]
      · rw [turn]
        exact served_accepted positive (lanes' _) (offers _) busy (by rw [bufferS_turn,accept]) (by rw [bufferS_turn,silent])
      · rw [turn]
        exact fun i other => other_lane positive i other (offers i) (lanes' i)

theorem serving_step (k : Nat) (power : burstLen = 2^(k+1)) (admitted : (errorFree cnt burstLen lanes).admits s x)
    (service : Service burstLen s.arbiter.stateReg s.arbiter.burstCntReg s.slave missing)
    (issued : s.issuer = s.arbiter.turnReg)
    (served : Served burstLen (s.arbiter.mBuffer s.arbiter.turnReg) (s.arbiter.sBuffer s.arbiter.turnReg).resp
      (s.master s.arbiter.turnReg) missing)
    (lanes' : ∀ i, i ≠ s.arbiter.turnReg → LaneOf burstLen s i) : Valid burstLen (s.after burstLen x) := by
  have positive : 0 < burstLen := power ▸ Nat.two_pow_pos _
  have good := answer_good admitted
  obtain ⟨⟨offers,answers,takes,_⟩,_⟩ := admitted
  have some := service_missing service
  have quiet : (slaveM s.arbiter).cmd = .idle := served.empty 0 positive
  obtain ⟨empty,phase⟩ := @served_step cnt burstLen lanes s.arbiter x.slave _ x.master _ _ positive some served (offers _)
  have seen : (s.after burstLen x).arbiter.sBuffer s.arbiter.turnReg = x.slave := bufferS_turn _ _
  have others := fun i other => other_lane positive i other (offers i) (lanes' i other)
  rcases service_step k power service answers takes good x.master with ⟨answered,rfl,state,count,turn,idle⟩ | ⟨left,rfl,rest,turn⟩
  · refine .free idle count (.inl state) fun i => ?_
    by_cases own : i = s.arbiter.turnReg
    · subst own
      rw [show (s.after burstLen x).master s.arbiter.turnReg = .response 1 from phase,seen]
      exact .done empty (by simp [answered])
    · exact others i own
  · have same : (s.after burstLen x).arbiter.turnReg = s.arbiter.turnReg := turn
    refine .serving rest ?_ ?_ ?_
    · rw [same,← issued]
      simp [quiet]
    · rw [same,seen]
      exact ⟨empty,phase⟩
    · rw [same]
      exact others

theorem preserves_valid (k : Nat) (power : burstLen = 2^(k+1)) (s : State cnt lanes) (x : Cycle cnt lanes)
    (valid : Valid burstLen s) (admitted : (errorFree cnt burstLen lanes).admits s x) :
    Valid burstLen ((errorFree cnt burstLen lanes).next s x) := by
  cases valid with
  | free idle fresh waiting lanes' =>
    exact free_step (power ▸ Nat.two_pow_pos _) admitted.1 idle fresh waiting lanes'
  | serving service issued served lanes' => exact serving_step k power admitted service issued served lanes'

theorem reached_valid (k : Nat) (power : burstLen = 2^(k+1)) (path : Reached (errorFree cnt burstLen lanes) s) :
    Valid burstLen s := by
  refine path.invariant (fun s begun => ?_) (preserves_valid k power)
  obtain ⟨_,count,state,buffers,responses,masters,slave⟩ := begun
  refine .free slave count (.inl state) fun i => ?_
  rw [responses i,masters i]
  exact .idle fun p _ => buffers i p

section
variable (valid : Valid burstLen s)
include valid

theorem valid_lane (i : Fin cnt) : LaneOf burstLen s i ∨ i = s.arbiter.turnReg ∧ ∃ missing,
    Served burstLen (s.arbiter.mBuffer i) (s.arbiter.sBuffer i).resp (s.master i) missing := by
  cases valid with
  | free _ _ _ lanes' => exact .inl (lanes' i)
  | serving _ _ served lanes' =>
    by_cases turn : i = s.arbiter.turnReg
    · subst turn
      exact .inr ⟨rfl,_,served⟩
    · exact .inl (lanes' i turn)

theorem holds_step (admitted : (system cnt burstLen lanes).admits s x) (held : Holds burstLen (s.arbiter.mBuffer i) p cmd)
    (waits : ¬accepts s x i) : Holds burstLen ((s.after burstLen x).arbiter.mBuffer i) (p-1) cmd := by
  have lane : LaneOf burstLen s i := (valid_lane valid i).resolve_right fun ⟨_,_,served⟩ => holds_not_empty held served.empty
  have quiet : (x.master i).cmd = .idle :=
    of_not_not fun presents => holds_not_empty held (lane_empty lane (admitted.1 i) presents)
  cases p with
  | zero =>
    have busy : (s.arbiter.mBuffer i 0).cmd ≠ .idle := held.here ▸ held.busy
    have refused : (bufferS s.arbiter x.slave i).cmdAccept = false := by
      by_cases turn : i = s.arbiter.turnReg
      · subst turn
        rw [bufferS_turn]
        simpa [accepts,slaveM,busy] using waits
      · rw [bufferS_other x.slave turn]
    rw [show (s.after burstLen x).arbiter.mBuffer i = s.arbiter.mBuffer i from mBuffer_stays busy refused]
    exact held
  | succ p =>
    have front := held.alone 0 (zero_lt_of_lt held.inside) (by omega)
    rw [show (s.after burstLen x).arbiter.mBuffer i = _ from mBuffer_shifts (.inl front)]
    exact shift_moves held quiet

theorem presents_enters (positive : 0 < burstLen) (admitted : (system cnt burstLen lanes).admits s x)
    (presents : (x.master i).cmd ≠ .idle) :
    Holds burstLen ((s.after burstLen x).arbiter.mBuffer i) (burstLen-1) (x.master i).cmd := by
  have empty : Empty burstLen (s.arbiter.mBuffer i) := by
    rcases valid_lane valid i with lane | ⟨_,_,served⟩
    · exact lane_empty lane (admitted.1 i) presents
    · exact served.empty
  rw [show (s.after burstLen x).arbiter.mBuffer i = _ from mBuffer_shifts (.inl (empty 0 positive))]
  exact shift_enters positive empty presents
end
end Step

-- Counting round from the turn, i comes before j.
def Before (turn i j : Fin cnt) : Prop := (turn ≤ i ∧ i < j) ∨ (i < j ∧ j < turn) ∨ (j < turn ∧ turn ≤ i)

theorem before_begins {i j : Fin cnt} (other : i ≠ j) : Before (turnNext j) i j := by
  unfold Before turnNext
  simp only [Fin.le_def,Fin.lt_def]
  split <;> simp only <;> omega

theorem before_next {turn i j : Fin cnt} (before : Before turn i j) (other : turn ≠ i) : Before (turnNext turn) i j := by
  unfold Before turnNext at *
  simp only [Fin.le_def,Fin.lt_def] at *
  split <;> simp only <;> omega

theorem before_turn {turn i j : Fin cnt} (before : Before turn i j) : turn ≠ j := by
  rintro rfl
  unfold Before at before
  omega

-- The least number of cycles until the slave is done with its burst.
def remaining : Phase → Nat
  | .response left => left
  | .data left => left+1
  | _ => 0

theorem remaining_step (phase : Phase) (m : OcpBurstMasterSignals lanes) (slave : OcpBurstSlaveSignals lanes) :
    remaining phase ≤ remaining (phase.next burstLen m slave).outstanding + 1 := by
  cases phase with
  | idle | request _ => exact zero_le _
  | data left =>
    simp only [Phase.next]
    split
    · rcases left with _ | _ | left
      · exact le_succ _
      · exact le_rfl
      · exact le_rfl
    · exact le_succ _
  | response left =>
    simp only [Phase.next]
    split
    · exact le_succ _
    · split <;> simp only [Phase.outstanding,remaining] <;> omega

-- Master j has been served while i waits: its burst still lasts until the command of i is at the front, and then i
-- comes first.
inductive Owed (burstLen : Nat) (i j : Fin cnt) (s : State cnt lanes) : Prop where
  | during : s.arbiter.turnReg = j → Holds burstLen (s.arbiter.mBuffer i) p cmd → p < remaining s.slave → Owed burstLen i j s
  | ahead : Holds burstLen (s.arbiter.mBuffer i) 0 cmd → Before s.arbiter.turnReg i j → Owed burstLen i j s

theorem service_remaining (service : Service burstLen fsm beats phase missing) : 0 < remaining phase := by
  cases service <;> exact succ_pos _

section Fair
variable {s : State cnt lanes} {x : Cycle cnt lanes} (valid : Valid burstLen s)
include valid

theorem accepts_free (positive : 0 < burstLen) (taken : accepts s x j) : s.slave = .idle ∧
    (s.arbiter.stateReg = .sIdle ∨ s.arbiter.stateReg = serves (slaveM s.arbiter).cmd) := by
  cases valid with
  | free idle _ waiting _ => exact ⟨idle,waiting.imp_right And.right⟩
  | serving _ _ served _ => exact absurd (served.empty 0 positive) taken.2.1

theorem owed_begins (several : 2 ≤ burstLen) (admitted : (system cnt burstLen lanes).admits s x) (taken : accepts s x j)
    (held : Holds burstLen ((s.after burstLen x).arbiter.mBuffer i) p cmd) :
    Owed burstLen i j (s.after burstLen x) := by
  obtain ⟨idle,waiting⟩ := accepts_free valid (by omega) taken
  obtain ⟨turn,busy,accept⟩ := taken
  refine .during ?_ held ?_
  · rw [← turn]
    exact turn_waits waiting busy (free_silent admitted idle)
  · have inside := held.inside
    obtain ⟨rest,rfl⟩ := Nat.exists_eq_add_of_le' several
    cases command : (slaveM s.arbiter).cmd with
    | idle => exact absurd command busy
    | rd => simpa [idle,command,accept,Phase.accepted,remaining] using inside
    | wr =>
      simp [idle,command,accept,Phase.accepted,remaining]
      omega

theorem owed_refuses (positive : 0 < burstLen) (owed : Owed burstLen i j s) : ¬accepts s x j := by
  intro taken
  cases owed with
  | during _ _ below =>
    rw [(accepts_free valid positive taken).1] at below
    exact not_lt_zero _ below
  | ahead _ before => exact before_turn before taken.1

-- The turn never leaves a master that has a command at the front.
theorem turn_step (positive : 0 < burstLen) (admitted : (system cnt burstLen lanes).admits s x) :
    (s.after burstLen x).arbiter.turnReg = s.arbiter.turnReg ∨
      (s.after burstLen x).arbiter.turnReg = turnNext s.arbiter.turnReg ∧ (slaveM s.arbiter).cmd = .idle := by
  by_cases quiet : (slaveM s.arbiter).cmd = .idle
  · simp only [State.after,system,next,quiet]
    cases s.arbiter.stateReg <;> simp only <;> split <;> simp
  · cases valid with
    | serving _ _ served _ => exact absurd (served.empty 0 positive) quiet
    | free idle _ waiting _ => exact .inl (turn_waits (waiting.imp_right And.right) quiet (free_silent admitted idle))

theorem owed_step (k : Nat) (power : burstLen = 2^(k+1)) (admitted : (errorFree cnt burstLen lanes).admits s x)
    (waits : ¬accepts s x i) (other : i ≠ j) (owed : Owed burstLen i j s) : Owed burstLen i j ((errorFree cnt burstLen lanes).next s x) := by
  have positive : 0 < burstLen := power ▸ Nat.two_pow_pos _
  cases owed with
  | ahead held before =>
    have front : (s.arbiter.mBuffer i 0).cmd ≠ .idle := held.here ▸ held.busy
    refine .ahead (holds_step valid admitted.1 held waits) ?_
    rcases turn_step valid positive admitted.1 with same | ⟨moved,idle⟩
    · exact same.symm ▸ before
    · refine moved.symm ▸ before_next before ?_
      rintro rfl
      exact front idle
  | @during p cmd turn held below =>
    have moved := holds_step valid admitted.1 held waits
    have later := @remaining_step burstLen lanes s.slave (slaveM s.arbiter) x.slave
    cases valid with
    | free idle _ _ _ =>
      rw [idle] at below
      exact absurd below (not_lt_zero _)
    | serving service _ served lanes' =>
      have good : x.slave.resp = .null ∨ x.slave.resp = .dva := answer_good admitted
      rcases service_step k power service admitted.1.2.1 admitted.1.2.2.1 good x.master with
        ⟨_,_,_,_,turnNext',idle⟩ | ⟨left,_,rest,same⟩
      · rw [idle] at later
        have front : p-1 = 0 := by
          have short : remaining s.slave ≤ 1 := later
          omega
        rw [front] at moved
        refine .ahead moved ?_
        rw [show ((errorFree cnt burstLen lanes).next s x).arbiter.turnReg = _ from turnNext',turn]
        exact before_begins other
      · have lasting := service_remaining rest
        refine .during (same.trans turn) moved ?_
        change p-1 < remaining (s.slave.next burstLen (slaveM s.arbiter) x.slave).outstanding
        omega
end Fair

structure Atomic (burstLen : Nat) (s : State cnt lanes) (x : Cycle cnt lanes) : Prop where
  connected : ∀ i, i ≠ s.arbiter.turnReg → bufferS s.arbiter x.slave i = ⟨.null,x.slave.data,false,false⟩
  delivered : x.slave.resp ≠ .null → s.arbiter.turnReg = s.issuer ∧ ∀ i,
    (masterS ((system cnt burstLen lanes).next s x).arbiter i).resp = (if i = s.issuer then x.slave.resp else .null) ∧
      (masterS ((system cnt burstLen lanes).next s x).arbiter i).data = x.slave.data
  awaited : ∀ i, (masterS s.arbiter i).resp ≠ .null → ∃ left, s.master i = .response (left+1)
  uninterrupted : s.slave ≠ .idle → s.arbiter.turnReg = s.issuer ∧ (slaveM s.arbiter).cmd = .idle

theorem bufferS_data (a : Arbiter cnt lanes) (slave : OcpBurstSlaveSignals lanes) (i : Fin cnt) :
    (bufferS a slave i).data = slave.data := by
  unfold bufferS
  split <;> rfl

theorem valid_atomic (positive : 0 < burstLen) (s : State cnt lanes) (x : Cycle cnt lanes) (valid : Valid burstLen s)
    (admitted : (system cnt burstLen lanes).admits s x) : Atomic burstLen s x where
  connected i other := bufferS_other x.slave other
  delivered resp := by
    cases valid with
    | free idle _ _ _ => exact absurd (free_silent admitted idle) resp
    | serving _ issued _ _ =>
      refine ⟨issued.symm,fun i => ⟨?_,bufferS_data _ _ i⟩⟩
      change (bufferS s.arbiter x.slave i).resp = _
      rw [issued,bufferS]
      split <;> rfl
  awaited i resp := by
    change (s.arbiter.sBuffer i).resp ≠ .null at resp
    rcases valid_lane valid i with lane | ⟨_,missing,served⟩
    · unfold LaneOf at lane
      generalize (s.arbiter.sBuffer i).resp = seen at lane resp
      generalize s.master i = phase at lane
      cases lane with
      | idle _ | pending _ => exact absurd rfl resp
      | done _ _ => exact ⟨0,rfl⟩
    · exact ⟨missing,by rw [served.phase,if_neg resp]⟩
  uninterrupted busy := by
    cases valid with
    | free idle _ _ _ => exact absurd idle busy
    | serving _ issued served _ => exact ⟨issued.symm,served.empty 0 positive⟩

def ServesAtomically (burstLen : Nat) (m : System (State cnt lanes) (Cycle cnt lanes)) : Prop :=
  ∀ s x, Reached m s → m.admits s x → Atomic burstLen s x

def ServesFairly (m : System (State cnt lanes) (Cycle cnt lanes)) : Prop :=
  ∀ start inputs i j begun u v, m.start start → i ≠ j → begun ≤ u → u < v → m.Follows start inputs (v+1) →
    ((inputs begun).master i).cmd ≠ .idle →
    (∀ w, begun ≤ w → w ≤ v → ¬accepts (m.states start inputs w) (inputs w) i) →
    accepts (m.states start inputs u) (inputs u) j → ¬accepts (m.states start inputs v) (inputs v) j

theorem runs_fair (k : Nat) (power : burstLen = 2^(k+1)) : ServesFairly (errorFree cnt burstLen lanes) := by
  intro start inputs i j begun u v begins other later twice follows presents waits first
  have several : 2 ≤ burstLen := power ▸ le_self_pow (succ_ne_zero k) 2
  have valid (t : Nat) (within : t ≤ v) : Valid burstLen ((errorFree cnt burstLen lanes).states start inputs t) :=
    reached_valid k power (Reached.states (.start begins) fun w earlier => follows w (by omega))
  have pending (t : Nat) (after : begun ≤ t) (within : t ≤ v) : ∃ p cmd,
      Holds burstLen (((errorFree cnt burstLen lanes).states start inputs (t+1)).arbiter.mBuffer i) p cmd := by
    induction t,after using le_induction with
    | base => exact ⟨_,_,presents_enters (valid begun within) (by omega) (follows begun (by omega)).1 presents⟩
    | succ t after ih =>
      obtain ⟨p,cmd,held⟩ := ih (by omega)
      exact ⟨_,_,holds_step (valid (t+1) within) (follows (t+1) (by omega)).1 held (waits (t+1) (by omega) within)⟩
  have owed (t : Nat) (after : u+1 ≤ t) (within : t ≤ v) :
      Owed burstLen i j ((errorFree cnt burstLen lanes).states start inputs t) := by
    induction t,after using le_induction with
    | base =>
      obtain ⟨p,cmd,held⟩ := pending u later (by omega)
      exact owed_begins (valid u (by omega)) several (follows u (by omega)).1 first held
    | succ t after ih =>
      exact owed_step (valid t (by omega)) k power (follows t (by omega)) (waits t (by omega) (by omega)) other (ih (by omega))
  exact owed_refuses (valid v le_rfl) (by omega) (owed v twice le_rfl)

theorem error_free_atomic_fair (cnt lanes k : Nat) :
    ServesAtomically (2^(k+1)) (errorFree cnt (2^(k+1)) lanes) ∧ ServesFairly (errorFree cnt (2^(k+1)) lanes) :=
  ⟨fun s x path admitted => valid_atomic (Nat.two_pow_pos _) s x (reached_valid k rfl path) admitted.1,runs_fair k rfl⟩

def initial (master : Fin cnt) : State cnt lanes :=
  ⟨⟨master,0,.sIdle,fun _ _ => .quiet,fun _ => .quiet⟩,fun _ => .idle,.idle,master⟩

-- Master 0 reads twice. The first burst is answered with ERR and DVA, of which the arbiter counts one, so that the
-- second burst ends after its first beat.
def readsAfterError : List (Cycle 2 4) :=
  let only (m : OcpBurstMasterSignals 4) : Fin 2 → OcpBurstMasterSignals 4 := fun i => if i = 0 then m else .quiet
  let idle : Cycle 2 4 := ⟨fun _ => .quiet,.quiet⟩
  [⟨only (.read 16),.quiet⟩,idle,⟨fun _ => .quiet,.accept⟩,⟨fun _ => .quiet,.answer .err⟩,⟨fun _ => .quiet,.answer .dva⟩,idle,
    ⟨only (.read 32),.quiet⟩,idle,⟨fun _ => .quiet,.accept⟩,⟨fun _ => .quiet,.answer .dva⟩]

theorem error_beat_misroutes : ¬∀ cnt burstLen : Nat, ServesAtomically burstLen (system cnt burstLen 4) := by
  intro atomic
  have begins : (system 2 2 4).start (initial 0) := ⟨rfl,rfl,rfl,fun _ _ => rfl,fun _ => rfl,fun _ => rfl,rfl⟩
  have path := (Reached.start begins).run readsAfterError (by decide +kernel)
  have beat := (atomic 2 2 _ ⟨fun _ => .quiet,.answer .dva⟩ path (by decide +kernel)).delivered (by decide)
  exact absurd beat.1 (by decide +kernel)
end Patmos.RoundRobinArbiter
