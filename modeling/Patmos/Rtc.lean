import Patmos.OcpSignals
import Patmos.Ptp1588
import Patmos.TransitionSystem
namespace Patmos
open Transition

structure RegisterCommand where
  cmd : OcpCmd
  addr : BitVec 32
  data : BitVec 32

-- The tick counts half nanoseconds. Time is a pair of words, the seconds above.
structure Rtc where
  masterReg : RegisterCommand
  nsOffsetReg : BitVec 33
  timeReg : Ptp.Time
  secTickReg : BitVec 32
  nsTickReg : BitVec 33
  updateSecReg : Bool
  updateNsReg : Bool
  ppsReg : Bool
  ppsHoldCountReg : Nat
  respReg : OcpResp
  dataReg : BitVec 32

namespace Rtc
def timeStep : Int := 25
def secInNano : BitVec 33 := 2*1000000000
def milliInNano : Int := 1000000
def microInNano : Int := 1000
def hundredNano : Int := 100
def fiftyNano : Int := 50

def correction (offset : Int) : Int :=
  if offset < -microInNano ∧ -milliInNano ≤ offset then timeStep
  else if offset < -hundredNano ∧ -microInNano ≤ offset then timeStep.tdiv 2
  else if offset < -fiftyNano ∧ -hundredNano ≤ offset then timeStep.tdiv 4
  else if offset < 0 ∧ -fiftyNano ≤ offset then 1
  else if 0 < offset ∧ offset ≤ fiftyNano then -1
  else if fiftyNano < offset ∧ offset ≤ hundredNano then (-timeStep).tdiv 4
  else if hundredNano < offset ∧ offset ≤ microInNano then (-timeStep).tdiv 2
  else if microInNano < offset ∧ offset ≤ milliInNano then -timeStep
  else 0

variable (r : Rtc)

def correctionStep : BitVec 33 := .ofInt 33 (correction r.nsOffsetReg.toInt)
def nsIncrement : BitVec 33 := .ofInt 33 timeStep+r.correctionStep
def nextNano : BitVec 33 := r.nsTickReg+r.nsIncrement

def writes (offset : BitVec 6) : Bool := r.masterReg.cmd = .wr ∧ r.masterReg.addr.extractLsb' 0 6 = offset
def reads (offset : BitVec 6) : Bool := r.masterReg.cmd = .rd ∧ r.masterReg.addr.extractLsb' 0 6 = offset

def second : Bool := secInNano ≤ r.nsTickReg

-- The counter starts a new second. An update of the nanoseconds goes first.
def rollover : Bool := !r.updateNsReg && r.second

def secTickNext : BitVec 32 :=
  if r.rollover then r.secTickReg+1 else if r.updateSecReg then r.timeReg.seconds else r.secTickReg

def nsTickNext : BitVec 33 :=
  if r.updateNsReg then r.timeReg.nanoseconds ++ 0#1 else if r.second then r.nextNano-secInNano else r.nextNano

def nsOffsetNext : BitVec 33 :=
  if r.writes 0x20 then r.masterReg.data.signExtend 33
  else if r.updateNsReg then r.nsOffsetReg else r.nsOffsetReg+r.correctionStep

def timeNext : Ptp.Time :=
  if r.masterReg.cmd ≠ .wr then ⟨r.secTickReg,r.nsTickReg.extractLsb' 1 32⟩
  else if r.writes 0x00 then ⟨0,r.masterReg.data⟩
  else if r.writes 0x04 then ⟨r.masterReg.data,0⟩ else r.timeReg

def next (ppsDuration : Nat) (x : RegisterCommand) : Rtc where
  masterReg := x
  nsOffsetReg := r.nsOffsetNext
  timeReg := r.timeNext
  secTickReg := r.secTickNext
  nsTickReg := r.nsTickNext
  updateSecReg := r.writes 0x04
  updateNsReg := r.writes 0x00
  ppsReg := if r.ppsReg then 25 < r.ppsHoldCountReg else secInNano-r.nsIncrement ≤ r.nsTickReg
  ppsHoldCountReg :=
    if r.ppsReg then if 25 < r.ppsHoldCountReg then r.ppsHoldCountReg-25 else ppsDuration else r.ppsHoldCountReg
  respReg := if r.masterReg.cmd = .idle then .null else .dva
  dataReg :=
    if r.reads 0x00 then r.timeReg.nanoseconds
    else if r.reads 0x04 then r.timeReg.seconds
    else if r.reads 0x20 then r.nsOffsetReg.extractLsb' 1 32 else r.dataReg

structure Reset (initialTime : BitVec 32) (ppsDuration : Nat) : Prop where
  noCommand : r.masterReg.cmd = .idle
  nsOffset : r.nsOffsetReg = 0
  time : r.timeReg = ⟨0,0⟩
  secTick : r.secTickReg = initialTime
  nsTick : r.nsTickReg = 0
  noUpdate : r.updateSecReg = false ∧ r.updateNsReg = false
  pps : r.ppsReg = false ∧ r.ppsHoldCountReg = ppsDuration

-- What is written to the nanoseconds is less than a second.
def Sound (x : RegisterCommand) : Prop := x.cmd = .wr → x.addr.extractLsb' 0 6 = 0x00 → x.data.toNat < 10^9

def system (initialTime : BitVec 32) (ppsDuration : Nat) : System Rtc RegisterCommand where
  start r := r.Reset initialTime ppsDuration
  admits _ x := Sound x
  next r x := r.next ppsDuration x

def Bounded (m : System Rtc RegisterCommand) : Prop := ∀ r, Reached m r → r.timeReg.nanoseconds.toNat < 10^9

-- What happens to the seconds. A write counts from the cycle on in which the time register holds it.
inductive SecondsEvent where
  | rollover
  | write (value : BitVec 32)

def SecondsEvent.apply (seconds : BitVec 32) : SecondsEvent → BitVec 32
  | rollover => seconds+1
  | write value => value

def secondsEvents (r : Rtc) (_ : RegisterCommand) : List SecondsEvent :=
  (if r.rollover then [.rollover] else []) ++ (if r.writes 0x04 then [.write r.masterReg.data] else [])

def seconds : BitVec 32 := if r.updateSecReg then r.timeReg.seconds else r.secTickReg

def SecondsKept (m : System Rtc RegisterCommand) : Prop :=
  ∀ r inputs, m.start r → m.Admits r inputs →
    seconds (m.run r inputs) = (m.record secondsEvents r inputs).foldl SecondsEvent.apply r.seconds

-- The time is not sampled while the counter stands at a full second, and the seconds are not updated in a cycle that
-- starts a new one.
structure Clear (r : Rtc) (_ : RegisterCommand) : Prop where
  sampled : r.second = true → r.masterReg.cmd = .wr
  updated : r.updateSecReg = true → r.rollover = false

structure Regular : Prop where
  command : Sound r.masterReg
  time : r.timeReg.nanoseconds.toNat < 10^9

section Step
variable {r : Rtc} {x : RegisterCommand} {ppsDuration : Nat}

theorem nanoseconds_sampled (below : r.second = false) : (r.nsTickReg.extractLsb' 1 32).toNat < 10^9 := by
  have limit : ¬secInNano.toNat ≤ r.nsTickReg.toNat := by simpa [second,BitVec.le_def] using below
  have value : secInNano.toNat = 2*10^9 := by decide
  rw [BitVec.extractLsb'_toNat]
  omega

theorem time_next (regular : r.Regular) (clear : Clear r x) : r.timeNext.nanoseconds.toNat < 10^9 := by
  unfold timeNext
  split
  next sampled =>
    apply nanoseconds_sampled
    cases full : r.second with
    | false => rfl
    | true => exact absurd (clear.sampled full) sampled
  next =>
    split
    next written =>
      simp only [writes,decide_eq_true_eq] at written
      exact regular.command written.1 written.2
    next =>
      split
      · show 0 < 10^9
        decide
      · exact regular.time

theorem writes_sec (written : r.writes 0x04 = true) : r.timeNext.seconds = r.masterReg.data := by
  have command := written
  simp only [writes,decide_eq_true_eq] at command
  have other : r.writes 0x00 = false := by
    simp only [writes,command.2,decide_eq_false_iff_not]
    exact fun both => absurd both.2 (by decide)
  unfold timeNext
  rw [if_neg (not_not.mpr command.1),other,if_pos written]
  rfl

theorem seconds_next (clear : Clear r x) :
    (r.next ppsDuration x).seconds = (secondsEvents r x).foldl SecondsEvent.apply r.seconds := by
  unfold secondsEvents
  rw [List.foldl_append]
  cases written : r.writes 0x04 with
  | true =>
    show (if r.writes 0x04 then r.timeNext.seconds else r.secTickNext) = r.masterReg.data
    rw [if_pos written,writes_sec written]
  | false =>
    show (if r.writes 0x04 then r.timeNext.seconds else r.secTickNext) = _
    rw [written]
    unfold secTickNext seconds
    cases rolls : r.rollover with
    | false => rfl
    | true =>
      cases updates : r.updateSecReg with
      | false => rfl
      | true => exact absurd (rolls.symm.trans (clear.updated updates)) (by decide)
end Step

theorem reset_regular {r : Rtc} (reset : r.Reset initialTime ppsDuration) : r.Regular := by
  refine ⟨fun wr _ => ?_,?_⟩
  · rw [reset.noCommand] at wr
    cases wr
  · rw [reset.time]
    decide

theorem rtc_time_kept (initialTime : BitVec 32) (ppsDuration : Nat) :
    Bounded ((system initialTime ppsDuration).restrict Clear) ∧ SecondsKept ((system initialTime ppsDuration).restrict Clear) := by
  constructor
  · intro r path
    have regular : r.Regular :=
      path.invariant (fun r reset => reset_regular reset) fun r x regular admitted => ⟨admitted.1,time_next regular admitted.2⟩
    exact regular.time
  · intro r inputs reset admitted
    exact (Reached.start reset).record_replay (fun r x _ stepped => seconds_next stepped.2) inputs admitted

section Runs
instance (x : RegisterCommand) : Decidable (Sound x) := inferInstanceAs (Decidable (_ → _))

instance (initialTime : BitVec 32) (ppsDuration : Nat) (r : Rtc) (x : RegisterCommand) :
    Decidable ((system initialTime ppsDuration).admits r x) := inferInstanceAs (Decidable (Sound x))

instance (r : Rtc) (x : RegisterCommand) : Decidable (Clear r x) :=
  decidable_of_iff ((r.second = true → r.masterReg.cmd = .wr) ∧ (r.updateSecReg = true → r.rollover = false))
    ⟨fun ⟨sampled,updated⟩ => ⟨sampled,updated⟩,fun clear => ⟨clear.sampled,clear.updated⟩⟩

def begin : Rtc := ⟨⟨.idle,0,0⟩,0,⟨0,0⟩,0,0,false,false,false,20000,.null,0⟩

theorem begin_reset : begin.Reset 0 20000 := ⟨rfl,rfl,rfl,rfl,rfl,⟨rfl,rfl⟩,⟨rfl,rfl⟩⟩

def rest : RegisterCommand := ⟨.idle,0,0⟩
def write (offset : BitVec 32) (data : BitVec 32) : RegisterCommand := ⟨.wr,offset,data⟩
end Runs

-- The new second starts while a write of the offset is carried out.
theorem rtc_time_kept_rollover :
    seconds ((system 0 20000).run begin [write 0x00 999999999,write 0x04 7,rest,write 0x20 0,rest]) = 8 ∧
    seconds ((system 0 20000).run begin [write 0x00 999999999,write 0x04 7,rest,write 0x20 0,rest]) =
      ((system 0 20000).record secondsEvents begin [write 0x00 999999999,write 0x04 7,rest,write 0x20 0,rest]).foldl
        SecondsEvent.apply 0 :=
  ⟨by decide +kernel,(rtc_time_kept 0 20000).2 begin
    [write 0x00 999999999,write 0x04 7,rest,write 0x20 0,rest] begin_reset (by decide +kernel)⟩

-- The counter passes a full second before it is compared. A sample in that cycle shows it, and an update of the seconds
-- in that cycle is lost.
theorem full_second_shown : ¬Bounded (system 0 20000) ∧ ¬SecondsKept (system 0 20000) := by
  have admitted : (system 0 20000).Admits begin [write 0x00 999999999,rest,write 0x04 7,rest,rest] := by decide +kernel
  constructor
  · intro bounded
    have shown := bounded _ ((Reached.start begin_reset).run _ admitted)
    exact absurd shown (by decide +kernel)
  · intro kept
    have counted := kept begin _ begin_reset admitted
    exact absurd counted (by decide +kernel)
end Rtc
end Patmos
