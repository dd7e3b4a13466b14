import Patmos.MiiHeader
namespace Patmos.Mii
open Transition

-- What has come over the line, as the sampling registers show it. The frame that is under way is in `bytes` with its
-- preamble, the one before it in `last` without.
structure Line where
  nibble : Option (BitVec 4)
  bytes : List (BitVec 8)
  -- Cycles since the last byte was complete.
  recent : Nat
  stamp : BitVec 64
  busy : Bool
  idled : Bool
  last : Option (List (BitVec 8) × BitVec 64)

namespace Line
variable (l : Line)

def quiet : Line := ⟨none,[],5,0,false,false,none⟩

def framed : Bool := l.bytes ≠ [] ∨ l.nibble.isSome

-- The low half of a byte comes first.
def byte (edge : Bool) (data : BitVec 4) : Option (BitVec 8) := if edge then l.nibble.map (data ++ ·) else none
def pending (edge : Bool) (data : BitVec 4) : Option (BitVec 4) :=
  if edge then if l.nibble.isSome then none else some data else l.nibble

-- The time of the delimiter is the time at which its last nibble is three cycles old.
def next (edge valid : Bool) (data : BitVec 4) (rtcTimestamp : BitVec 64) : Line where
  nibble := if valid then l.pending edge data else none
  bytes := if valid then l.bytes ++ (l.byte edge data).toList else []
  recent := if valid then if (l.byte edge data).isSome then 1 else l.recent+1 else 5
  stamp := if l.recent = 3 ∧ l.bytes.length = 8 then rtcTimestamp else l.stamp
  busy := valid
  idled := !valid && (l.idled || edge)
  last := if valid then l.last else if l.framed then some (l.bytes.drop 8,l.stamp) else l.last
end Line

structure State where
  unit : MIITimestampUnit
  line : Line

abbrev Cycle := MIITimestampUnit.Inputs

def State.next (s : State) (i : Cycle) : State :=
  ⟨s.unit.next i,s.line.next s.unit.risingMIIEdge s.unit.validPHYData s.unit.miiDataReg2 i.rtcTimestamp⟩

structure Fresh (u : MIITimestampUnit) : Prop where
  state : u.parser.stateReg = .stCollectSFD
  unclear : u.parser.bufClrReg = false
  count : u.deserializePHYbyte.countReg = 0
  done : u.deserializePHYbyte.doneReg = false
  buffer : u.deserializePHYBuffer.shiftReg = 0
  write : u.wrByteReg = false
  seen : u.regBuffer = 0

-- A frame begins with its preamble, and only behind an idle cycle of the MII clock.
def system : System State Cycle where
  start := fun s => Fresh s.unit ∧ s.line = .quiet
  admits := fun s i =>
    (s.unit.validPHYData = true → s.line.busy = true ∨ s.line.idled = true) ∧ (s.next i).line.bytes.take 8 <+: sfd
  next := State.next

def Whole (s : State) (_ : Cycle) : Prop :=
  s.unit.validPHYData = false → s.line.framed = true →
    Complete (s.line.bytes.drop 8) ∧ (CarriesPtp (s.line.bytes.drop 8) → Plain (s.line.bytes.drop 8))

instance (s : State) (i : Cycle) : Decidable (system.admits s i) := inferInstanceAs (Decidable (_ ∧ _))
instance (s : State) (i : Cycle) : Decidable (Whole s i) := inferInstanceAs (Decidable (_ → _ → _))

structure Timestamps (s : State) : Prop where
  collects : s.line.busy = false → s.unit.parser.stateReg = .stCollectSFD
  stored : ∀ body stamp, s.line.busy = false → s.line.last = some (body,stamp) → CarriesPtp body →
    s.unit.rtcTimestampReg = stamp

attribute [local simp] MIITimestampUnit.next Deserializer.next

section Timing
variable {s : State} {i : Cycle}

def State.byte (s : State) : Option (BitVec 8) := s.line.byte s.unit.risingMIIEdge s.unit.miiDataReg2

theorem line_waits (valid : s.unit.validPHYData = true) (waits : s.byte = none) :
    (s.next i).line.bytes = s.line.bytes ∧ (s.next i).line.recent = s.line.recent+1 := by
  unfold State.byte at waits
  simp [State.next,Line.next,valid,waits]

theorem line_completes (valid : s.unit.validPHYData = true) (complete : s.byte = some byte) :
    (s.next i).line.bytes = s.line.bytes ++ [byte] ∧ (s.next i).line.recent = 1 := by
  unfold State.byte at complete
  simp [State.next,Line.next,valid,complete]

theorem no_edge {u : MIITimestampUnit} (high : u.miiClkReg2 = true) : u.risingMIIEdge = false := by
  simp [MIITimestampUnit.risingMIIEdge,high]

theorem edge_high {u : MIITimestampUnit} (edge : u.risingMIIEdge = true) : u.miiClkReg = true := by
  simp only [MIITimestampUnit.risingMIIEdge,Bool.and_eq_true] at edge
  exact edge.1

theorem byte_some (complete : s.byte = some byte) :
    s.unit.risingMIIEdge = true ∧ ∃ low, s.line.nibble = some low ∧ byte = s.unit.miiDataReg2 ++ low := by
  unfold State.byte Line.byte at complete
  cases edge : s.unit.risingMIIEdge with
  | false => simp [edge] at complete
  | true =>
    simp only [edge,if_true,Option.map_eq_some_iff] at complete
    obtain ⟨low,pending,rfl⟩ := complete
    exact ⟨rfl,low,pending,rfl⟩

structure Timed (u : MIITimestampUnit) (l : Line) : Prop where
  counted : l.recent ≠ 0
  fresh : l.bytes = [] → 5 ≤ l.recent
  first : l.recent = 1 → u.miiClkReg2 = true ∧ l.nibble = none
  second : l.recent = 2 → l.nibble = none
  third : l.recent = 3 → l.nibble.isSome = true → u.miiClkReg2 = true

theorem Timed.complete (timed : Timed s.unit s.line) (complete : s.byte = some byte) : 4 ≤ s.line.recent := by
  obtain ⟨edge,low,pending,-⟩ := byte_some complete
  have high : s.line.recent = 3 → s.unit.miiClkReg2 = true := fun now => timed.third now (by rw [pending]; rfl)
  by_contra early
  have recents : s.line.recent = 0 ∨ s.line.recent = 1 ∨ s.line.recent = 2 ∨ s.line.recent = 3 := by omega
  rcases recents with now | now | now | now
  · exact timed.counted now
  · simp [(timed.first now).2] at pending
  · simp [timed.second now] at pending
  · rw [no_edge (high now)] at edge
    cases edge

theorem timed_step (timed : Timed s.unit s.line) : Timed (s.next i).unit (s.next i).line := by
  cases valid : s.unit.validPHYData with
  | false => constructor <;> simp [State.next,Line.next,valid]
  | true =>
    have pending : (s.next i).line.nibble = s.line.pending s.unit.risingMIIEdge s.unit.miiDataReg2 := by
      simp [State.next,Line.next,valid]
    have clock : (s.next i).unit.miiClkReg2 = s.unit.miiClkReg := rfl
    cases complete : s.byte with
    | some byte =>
      obtain ⟨bytes,recent⟩ := line_completes (i := i) valid complete
      obtain ⟨edge,low,half,-⟩ := byte_some complete
      have none : (s.next i).line.nibble = none := by rw [pending,Line.pending,edge,half]; rfl
      constructor <;> simp [recent,bytes,none,clock,edge_high edge]
    | none =>
      obtain ⟨bytes,recent⟩ := line_waits (i := i) valid complete
      constructor
      · omega
      · rw [bytes,recent]
        exact fun empty => Nat.le_succ_of_le (timed.fresh empty)
      · intro now
        exact absurd (show s.line.recent = 0 by omega) timed.counted
      · intro now
        obtain ⟨high,none⟩ := timed.first (by omega)
        rw [pending,Line.pending,no_edge high,none]
        rfl
      · intro now half
        have none := timed.second (by omega)
        apply edge_high
        by_contra still
        rw [pending,Line.pending,none,Bool.eq_false_iff.mpr still] at half
        cases half

-- The bytes that have passed a register n cycles behind the line.
def Line.before (l : Line) (n : Nat) : List (BitVec 8) := if l.recent ≤ n then l.bytes.dropLast else l.bytes

structure Shifting (u : MIITimestampUnit) (l : Line) : Prop where
  count : u.deserializePHYbyte.countReg = if l.nibble.isSome then 1 else 0
  low : ∀ low, l.nibble = some low → u.deserializePHYbyte.shiftReg >>> 4 = low.setWidth 8
  byte : l.recent = 1 → l.bytes = l.bytes.dropLast ++ [u.deserializePHYbyte.shiftReg]
  done : u.deserializePHYbyte.doneReg = decide (l.recent = 1)
  buffer : u.deserializePHYBuffer.shiftReg = bufferOf (l.before 1)
  write : u.wrByteReg = decide (l.recent = 2)
  seen : u.regBuffer = bufferOf (l.before 2)

theorem before_waits (valid : s.unit.validPHYData = true) (waits : s.byte = none) (n : Nat) :
    (s.next i).line.before (n+1) = s.line.before n := by
  obtain ⟨bytes,recent⟩ := line_waits (i := i) valid waits
  simp [Line.before,bytes,recent]

theorem before_completes (valid : s.unit.validPHYData = true) (complete : s.byte = some byte) (n : Nat) :
    (s.next i).line.before (n+1) = s.line.bytes := by
  obtain ⟨bytes,recent⟩ := line_completes (i := i) valid complete
  simp [Line.before,bytes,recent]

theorem nibble_shifted (first second : BitVec 4) (shiftReg : BitVec 8) (low : shiftReg >>> 4 = first.setWidth 8) :
    (shiftReg >>> 4) ||| (second.setWidth 8 <<< 4) = second ++ first := by
  rw [low]
  clear low
  revert first second
  decide

theorem nibble_high (data : BitVec 4) (shiftReg : BitVec 8) :
    ((shiftReg >>> 4) ||| (data.setWidth 8 <<< 4)) >>> 4 = data.setWidth 8 := by
  apply BitVec.eq_of_getLsbD_eq
  intro i inside
  have above : shiftReg.getLsbD (4+(4+i)) = false := BitVec.getLsbD_of_ge _ _ (by omega)
  by_cases low : i < 4
  · have within : 4+i < 8 := by omega
    simp [above,within,inside]
  · have beyond : data.getLsbD i = false := BitVec.getLsbD_of_ge _ _ (by omega)
    simp [above,beyond]

theorem shifting_step (timed : Timed s.unit s.line) (shifting : Shifting s.unit s.line) (valid : s.unit.validPHYData = true)
    (unclear : s.unit.parser.bufClrReg = false) (follows : s.unit.parser.stateReg ≠ .stEOF) :
    Shifting (s.next i).unit (s.next i).line := by
  have pending : (s.next i).line.nibble = s.line.pending s.unit.risingMIIEdge s.unit.miiDataReg2 := by
    simp [State.next,Line.next,valid]
  have phyByte : (s.next i).unit.deserializePHYbyte =
      s.unit.deserializePHYbyte.next false s.unit.risingMIIEdge false s.unit.miiDataReg2 := by
    simp [State.next,valid,unclear]
  have phyBuffer : (s.next i).unit.deserializePHYBuffer =
      s.unit.deserializePHYBuffer.next true s.unit.deserializePHYbyte.doneReg false s.unit.deserializePHYbyte.shiftReg := by
    simp [State.next,unclear]
  have write : (s.next i).unit.wrByteReg = s.unit.deserializePHYbyte.doneReg := rfl
  have seen : (s.next i).unit.regBuffer = s.unit.deserializePHYBuffer.shiftReg := by
    simp [State.next,follows]
  constructor
  · rw [phyByte,pending]
    cases edge : s.unit.risingMIIEdge <;> cases half : s.line.nibble <;>
      simp [Deserializer.shiftAmount,shifting.count,half,Line.pending]
  · rw [phyByte,pending]
    cases edge : s.unit.risingMIIEdge with
    | false => simpa [Line.pending] using shifting.low
    | true =>
      cases half : s.line.nibble with
      | none =>
        intro low same
        obtain rfl : s.unit.miiDataReg2 = low := by simpa [Line.pending,half] using same
        exact nibble_high _ _
      | some first => simp [Line.pending,half]
  · intro now
    cases complete : s.byte with
    | none =>
      rw [(line_waits (i := i) valid complete).2] at now
      exact absurd (show s.line.recent = 0 by omega) timed.counted
    | some byte =>
      obtain ⟨edge,first,half,rfl⟩ := byte_some complete
      rw [(line_completes (i := i) valid complete).1,List.dropLast_concat,phyByte,edge,
        ← nibble_shifted first _ _ (shifting.low first half)]
      rfl
  · rw [phyByte]
    cases complete : s.byte with
    | none =>
      rw [(line_waits (i := i) valid complete).2]
      have counted := timed.counted
      cases edge : s.unit.risingMIIEdge with
      | false => simp [counted]
      | true =>
        have none : s.line.nibble = none := by simpa [State.byte,Line.byte,edge] using complete
        simp [counted,Deserializer.shiftAmount,shifting.count,none]
    | some byte =>
      obtain ⟨edge,first,half,-⟩ := byte_some complete
      rw [(line_completes (i := i) valid complete).2]
      simp [Deserializer.shiftAmount,shifting.count,edge,half]
  · rw [phyBuffer]
    have moved : (s.unit.deserializePHYBuffer.next true s.unit.deserializePHYbyte.doneReg false
        s.unit.deserializePHYbyte.shiftReg).shiftReg = bufferOf (s.line.before 0) := by
      have counted := timed.counted
      by_cases now : s.line.recent = 1
      · have whole : bufferOf s.line.bytes = push (bufferOf s.line.bytes.dropLast) s.unit.deserializePHYbyte.shiftReg := by
          rw [← bufferOf_snoc,← shifting.byte now]
        simp only [shifting.done]
        simp [whole,Deserializer.shifted,shifting.buffer,Line.before,now,push]
      · have later : ¬s.line.recent ≤ 1 := by omega
        simp [shifting.done,shifting.buffer,Line.before,now,later,counted]
    rw [moved]
    have counted := timed.counted
    cases complete : s.byte with
    | none => rw [before_waits valid complete]
    | some byte =>
      rw [before_completes valid complete]
      simp [Line.before,counted]
  · rw [write,shifting.done]
    cases complete : s.byte with
    | none =>
      rw [(line_waits (i := i) valid complete).2]
      simp
    | some byte =>
      have late := timed.complete complete
      rw [(line_completes (i := i) valid complete).2]
      simp
      omega
  · rw [seen,shifting.buffer]
    cases complete : s.byte with
    | none => rw [before_waits valid complete]
    | some byte =>
      have late := timed.complete complete
      rw [before_completes valid complete,Line.before,if_neg (by omega)]

structure Clean (u : MIITimestampUnit) : Prop where
  count : u.deserializePHYbyte.countReg = 0
  done : u.deserializePHYbyte.doneReg = false
  buffer : u.deserializePHYBuffer.shiftReg = 0
  seen : u.regBuffer = 0

theorem clean_shifting {u : MIITimestampUnit} {l : Line} (clean : Clean u) (unwritten : u.wrByteReg = false) (none : l.nibble = none)
    (empty : l.bytes = []) (long : 5 ≤ l.recent) : Shifting u l := by
  have first : l.recent ≠ 1 := by omega
  have second : l.recent ≠ 2 := by omega
  have nothing (n : Nat) : l.before n = [] := by simp [Line.before,empty]
  constructor
  · simp [clean.count,none]
  · simp [none]
  · exact fun now => absurd now first
  · simp [clean.done,first]
  · rw [clean.buffer,nothing]
    rfl
  · simp [unwritten,second]
  · rw [clean.seen,nothing]
    rfl

theorem shifting_clean {u : MIITimestampUnit} {l : Line} (shifting : Shifting u l) (none : l.nibble = none)
    (empty : l.bytes = []) (long : 5 ≤ l.recent) : Clean u := by
  have first : l.recent ≠ 1 := by omega
  have nothing (n : Nat) : l.before n = [] := by simp [Line.before,empty]
  constructor
  · simp [shifting.count,none]
  · simp [shifting.done,first]
  · rw [shifting.buffer,nothing]
    rfl
  · rw [shifting.seen,nothing]
    rfl

theorem clean_step (clean : Clean s.unit) (quiet : (s.unit.risingMIIEdge && s.unit.validPHYData) = false) :
    Clean (s.next i).unit ∧ (s.next i).unit.wrByteReg = false := by
  refine ⟨⟨?_,?_,?_,?_⟩,clean.done⟩
  · simp [State.next,quiet,clean.count]
  · simp [State.next,quiet]
  · simp [State.next,clean.done,clean.buffer]
  · simp [State.next,clean.buffer]
end Timing
end Patmos.Mii
