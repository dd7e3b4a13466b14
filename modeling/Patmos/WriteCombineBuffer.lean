import Patmos.TransitionSystem
import Patmos.BurstMemory
namespace Patmos
inductive WriteCombineState where
  | idle
  | read
  | write
  | writeResp
  | writeComb
  | writeSnoop
  deriving DecidableEq, Repr

-- The bytes of one line that have been written and not yet sent on.
structure CombineLine where
  dataBuffer : Nat → Word 4
  byteEnBuffer : Nat → ByteEn 4

namespace CombineLine
section
variable (b : CombineLine) (pos : Nat) (data : Word 4) (byteEn : ByteEn 4)

def combine : CombineLine where
  dataBuffer := Function.update b.dataBuffer pos (BurstMemory.merge (b.dataBuffer pos) data byteEn)
  byteEnBuffer := Function.update b.byteEnBuffer pos fun i => b.byteEnBuffer pos i || byteEn i

def clear : CombineLine := {b with byteEnBuffer := Function.update b.byteEnBuffer pos fun _ => false}

def replace : CombineLine where
  dataBuffer := Function.update b.dataBuffer pos data
  byteEnBuffer := Function.update b.byteEnBuffer pos byteEn
end
end CombineLine

structure WriteCombineBuffer extends CombineLine where
  state : WriteCombineState
  cntReg : Nat
  writeMasterReg : OcpCoreMasterSignals 4
  readMasterReg : OcpBurstMasterSignals 4
  tagReg : Nat
  hitReg : Bool
  dataAcceptReg : Bool

namespace WriteCombineBuffer
-- The burst length is 2^bits, bits being burstAddrBits.
def tag (bits addr : Nat) : Nat := addr/4/2^bits
def pos (bits addr : Nat) : Nat := addr/4 % 2^bits
section
variable (bits : Nat) (c : WriteCombineBuffer) (readM : OcpBurstMasterSignals 4) (writeM : OcpCoreMasterSignals 4) (s : OcpBurstSlaveSignals 4)

def wrPos : Nat := pos bits c.writeMasterReg.addr

def slaveM : OcpBurstMasterSignals 4 :=
  if c.state = .write ∧ readM.cmd ≠ .rd then
    { cmd := if c.cntReg = 0 then .wr else readM.cmd
      addr := if c.cntReg = 0 then c.tagReg*2^bits*4 else readM.addr
      data := c.dataBuffer c.cntReg
      dataValid := true
      dataByteEn := c.byteEnBuffer c.cntReg }
  else readM

def readS : OcpBurstSlaveSignals 4 :=
  match c.state with
  | .read => if c.hitReg then {s with data := BurstMemory.merge s.data (c.dataBuffer c.cntReg) (c.byteEnBuffer c.cntReg)} else s
  | .write | .writeResp => {s with resp := .null}
  | .idle | .writeComb | .writeSnoop => s

def writeS : OcpSlaveSignals 4 where
  resp :=
    match c.state with
    | .writeResp => s.resp
    | .writeComb => .dva
    | .idle | .read | .write | .writeSnoop => .null
  data := s.data

def snooped : CombineLine :=
  if c.dataAcceptReg ∧ c.hitReg then c.combine c.cntReg c.readMasterReg.data c.readMasterReg.dataByteEn else c.toCombineLine

def lineNext : CombineLine :=
  match c.state with
  | .write =>
    if s.dataAccept then
      if c.cntReg = c.wrPos bits then c.replace c.cntReg c.writeMasterReg.data c.writeMasterReg.byteEn else c.clear c.cntReg
    else c.toCombineLine
  | .writeComb => c.combine (c.wrPos bits) c.writeMasterReg.data c.writeMasterReg.byteEn
  | .writeSnoop => c.snooped
  | .idle | .read | .writeResp => c.toCombineLine

-- A command that starts overrides where the machine would go by itself.
def stateNext : WriteCombineState :=
  match c.state with
  | .idle => .idle
  | .read => if s.resp ≠ .null ∧ c.cntReg = 2^bits-1 then .idle else .read
  | .write => if c.cntReg = 2^bits-1 then .writeResp else .write
  | .writeResp => if s.resp ≠ .null then .idle else .writeResp
  | .writeComb => .idle
  | .writeSnoop => if c.cntReg = 2^bits-1 then .idle else .writeSnoop

def next : WriteCombineBuffer where
  toCombineLine := c.lineNext bits s
  state :=
    if readM.cmd = .wr then .writeSnoop
    else if writeM.cmd = .wr then if c.tagReg = tag bits writeM.addr then .writeComb else .write
    else if readM.cmd = .rd then .read else c.stateNext bits s
  cntReg :=
    if c.state = .read ∧ s.resp ≠ .null ∨ c.state = .write ∧ s.dataAccept ∨ c.state = .writeSnoop ∧ c.dataAcceptReg
    then (c.cntReg+1) % 2^bits else c.cntReg
  writeMasterReg := if writeM.cmd = .wr then writeM else c.writeMasterReg
  readMasterReg := readM
  tagReg := if c.state = .write ∧ s.dataAccept then tag bits c.writeMasterReg.addr else c.tagReg
  hitReg := if readM.cmd ≠ .idle then c.tagReg = tag bits readM.addr else c.hitReg
  dataAcceptReg := s.dataAccept
end
end WriteCombineBuffer

namespace WriteCombine
open Transition WriteCombineBuffer

inductive Transaction where
  | none
  | write
  | read (addr : Nat)
  | spill (addr : Nat)

-- The value last written to each byte, and the values written to it and received for it by main memory, oldest first.
structure State where
  buffer : WriteCombineBuffer
  memory : BurstMemory.State 4
  core : Transaction
  latest : Nat → Word 4
  issued : Nat → Fin 4 → List (BitVec 8)
  arrived : Nat → Fin 4 → List (BitVec 8)

structure Cycle where
  readM : OcpBurstMasterSignals 4
  writeM : OcpCoreMasterSignals 4
  slave : OcpBurstSlaveSignals 4

section
variable (bits : Nat) (s : State) (x : Cycle)

-- The transaction in progress, if any, ends in this cycle.
def done : Bool :=
  match s.core,s.memory.phase with
  | .none,_ => true
  | .write,_ => (s.buffer.writeS x.slave).resp ≠ .null
  | .read _,.read _ beat => beat = 2^bits-1 ∧ x.slave.resp ≠ .null
  | .spill _,.ack => x.slave.resp ≠ .null
  | _,_ => false

-- A command is held until it is accepted, and the words of a spill are offered without a pause.
def Holds : Prop :=
  match s.core,s.memory.phase with
  | .read addr,.idle => x.readM.cmd = .rd ∧ x.readM.addr = addr
  | .spill addr,.idle => x.readM.cmd = .wr ∧ x.readM.addr = addr
  | .spill _,.write _ _ => x.readM.cmd = .idle ∧ x.readM.dataValid = true
  | _,_ => x.readM.cmd = .idle

-- The ports serve one core: a transaction starts when none is in progress, on the read port after the last response of
-- the memory.
def Offers : Prop :=
  if done bits s x then x.readM.cmd = .idle ∨ x.writeM.cmd ≠ .wr ∧ s.memory.phase = .idle
  else x.writeM.cmd ≠ .wr ∧ Holds s x

def Aligned (m : OcpBurstMasterSignals 4) : Prop := m.cmd ≠ .idle → m.addr = tag bits m.addr*2^bits*4

def coreNext : Transaction :=
  if x.readM.cmd = .wr then .spill x.readM.addr
  else if x.writeM.cmd = .wr then .write
  else if x.readM.cmd = .rd then .read x.readM.addr
  else if done bits s x then .none else s.core

def taken (bits : Nat) (s : State) (x : Cycle) : Option (BurstMemory.Beat 4) :=
  s.memory.taken (s.buffer.slaveM bits x.readM) x.slave

-- A write counts from its command on, a spilled word when it is accepted.
def issue : Option (BurstMemory.Beat 4) :=
  if x.writeM.cmd = .wr then some ⟨x.writeM.addr,x.writeM.data,x.writeM.byteEn⟩
  else match coreNext bits s x with
  | .spill _ => taken bits s x
  | _ => none
end

def record (log : Nat → Fin 4 → List (BitVec 8)) : Option (BurstMemory.Beat 4) → Nat → Fin 4 → List (BitVec 8)
  | none => log
  | some beat => fun word i => if word = beat.addr/4 ∧ beat.byteEn i then log word i ++ [beat.data i] else log word i

def system (bits : Nat) : System State Cycle where
  start s := s.buffer.state = .idle ∧ s.buffer.cntReg = 0 ∧ s.buffer.tagReg = 0 ∧ (∀ pos i, s.buffer.byteEnBuffer pos i = false) ∧
    s.memory.phase = .idle ∧ s.core = .none ∧ s.latest = s.memory.ram ∧ (∀ word i, s.issued word i = []) ∧
    ∀ word i, s.arrived word i = []
  admits s x := Offers bits s x ∧ Aligned bits x.readM ∧ s.memory.Answers (s.buffer.slaveM bits x.readM) x.slave
  next s x := {
    buffer := s.buffer.next bits x.readM x.writeM x.slave
    memory := s.memory.next (2^bits) (s.buffer.slaveM bits x.readM) x.slave
    core := coreNext bits s x
    latest := BurstMemory.Beat.write s.latest (issue bits s x)
    issued := record s.issued (issue bits s x)
    arrived := record s.arrived (taken bits s x) }

abbrev State.after (bits : Nat) (s : State) (x : Cycle) := (system bits).next s x

instance (s : State) (x : Cycle) : Decidable (Holds s x) := by
  unfold Holds
  split <;> infer_instance

instance (bits : Nat) (s : State) (x : Cycle) : Decidable (Offers bits s x) := inferInstanceAs (Decidable (ite _ _ _))

instance (bits : Nat) (m : OcpBurstMasterSignals 4) : Decidable (Aligned bits m) := inferInstanceAs (Decidable (_ → _))

instance (bits : Nat) (s : State) (x : Cycle) : Decidable ((system bits).admits s x) := inferInstanceAs (Decidable (_ ∧ _ ∧ _))

def Reads (s : State) (x : Cycle) : Prop := ∀ addr beat, s.memory.phase = .read addr beat →
  (s.buffer.readS x.slave).resp = .dva → (s.buffer.readS x.slave).data = s.latest (addr/4+beat)

-- Memory receives every value once and in order.
structure Exact (s : State) (x : Cycle) : Prop where
  read : Reads s x
  once : ∀ word i, s.arrived word i <+: s.issued word i

-- What the buffer makes of the lines of memory.
def Covers (bits : Nat) (b : CombineLine) (tag : Nat) (ram latest : Nat → Word 4) : Prop := ∀ word, latest word =
  if word/2^bits = tag then BurstMemory.merge (ram word) (b.dataBuffer (word % 2^bits)) (b.byteEnBuffer (word % 2^bits))
  else ram word

-- What memory receives is the latest value of its byte at that time, and what it has not received is in the buffer.
structure Correct (bits : Nat) (s : State) (x : Cycle) : Prop where
  read : Reads s x
  arrival : ∀ beat, taken bits s x = some beat → ∀ i, beat.byteEn i = true →
    beat.data i = (s.after bits x).latest (beat.addr/4) i
  covered : s.core = .none → Covers bits s.buffer.toCombineLine s.buffer.tagReg s.memory.ram s.latest
end WriteCombine
end Patmos
