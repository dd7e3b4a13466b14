import Patmos.TransitionSystem
import Patmos.CircularBuffer
import Patmos.FlatStack
namespace Patmos
-- SCACHE_SIZE is 4*2^sizeBits bytes and a burst has 2^burstBits words.
structure StackGeometry where
  sizeBits : Nat
  burstBits : Nat

namespace StackGeometry
section
variable (g : StackGeometry) (addr : Nat)

def words : Nat := 2^g.sizeBits
def size : Nat := 4*g.words
def burst : Nat := 2^g.burstBits
def cell : Nat := addr/4 % g.words
def burstStart : Nat := addr/(4*g.burst)*(4*g.burst)
end
end StackGeometry

inductive StackCacheState where
  | idle
  | fill
  | waitFill
  | spill
  | holdSpill
  | waitSpill
  | error
  deriving DecidableEq, Repr

inductive StackCacheOp where
  | none
  | setSt
  | setMt
  | ens
  | free
  | res
  | spill
  deriving DecidableEq, Repr

-- The memory blocks have no bypass: what they return for a byte written in the same cycle is chosen by `undefined`.
structure StackCacheInput where
  enaIn : Bool
  op : StackCacheOp
  opData : Nat
  opOff : Nat
  fromCPU : OcpCoreMasterSignals 4
  toMemory : OcpBurstSlaveSignals 4
  undefined : Word 4

structure StackCache where
  stateReg : StackCacheState
  isReserveReg : Bool
  stackTopReg : Nat
  memTopReg : Nat
  transferAddrReg : Nat
  newMemTopReg : Nat
  memoryBlock : Nat → Word 4
  rdData : Word 4
  rdAddrReg : Nat
  responseToCPUReg : OcpResp

namespace StackCache
section
variable (g : StackGeometry) (c : StackCache) (x : StackCacheInput)

def writeEnable : Bool :=
  if c.isReserveReg then c.stackTopReg+g.size ≤ c.transferAddrReg ∧ c.transferAddrReg < c.memTopReg
  else c.newMemTopReg ≤ c.transferAddrReg ∧ c.transferAddrReg < c.memTopReg

def toMemoryM : OcpBurstMasterSignals 4 where
  cmd :=
    if x.enaIn then
      match c.stateReg with
      | .holdSpill => .wr
      | .fill => .rd
      | _ => .idle
    else .idle
  addr := c.transferAddrReg
  data := c.rdData
  dataValid := c.stateReg = .holdSpill ∨ c.stateReg = .spill
  dataByteEn := fun _ => c.writeEnable g

def fromCPUS : OcpSlaveSignals 4 := ⟨c.responseToCPUReg,c.rdData⟩

def stall : Bool := c.stateReg ≠ .idle

def relAddr : Nat := g.cell (x.fromCPU.addr+c.stackTopReg)

def burstCounter : Nat := c.transferAddrReg/4 % g.burst

def illMem : Bool := c.stateReg = .waitSpill ∧ x.toMemory.resp = .err ∨ c.stateReg = .error ∧ c.burstCounter g = g.burst-1

def stackTopInc : Nat := c.stackTopReg+x.opOff
def stackAboveMem : Bool := c.memTopReg-c.stackTopReg < x.opOff
def nextStackTop : Nat := c.stackTopReg-x.opOff
def nextNewMemTop : Nat := c.memTopReg-x.opOff
def needsSpill : Bool := c.memTopReg-c.nextStackTop x > g.size
def spillingDone : Bool := c.memTopReg ≤ c.transferAddrReg
def fillingDone : Bool := c.newMemTopReg ≤ c.transferAddrReg

def spillStart : Nat :=
  match x.op with
  | .res => g.burstStart (c.nextStackTop x+g.size)
  | _ => g.burstStart (c.nextNewMemTop x)

def rdAddr : Nat :=
  match c.stateReg with
  | .idle => if x.op = .res ∨ x.op = .spill then g.cell (c.spillStart g x) else c.relAddr g x
  | .holdSpill => if x.toMemory.cmdAccept then g.cell (c.transferAddrReg+4) else c.rdAddrReg
  | .spill => g.cell (c.transferAddrReg+4)
  | .waitSpill => c.rdAddrReg
  | .fill | .waitFill | .error => c.relAddr g x

def filled : Bool := c.stateReg = .waitFill ∧ x.toMemory.resp = .dva

def wrAddr : Nat := if c.filled x then g.cell c.transferAddrReg else c.relAddr g x

def wrData : Word 4 := if c.filled x then x.toMemory.data else x.fromCPU.data

def wrEna : ByteEn 4 :=
  if x.fromCPU.cmd = .wr then x.fromCPU.byteEn
  else fun _ => c.filled x && !c.fillingDone && c.memTopReg ≤ c.transferAddrReg

def stateNext : StackCacheState :=
  match c.stateReg with
  | .idle =>
    match x.op with
    | .ens => if c.stackAboveMem x then .fill else .idle
    | .res => if c.needsSpill g x then .holdSpill else .idle
    | .spill => .holdSpill
    | .none | .setSt | .setMt | .free => .idle
  | .holdSpill => if x.toMemory.cmdAccept then .spill else .holdSpill
  | .spill => if c.burstCounter g = g.burst-1 then .waitSpill else .spill
  | .waitSpill =>
    match x.toMemory.resp with
    | .dva => if c.spillingDone then .idle else .holdSpill
    | .err => .idle
    | .null | .fail => .waitSpill
  | .fill => if x.toMemory.cmdAccept then .waitFill else .fill
  | .waitFill =>
    match x.toMemory.resp with
    | .dva => if c.burstCounter g = g.burst-1 then if c.fillingDone then .idle else .fill else .waitFill
    | .err => .error
    | .null | .fail => .waitFill
  | .error => if c.burstCounter g = g.burst-1 then .idle else .error

def stackTopNext : Nat :=
  match c.stateReg,x.op with
  | .idle,.setSt => x.opData
  | .idle,.free => c.stackTopInc x
  | .idle,.res => c.nextStackTop x
  | _,_ => c.stackTopReg

def memTopNext : Nat :=
  match c.stateReg with
  | .idle =>
    match x.op with
    | .setMt => x.opData
    | .free => if c.stackAboveMem x then c.stackTopInc x else c.memTopReg
    | _ => c.memTopReg
  | .waitSpill =>
    if c.spillingDone then if c.isReserveReg then c.stackTopReg+g.size else c.newMemTopReg else c.memTopReg
  | .waitFill => if x.toMemory.resp = .dva ∧ c.fillingDone then c.newMemTopReg else c.memTopReg
  | .holdSpill | .spill | .fill | .error => c.memTopReg

def transferAddrNext : Nat :=
  match c.stateReg with
  | .idle =>
    match x.op with
    | .ens => g.burstStart c.memTopReg
    | .res | .spill => c.spillStart g x
    | .none | .setSt | .setMt | .free => c.transferAddrReg
  | .holdSpill => if x.toMemory.cmdAccept then c.transferAddrReg+4 else c.transferAddrReg
  | .spill => c.transferAddrReg+4
  | .waitFill => if x.toMemory.resp = .dva ∨ x.toMemory.resp = .err then c.transferAddrReg+4 else c.transferAddrReg
  | .error => if x.toMemory.resp ≠ .null then c.transferAddrReg+4 else c.transferAddrReg
  | .waitSpill | .fill => c.transferAddrReg

def memoryBlockNext : Nat → Word 4 :=
  Function.update c.memoryBlock (c.wrAddr g x) (BurstMemory.merge (c.memoryBlock (c.wrAddr g x)) (c.wrData x) (c.wrEna x))

def rdDataNext : Word 4 := fun i =>
  if c.wrEna x i ∧ c.wrAddr g x = c.rdAddr g x then x.undefined i else c.memoryBlock (c.rdAddr g x) i

def next : StackCache where
  stateReg := if x.enaIn then c.stateNext g x else c.stateReg
  isReserveReg := if c.stateReg = .idle ∧ (x.op = .res ∨ x.op = .spill) then x.op = .res else c.isReserveReg
  stackTopReg := if x.enaIn then c.stackTopNext x else c.stackTopReg
  memTopReg := if x.enaIn then c.memTopNext g x else c.memTopReg
  transferAddrReg := if x.enaIn then c.transferAddrNext g x else c.transferAddrReg
  newMemTopReg :=
    match c.stateReg,x.op with
    | .idle,.ens => c.stackTopInc x
    | .idle,.spill => c.nextNewMemTop x
    | _,_ => c.newMemTopReg
  memoryBlock := c.memoryBlockNext g x
  rdData := c.rdDataNext g x
  rdAddrReg := c.rdAddr g x
  responseToCPUReg := if x.fromCPU.cmd = .idle then .null else .dva
end
end StackCache

namespace StackMemory
open Transition StackCache

-- `flat` is the stack the program sees. In `initialised` a reserved word keeps what it had before, main memory at
-- first.
structure State where
  cache : StackCache
  memory : BurstMemory.State 4
  flat : FlatStack
  initialised : FlatStack
  load : Option Nat

section
variable (g : StackGeometry) (c : StackCache) (x : StackCacheInput)

def Aligned (amount : Nat) : Prop := amount % 4 = 0 ∧ amount ≤ g.size

def Legal : Prop :=
  match x.op with
  | .none => True
  | .ens | .free => Aligned g x.opOff
  | .res => Aligned g x.opOff ∧ x.opOff ≤ c.stackTopReg
  | .spill => Aligned g x.opOff ∧ x.opOff ≤ c.memTopReg-c.stackTopReg
  | .setSt | .setMt => False

-- An instruction is a stack operation, a load or a store, and waits while the cache stalls. The other units may stall
-- the cache before it has sent a command, in a cycle in which CmdAccept is low.
def Issues : Prop :=
  if x.enaIn then
    if c.stall then x.fromCPU.cmd = .idle
    else x.fromCPU.cmd = .idle ∧ Legal g c x ∨ x.op = .none ∧ x.fromCPU.addr+c.stackTopReg < c.memTopReg
  else x.fromCPU.cmd = .idle ∧
    (c.stateReg = .idle ∨ (c.stateReg = .holdSpill ∨ c.stateReg = .fill) ∧ x.toMemory.cmdAccept = false)

def streaming : BurstMemory.Phase → Bool
  | .write _ _ => true
  | _ => false

-- After the first word of a burst memory takes one word in every cycle.
def Serves (s : State) (x : StackCacheInput) : Prop :=
  s.memory.Answers (s.cache.toMemoryM g x) x.toMemory ∧ x.toMemory.resp ≠ .err ∧
    (streaming s.memory.phase → x.toMemory.dataAccept = true)
end

def flatNext (reserve : FlatStack → Nat → FlatStack) (f : FlatStack) (c : StackCache) (x : StackCacheInput) : FlatStack :=
  if x.fromCPU.cmd = .wr then f.store x.fromCPU.addr x.fromCPU.data x.fromCPU.byteEn
  else if x.enaIn ∧ c.stall = false then
    match x.op with
    | .res => reserve f x.opOff
    | .free => f.free x.opOff
    | _ => f
  else f

def system (g : StackGeometry) : System State StackCacheInput where
  start s := s.cache.stateReg = .idle ∧ s.cache.responseToCPUReg = .null ∧ s.cache.stackTopReg % 4 = 0 ∧
    s.cache.memTopReg = s.cache.stackTopReg ∧ s.memory.phase = .idle ∧
    s.flat = ⟨s.cache.stackTopReg,fun word i => some (s.memory.ram word i)⟩ ∧ s.initialised = s.flat ∧ s.load = none
  admits s x := Issues g s.cache x ∧ Serves g s x
  next s x := {
    cache := s.cache.next g x
    memory := s.memory.next g.burst (s.cache.toMemoryM g x) x.toMemory
    flat := flatNext .reserve s.flat s.cache x
    initialised := flatNext .lower s.initialised s.cache x
    load := if x.fromCPU.cmd = .rd then some (s.flat.word x.fromCPU.addr) else none }

-- A load is answered in the cycle after it, with every byte the program may rely on.
def Returns (f : FlatStack) (s : State) : Prop :=
  ∀ word, s.load = some word → s.cache.fromCPUS.resp = .dva ∧ Agrees (f.bytes word) s.cache.fromCPUS.data

instance (g : StackGeometry) (amount : Nat) : Decidable (Aligned g amount) := inferInstanceAs (Decidable (_ ∧ _))

instance (g : StackGeometry) (c : StackCache) (x : StackCacheInput) : Decidable (Legal g c x) := by
  unfold Legal
  split <;> infer_instance

instance (g : StackGeometry) (c : StackCache) (x : StackCacheInput) : Decidable (Issues g c x) := by
  unfold Issues
  infer_instance

instance (g : StackGeometry) (s : State) (x : StackCacheInput) : Decidable ((system g).admits s x) :=
  inferInstanceAs (Decidable (_ ∧ _ ∧ _ ∧ (_ → _)))
end StackMemory
end Patmos
