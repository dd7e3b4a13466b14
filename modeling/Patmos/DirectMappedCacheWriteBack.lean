import Patmos.TransitionSystem
import Patmos.RegisterWidth
import Patmos.CacheRefill
namespace Patmos
inductive WriteBackState where
  | idle
  | write
  | writeWaitForResp
  | hold
  | fill
  | respond
  deriving DecidableEq, Repr

structure DirectMappedCacheWriteBack where
  doingRead : Bool
  coreWrDataReg : Word 4
  coreByteEnReg : ByteEn 4
  masterReg : OcpCoreMasterSignals 4
  stateReg : WriteBackState
  burstCntReg : Nat
  missIndexReg : Nat
  way : Way
  dirtyMem : Nat → Bool
  dirty : Bool
  fillReg : Bool
  wrAddrReg : Nat
  wrDataReg : Word 4
  rdAddrCntReg : Nat
  slaveReg : OcpSlaveSignals 4
  memWrAddrReg : Nat

namespace DirectMappedCacheWriteBack
def tagValid (g : Geometry) (c : DirectMappedCacheWriteBack) : Bool := c.way.tagValid g c.masterReg.addr
section
variable (g : Geometry) (c : DirectMappedCacheWriteBack) (m : OcpCoreMasterSignals 4) (s : OcpBurstSlaveSignals 4) (invalidate : Bool)

def miss : Bool := !c.tagValid g && decide (c.masterReg.cmd ≠ .idle)
def stmsk : ByteEn 4 := fun i => c.masterReg.cmd = .wr && c.masterReg.byteEn i

def marks : Bool := c.tagValid g && decide (∃ i, c.stmsk i = true)
def selWrBack : Bool := c.miss g && c.dirty || decide (c.stateReg = .write)
def beat : Bool := c.stateReg = .fill ∧ s.resp ≠ .null

def masterS : OcpSlaveSignals 4 :=
  if c.stateReg = .respond then c.slaveReg
  else ⟨if c.tagValid g ∧ c.masterReg.cmd ≠ .idle then .dva else .null,c.way.rdData⟩

-- The write-back address is cut at burstAddrBits+byteAddrBits.
def wrBackAddr : Nat :=
  let low := 2^(Register.log2Up g.words+2)
  c.memWrAddrReg/low*low

def slaveM : OcpBurstMasterSignals 4 where
  cmd :=
    if c.stateReg = .hold then .rd
    else if c.stateReg = .write ∧ c.burstCntReg = 0 then .wr
    else if c.miss g ∧ ¬c.dirty then .rd else .idle
  addr := if c.stateReg = .write then c.wrBackAddr g else g.base c.masterReg.addr*4
  data := if c.stateReg = .write then c.way.rdData else fun _ => 0
  dataValid := c.stateReg = .write
  dataByteEn _ := c.stateReg = .write

def port : Way.Port where
  lookup := m.addr
  rdAddr := if c.selWrBack g then g.index c.masterReg.addr*g.words+c.rdAddrCntReg else g.cell m.addr
  wrEna i := c.fillReg || c.tagValid g && c.stmsk i
  wrAddr := c.wrAddrReg
  wrData := c.wrDataReg
  addr := c.masterReg.addr
  allocate := c.miss g
  drop := c.stateReg = .fill ∧ s.resp = .err
  invalidate := invalidate

def busy : Bool := c.stateReg ≠ .idle ∧ c.stateReg ≠ .respond

-- A write that allocates is merged into the beat it is for.
def comb : Word 4 :=
  if c.burstCntReg = c.missIndexReg ∧ ¬c.doingRead then BurstMemory.merge s.data c.coreWrDataReg c.coreByteEnReg else s.data
end

def next (g : Geometry) (c : DirectMappedCacheWriteBack) (m : OcpCoreMasterSignals 4) (s : OcpBurstSlaveSignals 4)
    (invalidate : Bool) : DirectMappedCacheWriteBack where
  doingRead := if c.miss g then c.masterReg.cmd = .rd else c.doingRead
  coreWrDataReg := if c.miss g ∧ c.masterReg.cmd = .wr then c.masterReg.data else c.coreWrDataReg
  coreByteEnReg := if c.miss g ∧ c.masterReg.cmd = .wr then c.masterReg.byteEn else c.coreByteEnReg
  masterReg := {m with addr := if c.miss g ∨ c.busy then c.masterReg.addr else m.addr}
  stateReg :=
    let request : WriteBackState := if s.cmdAccept then .fill else .hold
    let start : WriteBackState := if c.miss g then (if c.dirty then .write else request) else c.stateReg
    match c.stateReg with
    | .idle => start
    | .write =>
      if c.burstCntReg = g.words-1 then
        match s.resp with
        | .dva => .hold
        | .err => .respond
        | .null => .writeWaitForResp
        | .fail => start
      else start
    | .writeWaitForResp => if s.resp = .dva then .hold else if s.resp = .err then .respond else .writeWaitForResp
    | .hold => request
    | .fill => if c.beat s ∧ c.burstCntReg = g.words-1 then .respond else start
    | .respond => .idle
  burstCntReg :=
    if c.stateReg = .write ∧ s.dataAccept ∨ c.beat s then (c.burstCntReg+1) % g.words else c.burstCntReg
  missIndexReg := if c.miss g then g.offset c.masterReg.addr % 2^g.missIndexWidth else c.missIndexReg
  way := c.way.next g (c.port g m s invalidate)
  dirtyMem idx :=
    if idx = g.index c.masterReg.addr then
      if c.miss g then c.masterReg.cmd = .wr else c.marks g || c.dirtyMem idx
    else c.dirtyMem idx
  dirty := c.marks g && g.index m.addr == g.index c.masterReg.addr || c.dirtyMem (g.index m.addr)
  fillReg := c.beat s
  wrAddrReg := if c.stateReg = .fill then g.index c.masterReg.addr*g.words+c.burstCntReg else g.cell m.addr
  wrDataReg := if c.beat s then c.comb s else m.data
  rdAddrCntReg :=
    if c.stateReg = .write ∧ c.burstCntReg = g.words-1 then c.rdAddrCntReg
    else if c.miss g ∧ c.dirty ∨ c.stateReg = .write ∧ s.dataAccept then (c.rdAddrCntReg+1) % g.words else c.rdAddrCntReg
  slaveReg :=
    if c.stateReg = .write ∧ c.burstCntReg = g.words-1 ∧ s.resp = .err ∨ c.stateReg = .writeWaitForResp ∧ s.resp = .err ∨
      c.beat s ∧ c.burstCntReg = c.missIndexReg then ⟨s.resp,s.data⟩ else c.slaveReg
  memWrAddrReg := if c.miss g then g.block c.way.tagMem.rdData (g.index c.masterReg.addr)*4 else c.memWrAddrReg
end DirectMappedCacheWriteBack

namespace DirectMappedWriteBack
open Transition

inductive Request where
  | read (addr : Nat)
  | write (addr : Nat) (data : Word 4) (byteEn : ByteEn 4)
  deriving DecidableEq

def Request.of (m : OcpCoreMasterSignals 4) : Option Request :=
  match m.cmd with
  | .idle => none
  | .rd => some (.read m.addr)
  | .wr => some (.write m.addr m.data m.byteEn)

def Request.apply : Request → (Nat → Word 4) → Nat → Word 4
  | .read _,ram => ram
  | .write addr data byteEn,ram => BurstMemory.store ram addr data byteEn

-- The values a byte may have. A write of which no burst failed leaves its own value only; one that saw an error may
-- have been dropped.
def Request.settle (failed : Bool) (candidates : Nat → Fin 4 → List (BitVec 8)) : Request → Nat → Fin 4 → List (BitVec 8)
  | .read _ => candidates
  | .write addr data byteEn => fun word i =>
    if word = addr/4 ∧ byteEn i then data i :: (if failed then candidates word i else []) else candidates word i

structure State where
  cache : DirectMappedCacheWriteBack
  memory : BurstMemory.State 4
  core : Option Request
  failed : Bool
  candidates : Nat → Fin 4 → List (BitVec 8)

structure Cycle where
  master : OcpCoreMasterSignals 4
  slave : OcpBurstSlaveSignals 4

section
variable (core : Option Request) (m : OcpCoreMasterSignals 4) (s : OcpSlaveSignals 4)

-- The core issues one request at a time, at the earliest with the answer to the one before.
def Offers : Prop := core = none ∨ s.resp ≠ .null ∨ m.cmd = .idle

def coreNext : Option Request := (Request.of m).or (if s.resp = .null then core else none)

def settled (failed : Bool) (candidates : Nat → Fin 4 → List (BitVec 8)) (s : OcpSlaveSignals 4) :
    Nat → Fin 4 → List (BitVec 8) :=
  match core with
  | none => candidates
  | some request => if s.resp = .null then candidates else request.settle failed candidates
end

def system (g : Geometry) : System State Cycle where
  start s := s.cache.stateReg = .idle ∧ s.cache.burstCntReg = 0 ∧ s.cache.rdAddrCntReg = 0 ∧ s.cache.fillReg = false ∧
    s.cache.masterReg.cmd = .idle ∧ (∀ idx, s.cache.way.tagVMem idx = false) ∧ (∀ idx, s.cache.dirtyMem idx = false) ∧
    s.memory.phase = .idle ∧ s.core = none ∧ s.candidates = fun word i => [s.memory.ram word i]
  admits s x := Offers s.core x.master (s.cache.masterS g) ∧ s.memory.Answers (s.cache.slaveM g) x.slave
  next s x := {
    cache := s.cache.next g x.master x.slave false
    memory := s.memory.next g.words (s.cache.slaveM g) x.slave
    core := coreNext s.core x.master (s.cache.masterS g)
    failed := decide (x.master.cmd = .idle) && (s.failed || decide (x.slave.resp = .err))
    candidates := settled s.core s.failed s.candidates (s.cache.masterS g) }

abbrev State.after (g : Geometry) (s : State) (x : Cycle) := (system g).next s x

instance (core : Option Request) (m : OcpCoreMasterSignals 4) (s : OcpSlaveSignals 4) : Decidable (Offers core m s) :=
  match core with
  | none => isTrue (.inl rfl)
  | some _ => decidable_of_iff (s.resp ≠ .null ∨ m.cmd = .idle) (by simp [Offers])

instance (g : Geometry) (s : State) (x : Cycle) : Decidable ((system g).admits s x) := inferInstanceAs (Decidable (_ ∧ _))

structure Correct (g : Geometry) (s : State) : Prop where
  read : ∀ addr, s.core = some (.read addr) → (s.cache.masterS g).resp = .dva →
    ∀ i, (s.cache.masterS g).data i ∈ s.candidates (addr/4) i
  lines : s.cache.stateReg = .idle → ∀ idx < g.lines, s.cache.way.tagVMem idx = true → ∀ off < g.words, ∀ i,
    s.cache.way.content (idx*g.words+off) i ∈ s.candidates (g.block (s.cache.way.tagMem.mem idx) idx + off) i
end DirectMappedWriteBack
end Patmos
