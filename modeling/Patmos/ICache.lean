import Patmos.TransitionSystem
import Patmos.BankedMemory
import Patmos.CacheLines
namespace Patmos
inductive ICacheState where
  | init
  | idle
  | transfer
  | wait
  | error
  deriving DecidableEq, Repr

structure ExICache where
  doCallRet : Bool
  callRetBase : Nat
  callRetAddr : Nat

structure FeICache where
  addrEven : Nat
  addrOdd : Nat

structure ICacheFe where
  instrEven : Word 4
  instrOdd : Word 4
  base : Nat
  relBase : Nat
  relPc : Nat
  reloc : Nat
  memSel : Bool × Bool

-- The replacement unit counts in words. Its lines have an even number of words and there is an even number of lines,
-- with the tags in two banks.
namespace Geometry
section
variable (g : Geometry) (word : Nat)

def lineOf : Nat := word/g.words
def wordIndex : Nat := g.lineOf word % g.lines
def wordTag : Nat := g.lineOf word/g.lines
def wordCell : Nat := word % (g.words*g.lines)
end
end Geometry

structure ICacheReplDm where
  tagMem : Banked Nat
  validVec : Nat → Bool
  callRetBaseReg : Nat
  callAddrReg : Nat
  selSpmReg : Bool
  selCacheReg : Bool
  addrEvenReg : Nat
  addrOddReg : Nat

structure ICacheCtrlRepl where
  wEna : Bool
  wData : Word 4
  wAddr : Nat
  wTag : Bool

namespace ICacheReplDm
section
variable (g : Geometry) (ispmOneBit : Nat) (r : ICacheReplDm)

def tagEven : Nat := if g.wordIndex r.addrEvenReg % 2 = 1 then r.tagMem.odd.rdData else r.tagMem.even.rdData

def tagOdd : Nat := if g.wordIndex r.addrOddReg % 2 = 1 then r.tagMem.odd.rdData else r.tagMem.even.rdData

def hitEven : Bool := r.tagEven g == g.wordTag r.addrEvenReg && r.validVec (g.wordIndex r.addrEvenReg)

def hitOdd : Bool := r.tagOdd g == g.wordTag r.addrOddReg && r.validVec (g.wordIndex r.addrOddReg)

def hit : Bool := r.hitEven g && r.hitOdd g
def fetchAddr : Nat := if r.hitOdd g then r.addrEvenReg else r.addrOddReg

def icachefe (mem : Banked (Word 4)) : ICacheFe :=
  let relBase := if r.selCacheReg then r.callRetBaseReg else r.callRetBaseReg % 2^(ispmOneBit-2)
  { instrEven := mem.even.rdData
    instrOdd := mem.odd.rdData
    base := r.callRetBaseReg
    relBase := relBase
    relPc := (r.callAddrReg+relBase) % 2^32
    reloc := if r.selCacheReg then 0 else if r.selSpmReg then 2^(ispmOneBit-2) else 0
    memSel := (r.selSpmReg,r.selCacheReg) }

def next (g : Geometry) (ispmOneBit : Nat) (r : ICacheReplDm) (ena invalidate : Bool) (ex : ExICache) (fe : FeICache)
    (ctrl : ICacheCtrlRepl) : ICacheReplDm :=
  let indexEven := g.wordIndex fe.addrEven
  let indexOdd := g.wordIndex fe.addrOdd
  let parityEven := indexEven % 2 = 1
  let goes := ex.doCallRet && ena
  { tagMem := r.tagMem.next (if parityEven then indexOdd/2 else indexEven/2) (if parityEven then indexEven/2 else indexOdd/2)
      ctrl.wTag (g.wordIndex ctrl.wAddr) (g.wordTag ctrl.wAddr)
    validVec := fun idx =>
      if invalidate then false else if ctrl.wTag ∧ idx = g.wordIndex ctrl.wAddr then true else r.validVec idx
    callRetBaseReg := if goes then ex.callRetBase else r.callRetBaseReg
    callAddrReg := if goes then ex.callRetAddr else r.callAddrReg
    selSpmReg := if goes then ex.callRetBase/2^(ispmOneBit-2) = 1 else r.selSpmReg
    selCacheReg := if goes then 1 ≤ ex.callRetBase/2^(ispmOneBit-1) else r.selCacheReg
    addrEvenReg := fe.addrEven
    addrOddReg := fe.addrOdd }

-- The on-chip memory, written at the address of the control unit and read at the two fetch addresses.
def memNext (mem : Banked (Word 4)) (fe : FeICache) (ctrl : ICacheCtrlRepl) : Banked (Word 4) :=
  mem.next (g.wordCell fe.addrEven/2) (g.wordCell fe.addrOdd/2) ctrl.wEna (g.wordCell ctrl.wAddr) ctrl.wData
end
end ICacheReplDm

structure ICacheCtrl where
  stateReg : ICacheState
  fetchCntReg : Nat
  burstCntReg : Nat
  addrReg : Nat
  ocpSlaveReg : OcpBurstSlaveSignals 4

namespace ICacheCtrl
variable (g : Geometry) (c : ICacheCtrl) (selCache hit : Bool) (fetchAddr : Nat)

def miss : Bool := c.stateReg = .idle ∧ selCache ∧ ¬hit

def fetchEna : Bool :=
  match c.stateReg with
  | .init => true
  | .idle => !c.miss selCache hit
  | .wait | .transfer | .error => false

def arrives : Bool := c.stateReg = .transfer ∧ c.fetchCntReg < g.words ∧ c.ocpSlaveReg.resp = .dva

-- A further burst is requested when the line is longer than one.
def refetch : Bool := c.arrives g ∧ c.fetchCntReg < g.words-1 ∧ g.words-1 ≤ c.burstCntReg

def ctrlrepl : ICacheCtrlRepl where
  wEna := c.arrives g
  wData := if c.arrives g then c.ocpSlaveReg.data else fun _ => 0
  wAddr :=
    if c.miss selCache hit then g.lineOf fetchAddr*g.words
    else if c.stateReg = .transfer ∧ c.fetchCntReg < g.words then c.addrReg*g.words+c.fetchCntReg else 0
  wTag := c.miss selCache hit

def ocpAddr : Nat :=
  if c.miss selCache hit then g.lineOf fetchAddr*g.words
  else if c.stateReg = .wait then c.addrReg*g.words
  else if c.refetch g then c.addrReg*g.words+c.fetchCntReg+1 else 0

def ocpM : OcpBurstMasterSignals 4 where
  cmd := if c.miss selCache hit ∨ c.stateReg = .wait ∨ c.refetch g then .rd else .idle
  addr := c.ocpAddr g selCache hit fetchAddr*4
  data _ := 0
  dataValid := false
  dataByteEn _ := true

def illMem : Bool := c.stateReg = .error ∧ c.burstCntReg = g.words-1

def stateNext (s : OcpBurstSlaveSignals 4) : ICacheState :=
  let requested : ICacheState := if s.cmdAccept then .transfer else .wait
  match c.stateReg with
  | .init => if selCache then .idle else .init
  | .idle => if ¬selCache then .init else if hit then .idle else requested
  | .wait => requested
  | .transfer => if c.fetchCntReg < g.words then .transfer else .idle
  | .error => .error

def next (s : OcpBurstSlaveSignals 4) : ICacheCtrl where
  stateReg :=
    if c.illMem g then .idle
    else if c.ocpSlaveReg.resp = .err then .error else c.stateNext g selCache hit s
  fetchCntReg :=
    if c.miss selCache hit then 0 else if c.arrives g then (c.fetchCntReg+1) % (g.words*g.lines) else c.fetchCntReg
  burstCntReg :=
    if c.ocpSlaveReg.resp = .err ∨ c.stateReg = .error ∧ c.ocpSlaveReg.resp ≠ .null then (c.burstCntReg+1) % g.words
    else if c.miss selCache hit ∨ c.refetch g then 0
    else if c.arrives g then (c.burstCntReg+1) % g.words else c.burstCntReg
  addrReg := if c.miss selCache hit then g.lineOf fetchAddr else c.addrReg
  ocpSlaveReg := s
end ICacheCtrl

structure ICache where
  ctrl : ICacheCtrl
  repl : ICacheReplDm
  mem : Banked (Word 4)

namespace ICache
def hit (g : Geometry) (c : ICache) : Bool := c.repl.hit g
def fetchEna (g : Geometry) (c : ICache) : Bool := c.ctrl.fetchEna c.repl.selCacheReg (c.hit g)
def miss (g : Geometry) (c : ICache) : Bool := c.ctrl.miss c.repl.selCacheReg (c.hit g)
def ctrlrepl (g : Geometry) (c : ICache) : ICacheCtrlRepl := c.ctrl.ctrlrepl g c.repl.selCacheReg (c.hit g) (c.repl.fetchAddr g)
def ocpM (g : Geometry) (c : ICache) : OcpBurstMasterSignals 4 :=
  c.ctrl.ocpM g c.repl.selCacheReg (c.hit g) (c.repl.fetchAddr g)

def next (g : Geometry) (ispmOneBit : Nat) (c : ICache) (ena invalidate : Bool) (ex : ExICache) (fe : FeICache)
    (s : OcpBurstSlaveSignals 4) : ICache where
  ctrl := c.ctrl.next g c.repl.selCacheReg (c.hit g) (c.repl.fetchAddr g) s
  repl := c.repl.next g ispmOneBit (ena && c.fetchEna g) invalidate ex fe (c.ctrlrepl g)
  mem := ICacheReplDm.memNext g c.mem fe (c.ctrlrepl g)
end ICache

namespace InstructionCache
open Transition

-- The lines whose last fill had an error beat are marked.
structure State where
  cache : ICache
  memory : BurstMemory.State 4
  failed : Nat → Bool

structure Cycle where
  ena : Bool
  invalidate : Bool
  ex : ExICache
  fe : FeICache
  slave : OcpBurstSlaveSignals 4

def Pair (addrEven addrOdd : Nat) : Prop :=
  addrEven % 2 = 0 ∧ addrOdd = addrEven+1 ∨ addrOdd % 2 = 1 ∧ addrEven = addrOdd+1

instance (addrEven addrOdd : Nat) : Decidable (Pair addrEven addrOdd) := inferInstanceAs (Decidable (_ ∨ _))

def system (g : Geometry) (ispmOneBit : Nat) : System State Cycle where
  start s := s.cache.ctrl.stateReg = .init ∧ s.cache.ctrl.fetchCntReg = 0 ∧ s.cache.ctrl.burstCntReg = 0 ∧
    s.cache.ctrl.ocpSlaveReg.resp = .null ∧ s.cache.repl.selCacheReg = false ∧ (∀ idx, s.cache.repl.validVec idx = false) ∧
    s.memory.phase = .idle ∧ ∀ idx, s.failed idx = false
  admits s x := Pair x.fe.addrEven x.fe.addrOdd ∧ s.memory.Answers (s.cache.ocpM g) x.slave
  next s x := {
    cache := s.cache.next g ispmOneBit x.ena x.invalidate x.ex x.fe x.slave
    memory := s.memory.next g.words (s.cache.ocpM g) x.slave
    failed := fun idx =>
      if s.cache.miss g ∧ idx = g.wordIndex (s.cache.repl.fetchAddr g) then false
      else decide (x.slave.resp = .err ∧ idx = s.cache.ctrl.addrReg % g.lines) || s.failed idx }

abbrev State.after (g : Geometry) (ispmOneBit : Nat) (s : State) (x : Cycle) := (system g ispmOneBit).next s x

instance (g : Geometry) (ispmOneBit : Nat) (s : State) (x : Cycle) : Decidable ((system g ispmOneBit).admits s x) :=
  inferInstanceAs (Decidable (_ ∧ _))

def busy (c : ICacheCtrl) : Bool := c.stateReg = .wait ∨ c.stateReg = .transfer ∨ c.stateReg = .error

structure Correct (g : Geometry) (s : State) : Prop where
  lines : ∀ idx < g.lines, s.cache.repl.validVec idx = true → ¬(busy s.cache.ctrl ∧ idx = s.cache.ctrl.addrReg % g.lines) →
    g.Line s.cache.mem.content (s.cache.repl.tagMem.content idx) s.memory.ram idx
  fetch : s.cache.fetchEna g = true → s.cache.hit g = true →
    s.cache.mem.even.rdData = s.memory.ram s.cache.repl.addrEvenReg ∧ s.cache.mem.odd.rdData = s.memory.ram s.cache.repl.addrOddReg
  failed : busy s.cache.ctrl = false → ∀ idx < g.lines, s.failed idx = true → s.cache.repl.validVec idx = false
end InstructionCache
end Patmos
