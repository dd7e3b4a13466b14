import Patmos.ICache
namespace Patmos
-- MCACHE_WORD_SIZE is 2^sizeBits, METHOD_COUNT is `methods` and a burst has 2^burstBits words.
structure MethodGeometry where
  sizeBits : Nat
  methods : Nat
  burstBits : Nat

namespace MethodGeometry
def words (g : MethodGeometry) : Nat := 2^g.sizeBits
def burst (g : MethodGeometry) : Nat := 2^g.burstBits
def burstStart (g : MethodGeometry) (word : Nat) : Nat := word/g.burst*g.burst
end MethodGeometry

-- The signed reading of a value of the given width.
def asSInt (width : Nat) (value : Int) : Int := value.bmod (2^width)

def Word.toNat (w : Word 4) : Nat := (w 0).toNat+2^8*(w 1).toNat+2^16*(w 2).toNat+2^24*(w 3).toNat

inductive MCacheState where
  | idle
  | size
  | transfer
  | error
  | errorDec
  | errorExe
  | errorMem
  deriving DecidableEq, Repr

-- The source has one wire for a size, which goes with wTag, and for an instruction, which goes with wEna.
structure MCacheCtrlRepl where
  wEna : Bool
  wSize : Nat
  wData : Word 4
  wAddr : Nat
  wTag : Bool
  addrEven : Nat
  addrOdd : Nat
  instrStall : Bool

structure MCacheReplFifo where
  addrVec : Nat → Nat
  sizeVec : Nat → Nat
  validVec : Nat → Bool
  posVec : Nat → Nat
  nextIndexReg : Nat
  nextTagReg : Nat
  nextPosReg : Nat
  freeSpaceReg : Int
  posReg : Nat
  hitReg : Bool
  wrPosReg : Nat
  callRetBaseReg : Nat
  callAddrReg : Nat
  selSpmReg : Bool
  selCacheReg : Bool
  instrEvenReg : Word 4
  instrOddReg : Word 4

def selCache (ispmOneBit base : Nat) : Bool := 1 ≤ base/2^(ispmOneBit-1)
def selSpm (ispmOneBit base : Nat) : Bool := base/2^(ispmOneBit-2) = 1

namespace MCacheReplFifo
variable (g : MethodGeometry) (r : MCacheReplFifo)

def hitVec (base i : Nat) : Bool := base == r.addrVec i && r.validVec i
def mergePosVec (base i : Nat) : Nat := if r.hitVec base i then r.posVec i else 0
def hit (base : Nat) : Bool := (List.range g.methods).any (r.hitVec base)

def pos (base : Nat) : Nat :=
  if r.hit g base then ((List.range g.methods).map (r.mergePosVec base)).foldl (· ||| ·) 0 else r.nextPosReg

def nextTag (i : Nat) : Nat := if i = g.methods-1 then 0 else i+1

-- Space is freed one method in a cycle.
def frees : Bool := r.freeSpaceReg < 0

section
variable (ispmOneBit : Nat) (ena invalidate : Bool) (ex : ExICache) (ctrl : MCacheCtrlRepl) (mem : Banked (Word 4))

def freeSpaceNext : Int :=
  if r.frees then asSInt (g.sizeBits+2) (r.freeSpaceReg+asSInt (g.sizeBits+1) (r.sizeVec r.nextTagReg))
  else if ctrl.wTag then
    asSInt (g.sizeBits+2) (r.freeSpaceReg-asSInt (g.sizeBits+1) (ctrl.wSize % 2^(g.sizeBits+1) : Nat)+
      asSInt (g.sizeBits+1) (r.sizeVec r.nextIndexReg))
  else r.freeSpaceReg

def sizeVecNext : Nat → Nat := fun i =>
  if r.frees ∧ i = r.nextTagReg then 0
  else if ctrl.wTag ∧ i = r.nextIndexReg then ctrl.wSize % 2^(g.sizeBits+1) else r.sizeVec i

def validVecNext (invalidate : Bool) (ctrl : MCacheCtrlRepl) : Nat → Bool := fun i =>
  if invalidate then false
  else if r.frees ∧ i = r.nextTagReg then false
  else if ctrl.wTag ∧ i = r.nextIndexReg then true else r.validVec i

def nextTagNext : Nat :=
  if r.frees then nextTag g r.nextTagReg
  else if ctrl.wTag ∧ r.nextTagReg = r.nextIndexReg then nextTag g r.nextIndexReg else r.nextTagReg

def mcachefe (instrStall : Bool) : ICacheFe :=
  let relBase := if r.selCacheReg then r.posReg else r.callRetBaseReg % 2^(ispmOneBit-2)
  { instrEven := if instrStall then r.instrEvenReg else mem.even.rdData
    instrOdd := if instrStall then r.instrOddReg else mem.odd.rdData
    base := r.callRetBaseReg
    relBase := relBase
    relPc := (r.callAddrReg+relBase) % 2^32
    reloc :=
      if r.selCacheReg then (r.callRetBaseReg+2^32-r.posReg) % 2^32 else if r.selSpmReg then 2^(ispmOneBit-2) else 0
    memSel := (r.selSpmReg,r.selCacheReg) }

def next : MCacheReplFifo :=
  let goes := ex.doCallRet && ena
  let cached := goes && selCache ispmOneBit ex.callRetBase
  { addrVec := if ctrl.wTag then Function.update r.addrVec r.nextIndexReg ctrl.wAddr else r.addrVec
    sizeVec := r.sizeVecNext g ctrl
    validVec := r.validVecNext invalidate ctrl
    posVec := if ctrl.wTag then Function.update r.posVec r.nextIndexReg r.nextPosReg else r.posVec
    nextIndexReg := if ctrl.wTag then nextTag g r.nextIndexReg else r.nextIndexReg
    nextTagReg := r.nextTagNext g ctrl
    nextPosReg := if ctrl.wTag then (r.nextPosReg+ctrl.wSize) % 2^g.sizeBits else r.nextPosReg
    freeSpaceReg := r.freeSpaceNext g ctrl
    posReg := if cached then r.pos g ex.callRetBase else r.posReg
    hitReg := if ctrl.wTag then true else if cached then r.hit g ex.callRetBase else r.hitReg
    wrPosReg := if ctrl.wTag then r.posReg else r.wrPosReg
    callRetBaseReg := if goes then ex.callRetBase else r.callRetBaseReg
    callAddrReg := if goes then ex.callRetAddr else r.callAddrReg
    selSpmReg := if goes then selSpm ispmOneBit ex.callRetBase else r.selSpmReg
    selCacheReg := if goes then selCache ispmOneBit ex.callRetBase else r.selCacheReg
    instrEvenReg := (r.mcachefe ispmOneBit mem ctrl.instrStall).instrEven
    instrOddReg := (r.mcachefe ispmOneBit mem ctrl.instrStall).instrOdd }

-- The bank comes from the offset in the method, the address in it from the position in the cache.
def memNext (ctrl : MCacheCtrlRepl) : Banked (Word 4) :=
  let wParity := ctrl.wAddr % 2 == 1
  let wAddr := (r.wrPosReg+ctrl.wAddr) % 2^g.sizeBits/2
  { even := mem.even.next (ctrl.addrEven % 2^g.sizeBits/2) (!wParity && ctrl.wEna) wAddr ctrl.wData
    odd := mem.odd.next (ctrl.addrOdd % 2^g.sizeBits/2) (wParity && ctrl.wEna) wAddr ctrl.wData }
end
end MCacheReplFifo

structure MCacheCtrl where
  stateReg : MCacheState
  ocpCmdReg : OcpCmd
  ocpAddrReg : Nat
  transferSizeReg : Nat
  fetchCntReg : Nat
  burstCntReg : Nat
  callRetBaseReg : Nat
  addrEvenReg : Nat
  addrOddReg : Nat
  ocpSlaveReg : OcpBurstSlaveSignals 4

namespace MCacheCtrl
variable (g : MethodGeometry) (c : MCacheCtrl) (hit : Bool)

def msizeAddr : Nat := c.callRetBaseReg-1

def size : Nat := Word.toNat c.ocpSlaveReg.data/4 % 2^(g.sizeBits+1)

def lastBeat : Bool := c.burstCntReg = g.burst-1

def sized : Bool := c.stateReg = .size ∧ c.ocpSlaveReg.resp = .dva ∧ c.burstCntReg = c.msizeAddr % g.burst

def fetching : Bool := c.stateReg = .transfer ∧ c.fetchCntReg ≤ c.transferSizeReg

def arrives : Bool := c.fetching ∧ c.ocpSlaveReg.resp = .dva

def request : Option Nat :=
  if c.stateReg = .idle ∧ ¬hit then some (g.burstStart c.msizeAddr)
  else if c.sized g ∧ c.lastBeat g then some c.callRetBaseReg
  else if c.arrives ∧ c.fetchCntReg < c.transferSizeReg ∧ c.lastBeat g then some (c.callRetBaseReg+c.fetchCntReg+1)
  else none

-- The transfer ends with the burst, after the last word of the method or when the counter has reached the last beat of
-- the burst.
def finishes : Bool :=
  c.stateReg = .transfer ∧ c.lastBeat g ∧ (c.transferSizeReg < c.fetchCntReg ∨ c.arrives ∧ c.fetchCntReg = c.transferSizeReg)

def fetchEna : Bool :=
  match c.stateReg with
  | .size => false
  | .transfer => c.finishes g
  | .idle | .error | .errorDec | .errorExe | .errorMem => true

def illMem : Bool := c.stateReg = .error ∧ c.lastBeat g

def forceHit : Bool := c.illMem g ∨ c.stateReg = .errorDec ∨ c.stateReg = .errorExe ∨ c.stateReg = .errorMem

def ocpM : OcpBurstMasterSignals 4 where
  cmd := if c.ocpSlaveReg.resp = .err then .idle else if (c.request g hit).isSome then .rd else c.ocpCmdReg
  addr := (c.request g hit).getD c.ocpAddrReg*4
  data _ := 0
  dataValid := false
  dataByteEn _ := true

def ctrlrepl (fe : FeICache) : MCacheCtrlRepl where
  wEna := c.arrives
  wSize := if c.sized g then (c.size g+c.size g % 2) % 2^(g.sizeBits+1) else 0
  wData := if c.arrives then c.ocpSlaveReg.data else fun _ => 0
  wAddr := if c.sized g then c.callRetBaseReg else if c.fetching then c.fetchCntReg else 0
  wTag := c.sized g
  addrEven := if c.stateReg = .idle ∧ hit ∨ c.finishes g then fe.addrEven else c.addrEvenReg
  addrOdd := if c.stateReg = .idle ∧ hit ∨ c.finishes g then fe.addrOdd else c.addrOddReg
  instrStall := c.stateReg ≠ .idle

def stateNext : MCacheState :=
  match c.stateReg with
  | .idle => if hit then .idle else .size
  | .size => if c.sized g then .transfer else .size
  | .transfer => if c.finishes g then .idle else .transfer
  | .error => .error
  | .errorDec => .errorExe
  | .errorExe => .errorMem
  | .errorMem => .idle

def next (ex : ExICache) (fe : FeICache) (s : OcpBurstSlaveSignals 4) : MCacheCtrl where
  stateReg := if c.illMem g then .errorDec else if c.ocpSlaveReg.resp = .err then
    match c.stateReg with
    | .errorDec => .errorExe
    | .errorExe => .errorMem
    | .errorMem => .idle
    | _ => .error
    else c.stateNext g hit
  ocpCmdReg :=
    if c.ocpSlaveReg.resp = .err then .idle
    else if s.cmdAccept then .idle else if (c.request g hit).isSome then .rd else c.ocpCmdReg
  ocpAddrReg := (c.request g hit).getD c.ocpAddrReg
  transferSizeReg := if c.sized g then (c.size g+2^g.sizeBits-1) % 2^g.sizeBits else c.transferSizeReg
  fetchCntReg := if c.sized g then 0 else if c.arrives then (c.fetchCntReg+1) % 2^g.sizeBits else c.fetchCntReg
  burstCntReg :=
    if c.ocpSlaveReg.resp = .err ∨ c.stateReg = .error ∧ c.ocpSlaveReg.resp ≠ .null then (c.burstCntReg+1) % g.burst
    else if (c.request g hit).isSome then 0
    else if (c.stateReg = .size ∨ c.stateReg = .transfer) ∧ c.ocpSlaveReg.resp = .dva then (c.burstCntReg+1) % g.burst
    else c.burstCntReg
  callRetBaseReg := if ex.doCallRet then ex.callRetBase else c.callRetBaseReg
  addrEvenReg := if ex.doCallRet then fe.addrEven else c.addrEvenReg
  addrOddReg := if ex.doCallRet then fe.addrOdd else c.addrOddReg
  ocpSlaveReg := s
end MCacheCtrl

structure MCache where
  ctrl : MCacheCtrl
  repl : MCacheReplFifo
  mem : Banked (Word 4)

namespace MCache
variable (g : MethodGeometry) (c : MCache)

def enaOut : Bool := c.ctrl.fetchEna g && (c.repl.hitReg || c.ctrl.forceHit g)
def ocpM : OcpBurstMasterSignals 4 := c.ctrl.ocpM g c.repl.hitReg
def ctrlrepl (fe : FeICache) : MCacheCtrlRepl := c.ctrl.ctrlrepl g c.repl.hitReg fe

def next (ispmOneBit : Nat) (ena invalidate : Bool) (ex : ExICache) (fe : FeICache) (s : OcpBurstSlaveSignals 4) : MCache where
  ctrl := c.ctrl.next g c.repl.hitReg ex fe s
  repl := c.repl.next g ispmOneBit ena (invalidate || c.ctrl.illMem g) ex (c.ctrlrepl g fe) c.mem
  mem := c.repl.memNext g c.mem (c.ctrlrepl g fe)
end MCache

namespace MethodCache
open Transition

-- The hits reported since tags were last written, by position and base.
structure State where
  cache : MCache
  memory : BurstMemory.State 4
  reported : List (Nat × Nat)

structure Cycle where
  ena : Bool
  invalidate : Bool
  ex : ExICache
  fe : FeICache
  slave : OcpBurstSlaveSignals 4

-- The size of a method in words, from its size in bytes in front of it.
def methodSize (ram : Nat → Word 4) (base : Nat) : Nat := Word.toNat (ram (base-1))/4

section
variable (g : MethodGeometry) (ispmOneBit : Nat)

def calls (x : Cycle) : Bool := x.ex.doCallRet && x.ena && selCache ispmOneBit x.ex.callRetBase

-- No call or return is in the delay slots of one that misses, so there is none from the miss to the end of the
-- transfer.
def Issues (s : State) (x : Cycle) : Prop :=
  (x.ex.doCallRet = true → s.cache.ctrl.stateReg = .idle ∧ s.cache.repl.hitReg = true) ∧
  (calls ispmOneBit x → 1 ≤ methodSize s.memory.ram x.ex.callRetBase ∧ methodSize s.memory.ram x.ex.callRetBase ≤ g.words)

def reportedNext (s : State) (x : Cycle) : List (Nat × Nat) :=
  if s.cache.ctrl.sized g then []
  else if calls ispmOneBit x ∧ s.cache.repl.hit g x.ex.callRetBase then
    (s.cache.repl.pos g x.ex.callRetBase,x.ex.callRetBase) :: s.reported
  else s.reported

def system : System State Cycle where
  start s := s.cache.ctrl.stateReg = .idle ∧ s.cache.ctrl.ocpCmdReg = .idle ∧ s.cache.repl.hitReg = true ∧
    (∀ i, s.cache.repl.sizeVec i = 0) ∧ (∀ i, s.cache.repl.validVec i = false) ∧ s.cache.repl.nextIndexReg = 0 ∧
    s.cache.repl.nextTagReg = 0 ∧ s.cache.repl.nextPosReg = 0 ∧ s.cache.repl.freeSpaceReg = g.words ∧
    s.cache.ctrl.ocpSlaveReg.resp ≠ .err ∧ s.memory.phase = .idle ∧ s.reported = []
  admits s x := Issues g ispmOneBit s x ∧ s.memory.Answers (s.cache.ocpM g) x.slave ∧ x.slave.resp ≠ .err
  next s x := {
    cache := s.cache.next g ispmOneBit x.ena x.invalidate x.ex x.fe x.slave
    memory := s.memory.next g.burst (s.cache.ocpM g) x.slave
    reported := reportedNext g ispmOneBit s x }

abbrev State.after (s : State) (x : Cycle) := (system g ispmOneBit).next s x

def Present (s : State) (pos base : Nat) : Prop :=
  ∀ k < methodSize s.memory.ram base, s.cache.mem.content ((pos+k) % g.words) = s.memory.ram (base+k)

structure Correct (s : State) (x : Cycle) : Prop where
  hit : calls ispmOneBit x = true → s.cache.repl.hit g x.ex.callRetBase = true →
    Present g s (s.cache.repl.pos g x.ex.callRetBase) x.ex.callRetBase
  kept : ∀ pos base, (pos,base) ∈ s.reported → Present g s pos base
end

instance (g : MethodGeometry) (ispmOneBit : Nat) (s : State) (x : Cycle) : Decidable (Issues g ispmOneBit s x) :=
  inferInstanceAs (Decidable ((_ → _) ∧ (_ → _)))

instance (g : MethodGeometry) (ispmOneBit : Nat) (s : State) (x : Cycle) : Decidable ((system g ispmOneBit).admits s x) :=
  inferInstanceAs (Decidable (_ ∧ _ ∧ _))

instance (g : MethodGeometry) (s : State) (pos base : Nat) : Decidable (Present g s pos base) :=
  inferInstanceAs (Decidable (∀ k < _, _ = _))
end MethodCache
end Patmos
