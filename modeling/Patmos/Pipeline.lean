import Patmos.Exceptions
import Patmos.Execute
namespace Patmos.Core
open Transition

structure RegisterFile where
  rf : BitVec 5 → BitVec 32
  addrReg : Fin 2 → Fin 2 → BitVec 5
  wrReg : Fin 2 → Result
  fwReg : Fin 2 → Fin 2 → Fin 2 → Bool

namespace RegisterFile
def rsData (r : RegisterFile) (k j : Fin 2) : BitVec 32 :=
  if r.addrReg k j = 0 then 0
  else if r.fwReg k j 1 then (r.wrReg 1).data
  else if r.fwReg k j 0 then (r.wrReg 0).data
  else r.rf (r.addrReg k j)

-- The loop over the write ports runs backwards, so the first pipeline is connected last.
def write (rf : BitVec 5 → BitVec 32) (rfWrite : Fin 2 → Result) (addr : BitVec 5) : BitVec 32 :=
  if (rfWrite 0).writes addr then (rfWrite 0).data
  else if (rfWrite 1).writes addr then (rfWrite 1).data else rf addr

def next (r : RegisterFile) (ena : Bool) (rsAddr : Fin 2 → Fin 2 → BitVec 5) (rfWrite : Fin 2 → Result) : RegisterFile where
  rf := write r.rf rfWrite
  addrReg := if ena then rsAddr else r.addrReg
  wrReg := if ena then rfWrite else r.wrReg
  fwReg := if ena then fun k j i => (rfWrite i).writes (rsAddr k j) else r.fwReg
end RegisterFile

-- The instruction SPM starts at the word 2^14, everything from the word 2^15 on is cached.
def inSpm (base : BitVec 30) : Bool := base.toNat/2^14 = 1
def inCache (base : BitVec 30) : Bool := 1 ≤ base.toNat/2^15

def truncate (bits : Nat) (value : BitVec 30) : BitVec 30 := (value.setWidth bits).setWidth 30

-- The part of the replacement unit of the method cache that places a method.
structure Relocation where
  callRetBaseReg : BitVec 30
  callAddrReg : BitVec 30
  posReg : BitVec 30
  selSpmReg : Bool
  selCacheReg : Bool

namespace Relocation
variable (r : Relocation)

def relBase : BitVec 30 := if r.selCacheReg then r.posReg else (r.callRetBaseReg.extractLsb' 0 14).setWidth 30
def relPc : BitVec 30 := r.callAddrReg+r.relBase

def reloc : BitVec 32 :=
  if r.selCacheReg then r.callRetBaseReg.setWidth 32-r.posReg.setWidth 32 else if r.selSpmReg then 0x4000 else 0

-- `pos` is where the tag memory has the method or will have it.
def next (goes : Bool) (callRetBase callRetAddr pos : BitVec 30) : Relocation :=
  if goes then
    { callRetBaseReg := callRetBase
      callAddrReg := callRetAddr
      posReg := if inCache callRetBase then pos else r.posReg
      selSpmReg := inSpm callRetBase
      selCacheReg := inCache callRetBase }
  else r
end Relocation

def bundleSize (instrA : BitVec 32) : BitVec 30 := if instrA.getLsbD 31 then 2 else 1

structure Fetch where
  pcReg : BitVec 30
  baseReg : BitVec 30
  relBaseReg : BitVec 30
  relocReg : BitVec 32

namespace Fetch
variable (f : Fetch)

def relPc : BitVec 30 := f.pcReg-f.relBaseReg

def fedec (instrA instrB : BitVec 32) : FeDec := ⟨instrA,instrB,f.pcReg,f.baseReg,f.relocReg,f.relPc⟩

def feexPc (instrA : BitVec 32) : BitVec 30 := f.relPc+bundleSize instrA

-- MAX_OFF_WIDTH is `offBits`.
def next (offBits : Nat) (ena doCallRet doBranch : Bool) (branchPc : BitVec 30) (r : Relocation) (instrA : BitVec 32) : Fetch :=
  if ena then
    { pcReg := if doCallRet then truncate (offBits+1) r.relPc else if doBranch then branchPc else f.pcReg+bundleSize instrA
      baseReg := r.callRetBaseReg
      relBaseReg := if doCallRet then truncate offBits r.relBase else f.relBaseReg
      relocReg := if doCallRet then r.reloc else f.relocReg }
  else f
end Fetch

structure Memory where
  memReg : ExMem
  illMemReg : Bool

namespace Memory
variable (m : Memory)

def doCallRet : Bool :=
  m.memReg.mem.call || m.memReg.mem.ret || m.memReg.mem.brcf || m.memReg.mem.xcall || m.memReg.mem.xret

def flush : Bool :=
  m.memReg.mem.xcall || m.memReg.mem.trap ||
  (m.memReg.mem.call || m.memReg.mem.ret || m.memReg.mem.brcf || m.memReg.mem.xret) && m.memReg.mem.nonDelayed ||
  m.memReg.mem.illOp || m.illMemReg

-- What goes to the register file and to the forwarding; `dout` is loaded data.
def rd (dout : BitVec 32) (k : Fin 2) : Result :=
  if k = 0 ∧ m.memReg.mem.load then {m.memReg.rd 0 with data := dout} else m.memReg.rd k

def exc : MemExc where
  call := m.memReg.mem.xcall
  ret := m.memReg.mem.xret
  src := if m.memReg.mem.illOp then 0 else if m.illMemReg then 1 else m.memReg.mem.xsrc
  exc := m.memReg.mem.trap || m.memReg.mem.illOp || m.illMemReg
  excBase := m.memReg.base
  excAddr := if m.memReg.mem.trap then m.memReg.relPc+1 else m.memReg.relPc

def next (ena illMem : Bool) (exmem : ExMem) : Memory where
  memReg := if ena then if m.flush then exmem.flush else exmem else m.memReg
  illMemReg := illMem
end Memory

structure Pipeline where
  fetch : Fetch
  decode : Decode
  rf : RegisterFile
  execute : Execute
  memory : Memory
  reloc : Relocation
  exc : Exceptions

-- What the memories, the caches, the coprocessors and the devices do in a cycle.
structure Cycle where
  memEna : Bool
  icacheEna : Bool
  scStall : Bool
  illMem : Bool
  instrA : BitVec 32
  instrB : BitVec 32
  dout : BitVec 32
  around : Surroundings
  pos : BitVec 30
  command : ExcCommand
  intrs : BitVec 16

namespace Pipeline
variable (s : Pipeline) (x : Cycle)

def flush : Bool := s.memory.flush
def brflush : Bool := s.execute.brflush s.flush
def enableCop : Bool := s.execute.enableCop s.flush x.around
def enaIn : Bool := x.memEna && x.icacheEna && !x.scStall
def enable : Bool := enaIn x && s.enableCop x

-- The method cache is not held by its own stall.
def icacheEnaIn : Bool := x.memEna && !x.scStall && s.enableCop x

def decex : DecEx := s.decode.decex s.exc.excdec s.rf.rsData
def exmem : ExMem := s.execute.exmem s.flush x.around
def doCallRet : Bool := s.execute.doCallRet s.flush
def doBranch : Bool := s.execute.doBranch s.flush
def readAddr (k j : Fin 2) : BitVec 5 := rsAddr (if k = 0 then x.instrA else x.instrB) j

def executeIn : ExecuteIn where
  enaIn := enaIn x
  flush := s.flush
  brflush := s.brflush
  decex := s.decex
  exResult := (s.exmem x).rd
  memResult := s.memory.rd x.dout
  feexPc := s.fetch.feexPc x.instrA

def next (offBits : Nat) : Pipeline where
  fetch := s.fetch.next offBits (s.enable x) s.memory.doCallRet s.doBranch s.execute.branchPc s.reloc x.instrA
  decode := s.decode.next (s.enable x) (s.flush || s.brflush) (s.fetch.fedec x.instrA x.instrB) s.decex
  rf := s.rf.next (s.enable x) (readAddr x) (s.memory.rd x.dout)
  execute := s.execute.next (s.executeIn x) x.around
  memory := s.memory.next (s.enable x) x.illMem (s.exmem x)
  reloc :=
    s.reloc.next (s.doCallRet && s.icacheEnaIn x) (s.execute.callRetBase.extractLsb' 2 30)
      (s.execute.callRetAddr.extractLsb' 2 30) x.pos
  exc := s.exc.next (s.enable x) s.memory.exc x.command x.intrs

-- After several cycles of reset. What is not listed holds anything.
structure Reset : Prop where
  pc : s.fetch.pcReg = 1
  base : s.fetch.baseReg = 0
  relBase : s.fetch.relBaseReg = 1
  reloc : s.fetch.relocReg = 0
  decoded : s.decode.decReg.instrA = 0 ∧ s.decode.decReg.instrB = 0
  flushed : ∀ k, (s.execute.exReg.issue k).pred = predIfFalse
  legal : s.execute.exReg.illOp = false
  noCop : s.execute.exReg.copOp.isCop = false
  predTrue : s.execute.predReg 0 = true
  noSave : s.execute.saveRetOff = false
  noMul : s.execute.mulPipeReg = false
  memReg : s.memory.memReg.flush = s.memory.memReg
  noError : s.memory.illMemReg = false
  method : s.reloc = ⟨1,1,0,false,false⟩
  command : s.exc.masterReg.cmd = .idle
  status : s.exc.statusReg = 2
  awake : s.exc.sleepReg = false
  global : s.exc.localModeReg = false
  noExc : s.exc.excPendReg = 0 ∧ s.exc.excReg = false
  noIntr : s.exc.intrPendReg = 0

-- The first pipeline executes unless it is flushed.
def armed : Bool := predOperand s.execute.predReg s.execute.exReg.a.pred

def stores : Bool := s.enable x && !s.flush && (s.exmem x).mem.store

def system (offBits : Nat) : System Pipeline Cycle where
  start s := s.Reset
  -- The exception unit is written by stores only, and a position has no more bits than the program counter.
  admits s x := (x.command.cmd = .wr → s.stores x = true) ∧ x.pos.toNat < 2^offBits
  next s x := s.next x offBits

-- All registers that reset leaves open are zero here.
def begin : Pipeline where
  fetch := ⟨1,0,1,0⟩
  decode := ⟨⟨0,0,0,0,0,0⟩,0⟩
  rf := ⟨fun _ => 0,fun _ _ => 0,fun _ => ⟨0,0,false⟩,fun _ _ _ => false⟩
  execute := {
    exReg := {}
    fwReg := fun _ _ => .none
    fwSrcReg := fun _ _ => 0
    memResultDataReg := fun _ => 0
    exResultDataReg := fun _ => 0
    predReg := fun j => j = 0
    retBaseReg := 0
    retOffReg := 0
    saveRetOff := false
    saveND := false
    excBaseReg := 0
    excOffReg := 0
    mulLoReg := 0
    mulHiReg := 0
    mulReg := ⟨0,0,0,0⟩
    mulPipeReg := false }
  memory := ⟨⟨fun _ => ⟨0,0,false⟩,⟨false,false,false,false,false,.stack,0,0,false,false,false,false,false,false,0,false,0,0,false⟩,
    0,0,0⟩,false⟩
  reloc := ⟨1,1,0,false,false⟩
  exc := ⟨⟨.idle,0,0⟩,2,0,0,false,fun _ => 0,fun _ => 0,false,0,0,0,0,0,0,false,false⟩

theorem begin_reset : begin.Reset := by
  refine ⟨rfl,rfl,rfl,rfl,⟨rfl,rfl⟩,fun k => ?_,rfl,rfl,rfl,rfl,rfl,rfl,rfl,rfl,rfl,rfl,rfl,rfl,⟨rfl,rfl⟩,rfl⟩
  unfold DecEx.issue
  split <;> rfl
end Pipeline

def addi (rd rs : BitVec 5) (value : BitVec 12) : BitVec 32 := 0#10 ++ rd ++ rs ++ value

namespace Pipeline
variable (s : Pipeline) (x : Cycle)

def fetches (instrA instrB : BitVec 32) : Cycle where
  memEna := true
  icacheEna := true
  scStall := false
  illMem := false
  instrA := instrA
  instrB := instrB
  dout := 0
  around := ⟨0,0,true,0⟩
  pos := 0
  command := ⟨.idle,0,0⟩
  intrs := 0

instance (offBits : Nat) (s : Pipeline) (x : Cycle) : Decidable ((system offBits).admits s x) :=
  inferInstanceAs (Decidable ((_ → _) ∧ _))

theorem next_exReg (offBits : Nat) :
    (s.next x offBits).execute.exReg =
      if s.enable x then if s.flush || s.brflush then s.decex.flush else s.decex else s.execute.exReg := rfl

theorem next_predReg (offBits : Nat) :
    (s.next x offBits).execute.predReg = if s.enable x then s.execute.predNext s.execute.op s.flush else s.execute.predReg := rfl

theorem next_memReg (offBits : Nat) :
    (s.next x offBits).memory.memReg =
      if s.enable x then if s.flush then (s.exmem x).flush else s.exmem x else s.memory.memReg := rfl

theorem next_decReg (offBits : Nat) (goes : s.enable x = true) :
    (s.next x offBits).decode.decReg =
      if s.flush || s.brflush then (s.fetch.fedec x.instrA x.instrB).flush else s.fetch.fedec x.instrA x.instrB := by
  simp [next,Decode.next,goes]

section Held
variable {s : Pipeline} {x : Cycle} {offBits : Nat} (held : s.enable x = false)
include held

theorem held_exReg : (s.next x offBits).execute.exReg = s.execute.exReg := by
  rw [next_exReg,held]
  rfl

theorem held_predReg : (s.next x offBits).execute.predReg = s.execute.predReg := by
  rw [next_predReg,held]
  rfl

theorem held_armed : (s.next x offBits).armed = s.armed := by
  unfold armed
  rw [held_exReg held,held_predReg held]

theorem held_memReg : (s.next x offBits).memory.memReg = s.memory.memReg := by
  rw [next_memReg,held]
  rfl

theorem held_decode : (s.next x offBits).decode = s.decode := by
  simp [next,Decode.next,held]

theorem held_fetch : (s.next x offBits).fetch = s.fetch := by
  simp [next,Fetch.next,held]
end Held

theorem doExecute_armed (runs : s.execute.doExecute s.flush 0 = true) : s.armed = true := by
  simp only [Execute.doExecute,Bool.and_eq_true] at runs
  exact runs.2

theorem predNext_zero (e : Execute) (op : Fin 2 → Fin 2 → BitVec 32) (flush : Bool) : e.predNext op flush 0 = true := by
  unfold Execute.predNext Execute.predAfter
  split <;> exact Function.update_self _ _ _

theorem flushed_pred (predTrue : predReg 0 = true) : predOperand predReg predIfFalse = false := by
  show (predReg 0 ^^ true) = false
  rw [predTrue]
  rfl

theorem always_pred (predTrue : predReg 0 = true) : predOperand predReg 0 = true := by
  show (predReg 0 ^^ false) = true
  rw [predTrue]
  rfl

structure Sane : Prop where
  predTrue : s.execute.predReg 0 = true
  single : s.armed = true → s.execute.exReg.Single

theorem reset_sane (reset : s.Reset) : s.Sane := by
  refine ⟨reset.predTrue,fun arms => ?_⟩
  have dead := flushed_pred reset.predTrue
  rw [← reset.flushed 0] at dead
  exact absurd (arms.symm.trans dead) (by decide)

theorem next_predTrue (sane : s.Sane) (offBits : Nat) : (s.next x offBits).execute.predReg 0 = true := by
  rw [next_predReg]
  split
  · exact predNext_zero s.execute s.execute.op s.flush
  · exact sane.predTrue

theorem next_armed (sane : s.Sane) (goes : s.enable x = true) (arms : (s.next x offBits).armed = true) :
    (s.flush || s.brflush) = false ∧ (s.next x offBits).execute.exReg = s.decex := by
  unfold armed at arms
  rw [next_exReg,if_pos goes] at arms ⊢
  split at arms
  next flushed => exact absurd (arms.symm.trans (flushed_pred (next_predTrue s x sane offBits))) (by decide)
  next kept =>
    rw [if_neg kept]
    exact ⟨by simpa using kept,rfl⟩

theorem next_sane (sane : s.Sane) (offBits : Nat) : (s.next x offBits).Sane := by
  refine ⟨next_predTrue s x sane offBits,fun arms => ?_⟩
  by_cases goes : s.enable x = true
  · rw [(next_armed s x sane goes arms).2]
    exact s.decode.decex_single s.exc.excdec s.rf.rsData
  · rw [next_exReg,if_neg goes]
    rw [armed,next_exReg,next_predReg,if_neg goes,if_neg goes] at arms
    exact sane.single arms

theorem transfer_unflushed (sane : s.Sane) (runs : s.doCallRet = true) : (s.flush || s.brflush) = false := by
  simp only [doCallRet,Execute.doCallRet,Bool.and_eq_true] at runs
  have single := sane.single (s.doExecute_armed runs.2)
  have alive : s.flush = false := by
    simp only [Execute.doExecute,Bool.and_eq_true,Bool.not_eq_true'] at runs
    exact runs.2.1
  cases branch : s.execute.exReg.jmpOp.branch with
  | true => exact absurd (runs.1.symm.trans (DecEx.single_branch single branch)) (by decide)
  | false => simp [alive,brflush,Execute.brflush,Execute.doBranch,branch]

theorem reached_sane (path : Reached (system offBits) s) : s.Sane :=
  path.invariant reset_sane fun s x sane _ => next_sane s x sane offBits
end Pipeline

structure Leaving where
  callRet : Bool
  branch : Bool

-- The pipeline with where the fetched bundles are, flushed ones and exception calls apart, and with what has left the
-- execute stage, the latest first.
structure Tracked where
  core : Pipeline
  inDecode : Bool
  inExecute : Bool
  past : List Leaving

namespace Tracked
def flushes (t : Tracked) : Bool := t.core.flush || t.core.brflush
def injects (t : Tracked) : Bool := t.core.decode.injects t.core.exc.excdec

def next (t : Tracked) (x : Cycle) (offBits : Nat) : Tracked where
  core := t.core.next x offBits
  inDecode := if t.core.enable x then !t.flushes else t.inDecode
  inExecute := if t.core.enable x then t.inDecode && !t.flushes && !t.injects else t.inExecute
  past := if t.core.enable x then ⟨t.core.doCallRet,t.core.doBranch⟩ :: t.past else t.past

theorem next_core (t : Tracked) (x : Cycle) (offBits : Nat) : (t.next x offBits).core = t.core.next x offBits := rfl

theorem exReg_goes {t : Tracked} (goes : t.core.enable x = true) :
    (t.next x offBits).core.execute.exReg = if t.flushes then t.core.decex.flush else t.core.decex := by
  rw [next_core,Pipeline.next_exReg,if_pos goes]
  rfl

def system (offBits : Nat) : System Tracked Cycle where
  start t := t.core.Reset ∧ t.inDecode = false ∧ t.inExecute = false ∧ t.past = []
  admits t x := (Pipeline.system offBits).admits t.core x
  next t x := t.next x offBits

instance (offBits : Nat) (t : Tracked) (x : Cycle) : Decidable ((system offBits).admits t x) :=
  inferInstanceAs (Decidable ((Pipeline.system offBits).admits t.core x))

def begin : Tracked := ⟨.begin,false,false,[]⟩

theorem begin_starts (offBits : Nat) : (system offBits).start begin := ⟨Pipeline.begin_reset,rfl,rfl,rfl⟩

theorem reached_core (path : Reached (system offBits) t) : Reached (Pipeline.system offBits) t.core := by
  induction path with
  | start begun => exact .start begun.1
  | step _ admitted ih => exact .step ih admitted

theorem reached_sane (path : Reached (system offBits) t) : t.core.Sane := Pipeline.reached_sane t.core (reached_core path)
end Tracked
end Patmos.Core
