import Patmos.Alu
import Patmos.Decode
namespace Patmos.Core
inductive Special where
  | fl
  | sl
  | sh
  | ss
  | st
  | srb
  | sro
  | sxb
  | sxo
  | unused
  deriving DecidableEq, Repr

def special (func : BitVec 4) : Special :=
  match func.toNat with
  | 0b0000 => .fl
  | 0b0010 => .sl
  | 0b0011 => .sh
  | 0b0101 => .ss
  | 0b0110 => .st
  | 0b0111 => .srb
  | 0b1000 => .sro
  | 0b1001 => .sxb
  | 0b1010 => .sxo
  | _ => .unused

inductive Forward where
  | none
  | mem
  | ex
  | imm

-- The later of the two connections is the one of the second pipeline.
def writer (results : Fin 2 → Result) (addr : BitVec 5) : Option (Fin 2) :=
  if (results 1).writes addr then some 1 else if (results 0).writes addr then some 0 else none

structure Execute where
  exReg : DecEx
  fwReg : Fin 2 → Fin 2 → Forward
  fwSrcReg : Fin 2 → Fin 2 → Fin 2
  memResultDataReg : Fin 2 → BitVec 32
  exResultDataReg : Fin 2 → BitVec 32
  predReg : BitVec 3 → Bool
  retBaseReg : BitVec 32
  retOffReg : BitVec 32
  saveRetOff : Bool
  saveND : Bool
  excBaseReg : BitVec 32
  excOffReg : BitVec 32
  mulLoReg : BitVec 32
  mulHiReg : BitVec 32
  mulReg : Partial
  mulPipeReg : Bool

structure ExecuteIn where
  enaIn : Bool
  flush : Bool
  brflush : Bool
  decex : DecEx
  exResult : Fin 2 → Result
  memResult : Fin 2 → Result
  feexPc : BitVec 30

-- What the execute stage reads besides its registers: the stack cache and the coprocessor that is addressed.
structure Surroundings where
  stackTop : BitVec 32
  memTop : BitVec 32
  copEna : Bool
  copResult : BitVec 32

namespace Execute
variable (e : Execute)

def op (k j : Fin 2) : BitVec 32 :=
  match e.fwReg k j with
  | .ex => e.exResultDataReg (e.fwSrcReg k j)
  | .mem => e.memResultDataReg (e.fwSrcReg k j)
  | .imm => (e.exReg.issue k).immVal
  | .none => (e.exReg.issue k).rsData j

section
variable (op : Fin 2 → Fin 2 → BitVec 32) (flush : Bool) (x : Surroundings) (k : Fin 2)

def doExecute : Bool := !flush && predOperand e.predReg (e.exReg.issue k).pred

-- A coprocessor operation holds the stage until the coprocessor is done.
def runsCop : Bool := e.doExecute flush 0 && e.exReg.copOp.isCop
def enableCop : Bool := !e.runsCop flush || x.copEna

def writesSpecial (r : Special) : Bool :=
  (e.exReg.issue k).aluOp.isMTS && e.doExecute flush k && special (e.exReg.issue k).aluOp.func == r

def mts (r : Special) : Option (BitVec 32) :=
  if e.writesSpecial flush 1 r then some (e.op 1 0) else if e.writesSpecial flush 0 r then some (e.op 0 0) else none

def predFlags : BitVec 32 :=
  ((List.range 8).map fun j => if e.predReg (BitVec.ofNat 3 j) then BitVec.ofNat 32 (2^j) else 0).foldl (· ||| ·) 0

def mfsResult : BitVec 32 :=
  match special (e.exReg.issue k).aluOp.func with
  | .fl => e.predFlags
  | .sl => e.mulLoReg
  | .sh => e.mulHiReg
  | .st => x.stackTop
  | .ss => x.memTop
  | .srb => e.retBaseReg
  | .sro => e.retOffReg
  | .sxb => e.excBaseReg
  | .sxo => e.excOffReg
  | .unused => 0

def rdData : BitVec 32 :=
  let d := e.exReg.issue k
  if d.aluOp.isMFS then e.mfsResult x k
  else if d.aluOp.isBCpy then bcpy (predOperand e.predReg d.aluOp.func) (op k 0) (op k 1)
  else alu d.aluOp.func (op k 0) (op k 1)

def rd : Result where
  addr := (e.exReg.issue k).rdAddr
  data := if k = 0 ∧ e.runsCop flush then x.copResult else e.rdData op x k
  valid := (e.exReg.issue k).wrRd && e.doExecute flush k

def doCallRet : Bool := e.exReg.callRet && e.doExecute flush 0

def callRetAddr : BitVec 32 :=
  if e.exReg.call || e.exReg.xcall then 0
  else if e.exReg.brcf then if e.exReg.a.immOp then 0 else e.op 0 1
  else if e.exReg.xret then e.excOffReg else e.retOffReg

def callRetBase : BitVec 32 :=
  if e.exReg.call || e.exReg.xcall || e.exReg.brcf then if e.exReg.a.immOp then e.exReg.callAddr else e.op 0 0
  else if e.exReg.xret then e.excBaseReg else e.retBaseReg

def exmem : ExMem where
  rd := e.rd e.op flush x
  mem := {
    load := e.exReg.memOp.load && e.doExecute flush 0
    store := e.exReg.memOp.store && e.doExecute flush 0
    hword := e.exReg.memOp.hword
    byte := e.exReg.memOp.byte
    zext := e.exReg.memOp.zext
    typ := e.exReg.memOp.typ
    addr := e.op 0 0+e.exReg.a.immVal
    data := e.op 0 1
    call := e.exReg.call && e.doExecute flush 0
    ret := e.exReg.ret && e.doExecute flush 0
    brcf := e.exReg.brcf && e.doExecute flush 0
    trap := e.exReg.trap && e.doExecute flush 0
    xcall := e.exReg.xcall && e.doExecute flush 0
    xret := e.exReg.xret && e.doExecute flush 0
    xsrc := e.exReg.xsrc
    illOp := e.exReg.illOp
    callRetAddr := e.callRetAddr
    callRetBase := e.callRetBase
    nonDelayed := e.exReg.nonDelayed }
  pc := e.exReg.pc
  base := e.exReg.base
  relPc := e.exReg.relPc

def doBranch : Bool := e.exReg.jmpOp.branch && e.doExecute flush 0

def branchPc : BitVec 30 :=
  if e.exReg.a.immOp then e.exReg.jmpOp.target else (e.op 0 0).extractLsb' 2 30-e.exReg.jmpOp.reloc.setWidth 30

def brflush : Bool := e.exReg.nonDelayed && e.doBranch flush

-- The registers of the stage, one definition for those that are written together.
def exRegNext (i : ExecuteIn) : DecEx := if i.flush || i.brflush then i.decex.flush else i.decex

def forward (exResult memResult : Fin 2 → Result) (d : DecEx) (k j : Fin 2) : Forward × Fin 2 :=
  let addr := (d.issue k).rsAddr j
  let source :=
    match writer exResult addr with
    | some i => (Forward.ex,i)
    | none =>
      match writer memResult addr with
      | some i => (.mem,i)
      | none => (.none,0)
  if j = 1 ∧ (d.issue k).immOp then (.imm,source.2) else source

def predAfter (preds : BitVec 3 → Bool) : BitVec 3 → Bool :=
  let d := e.exReg.issue k
  let result :=
    if d.aluOp.isCmp then comp d.aluOp.func (op k 0) (op k 1)
    else predFunc d.predOp.func (predOperand e.predReg d.predOp.s1Addr) (predOperand e.predReg d.predOp.s2Addr)
  let preds := if (d.aluOp.isCmp || d.aluOp.isPred) && e.doExecute flush k then Function.update preds d.predOp.dest result else preds
  if e.writesSpecial flush k .fl then Function.update (fun j => (op k 0).getLsbD j.toNat) 0 true
  else Function.update preds 0 true

def predNext : BitVec 3 → Bool := e.predAfter op flush 1 (e.predAfter op flush 0 e.predReg)

def mulRuns : Bool := e.exReg.a.aluOp.isMul && e.doExecute flush 0
def mulSigned : Bool := e.exReg.a.aluOp.func == 0

def mulLoNext : BitVec 32 := (e.mts flush .sl).getD (if e.mulPipeReg then e.mulReg.mulResult.extractLsb' 0 32 else e.mulLoReg)
def mulHiNext : BitVec 32 :=
  (e.mts flush .sh).getD (if e.mulPipeReg then e.mulReg.mulResult.extractLsb' 32 32 else e.mulHiReg)

def callRuns : Bool := e.exReg.call && e.doExecute flush 0
def xcallRuns : Bool := e.exReg.xcall && e.doExecute flush 0

def retBaseNext : BitVec 32 := if e.callRuns flush then e.exReg.base ++ 0#2 else (e.mts flush .srb).getD e.retBaseReg
def excBaseNext : BitVec 32 := if e.xcallRuns flush then e.exReg.base ++ 0#2 else (e.mts flush .sxb).getD e.excBaseReg
def excOffNext : BitVec 32 := if e.xcallRuns flush then e.exReg.relPc ++ 0#2 else (e.mts flush .sxo).getD e.excOffReg
end

-- The return offset is taken when the call is in the memory stage, also in a stall.
def savedRetOff (feexPc : BitVec 30) : BitVec 32 := (if e.saveND then e.exReg.relPc else feexPc) ++ 0#2

-- The multiplier only waits for enaIn, everything else for the coprocessor too.
def next (i : ExecuteIn) (x : Surroundings) : Execute :=
  let ena := i.enaIn && e.enableCop i.flush x
  { exReg := if ena then exRegNext i else e.exReg
    fwReg := if ena then fun k j => (forward i.exResult i.memResult i.decex k j).1 else e.fwReg
    fwSrcReg := if ena then fun k j => (forward i.exResult i.memResult i.decex k j).2 else e.fwSrcReg
    memResultDataReg := if ena then fun k => (i.memResult k).data else e.memResultDataReg
    exResultDataReg := if ena then fun k => (i.exResult k).data else e.exResultDataReg
    predReg := if ena then e.predNext e.op i.flush else e.predReg
    retBaseReg := if ena then e.retBaseNext i.flush else e.retBaseReg
    retOffReg :=
      if e.saveRetOff then e.savedRetOff i.feexPc
      else if ena then (e.mts i.flush .sro).getD e.retOffReg else e.retOffReg
    saveRetOff := e.callRuns i.flush && i.enaIn
    saveND := e.exReg.nonDelayed
    excBaseReg := if ena then e.excBaseNext i.flush else e.excBaseReg
    excOffReg := if ena then e.excOffNext i.flush else e.excOffReg
    mulLoReg := if ena then e.mulLoNext i.flush else e.mulLoReg
    mulHiReg := if ena then e.mulHiNext i.flush else e.mulHiReg
    mulReg := if i.enaIn then .of e.mulSigned (e.op 0 0) (e.op 0 1) else e.mulReg
    mulPipeReg := if i.enaIn then e.mulRuns i.flush else e.mulPipeReg }
end Execute
end Patmos.Core
