import Patmos.PipelineSignals
namespace Patmos.Core
structure ExcCommand where
  cmd : OcpCmd
  addr : BitVec 32
  data : BitVec 32

structure Exceptions where
  masterReg : ExcCommand
  statusReg : BitVec 32
  maskReg : BitVec 32
  sourceReg : BitVec 32
  localModeReg : Bool
  vec : BitVec 5 → BitVec 32
  vecDup : BitVec 5 → BitVec 32
  sleepReg : Bool
  excPendReg : BitVec 32
  intrPendReg : BitVec 32
  intrsReg : BitVec 16
  excBaseReg : BitVec 30
  excAddrReg : BitVec 30
  srcReg : BitVec 5
  excReg : Bool
  intrReg : Bool

def lowest (pending : BitVec 32) : Option (BitVec 5) := ((List.range 32).find? pending.getLsbD).map (BitVec.ofNat 5)

def bit (src : BitVec 5) : BitVec 32 := 1#32 <<< src.toNat

namespace Exceptions
variable (e : Exceptions)

def intrEna : Bool := e.statusReg.getLsbD 0
def superMode : Bool := e.statusReg.getLsbD 1

def register : BitVec 6 := e.masterReg.addr.extractLsb' 2 6
def vector : BitVec 5 := e.masterReg.addr.extractLsb' 2 5
def inVectors : Bool := e.masterReg.addr.getLsbD 7

def guarded : Bool := e.inVectors || e.register.toNat ≤ 5

def writes (register : BitVec 6) : Bool := e.masterReg.cmd == .wr && e.register == register && e.superMode
def writesVector : Bool := e.masterReg.cmd == .wr && e.inVectors && e.superMode

def wakes : Bool := e.sleepReg && (e.excReg || e.intrReg && e.intrEna)

def ocpResp : OcpResp :=
  if e.wakes then .dva
  else match e.masterReg.cmd with
  | .idle => .null
  | .rd => .dva
  | .wr => if e.guarded && !e.superMode then .err else if e.register = 4 then .null else .dva

def ocpData : BitVec 32 :=
  if e.masterReg.cmd ≠ .rd then 0
  else if e.inVectors then e.vec e.vector
  else match e.register.toNat with
  | 0 => e.statusReg
  | 1 => e.maskReg
  | 2 => e.intrPendReg
  | 3 => e.sourceReg
  | 5 => (BitVec.ofBool e.localModeReg).setWidth 32 <<< 31
  | _ => 0

def invalDCache : Bool := e.writes 5 && e.masterReg.data.getLsbD 0
def invalICache : Bool := e.writes 5 && e.masterReg.data.getLsbD 1

def excPend (m : MemExc) : BitVec 32 :=
  let pending := if m.call then e.excPendReg &&& ~~~bit m.src else e.excPendReg
  if m.exc then pending ||| bit m.src else pending

def intrPend (m : MemExc) : BitVec 32 :=
  let pending := if e.writes 2 then e.intrPendReg &&& e.masterReg.data else e.intrPendReg
  let pending := if m.call then pending &&& ~~~bit m.src else pending
  pending ||| e.intrsReg ++ 0#16

def src (m : MemExc) : BitVec 5 := ((lowest (e.excPend m)).or (lowest (e.intrPend m &&& e.maskReg))).getD 0

def statusNext (ena : Bool) (m : MemExc) : BitVec 32 :=
  if m.ret && ena then e.statusReg >>> 2
  else if m.call && ena then e.statusReg <<< 2 ||| 2
  else if e.writes 0 then e.masterReg.data else e.statusReg

def excdec : ExcDec where
  exc := e.excReg
  excBase := e.excBaseReg
  excAddr := e.excAddrReg
  intr := e.intrReg && e.intrEna
  addr := e.vecDup e.srcReg
  src := e.srcReg
  inLocal := e.localModeReg

def next (ena : Bool) (m : MemExc) (command : ExcCommand) (intrs : BitVec 16) : Exceptions where
  masterReg := command
  statusReg := e.statusNext ena m
  maskReg := if e.writes 1 then e.masterReg.data else e.maskReg
  sourceReg := if m.call && ena then m.src.setWidth 32 else if e.writes 3 then e.masterReg.data else e.sourceReg
  localModeReg := if e.writes 5 then e.localModeReg ^^ e.masterReg.data.getLsbD 31 else e.localModeReg
  vec := if e.writesVector then Function.update e.vec e.vector e.masterReg.data else e.vec
  vecDup := if e.writesVector then Function.update e.vecDup e.vector e.masterReg.data else e.vecDup
  sleepReg := if e.wakes then false else if e.writes 4 then true else e.sleepReg
  excPendReg := e.excPend m
  intrPendReg := e.intrPend m
  intrsReg := intrs
  excBaseReg := if m.exc then m.excBase else e.excBaseReg
  excAddrReg := if m.exc then m.excAddr else e.excAddrReg
  srcReg := e.src m
  excReg := e.excPend m != 0
  intrReg := e.intrPend m &&& e.maskReg != 0
end Exceptions
end Patmos.Core
