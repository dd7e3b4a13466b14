import Mathlib.Algebra.Group.Nat.Defs
import Mathlib.Data.Fintype.Basic
namespace Patmos
inductive OcpCmd where
  | idle
  | wr
  | rd
  deriving DecidableEq, Repr

inductive OcpResp where
  | null
  | dva
  | fail
  | err
  deriving DecidableEq, Repr

theorem OcpResp.eq_dva {resp : OcpResp} (given : resp ≠ .null) (known : resp ≠ .fail) (sound : resp ≠ .err) : resp = .dva := by
  cases resp <;> first | rfl | contradiction

-- A word is its byte lanes: lane i carries the bits 8*i+7 down to 8*i.
abbrev Word (lanes : Nat) := Fin lanes → BitVec 8
abbrev ByteEn (lanes : Nat) := Fin lanes → Bool

structure OcpBurstMasterSignals (lanes : Nat) where
  cmd : OcpCmd
  addr : Nat
  data : Word lanes
  dataValid : Bool
  dataByteEn : ByteEn lanes

structure OcpBurstSlaveSignals (lanes : Nat) where
  resp : OcpResp
  data : Word lanes
  cmdAccept : Bool
  dataAccept : Bool

def OcpBurstMasterSignals.quiet : OcpBurstMasterSignals lanes := ⟨.idle,0,fun _ => 0,false,fun _ => false⟩
def OcpBurstMasterSignals.read (addr : Nat) : OcpBurstMasterSignals lanes := {quiet with cmd := .rd,addr}
def OcpBurstSlaveSignals.quiet : OcpBurstSlaveSignals lanes := ⟨.null,fun _ => 0,false,false⟩
def OcpBurstSlaveSignals.accept : OcpBurstSlaveSignals lanes := ⟨.null,fun _ => 0,true,true⟩
def OcpBurstSlaveSignals.answer (resp : OcpResp) : OcpBurstSlaveSignals lanes := {quiet with resp}

structure OcpCoreMasterSignals (lanes : Nat) where
  cmd : OcpCmd
  addr : Nat
  data : Word lanes
  byteEn : ByteEn lanes

def quietMaster : OcpCoreMasterSignals 4 := ⟨.idle,0,fun _ => 0,fun _ => false⟩

structure OcpSlaveSignals (lanes : Nat) where
  resp : OcpResp
  data : Word lanes
end Patmos
