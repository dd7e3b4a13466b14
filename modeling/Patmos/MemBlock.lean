import Mathlib.Algebra.Group.Nat.Defs
import Mathlib.Logic.Function.Basic
namespace Patmos
-- A synchronous memory with one read and one write port. The bypass registers hide what the array returns for a word
-- that is written in the same cycle.
structure MemBlock (α : Type) where
  mem : Nat → α
  rdDataReg : α
  wrEnaReg : Bool
  sameAddrReg : Bool
  wrDataReg : α

namespace MemBlock
section
variable (b : MemBlock α) (rdAddr : Nat) (wrEna : Bool) (wrAddr : Nat) (wrData : α) (cell : Nat)

def rdData : α := if b.wrEnaReg && b.sameAddrReg then b.wrDataReg else b.rdDataReg

def next : MemBlock α where
  mem := if wrEna then Function.update b.mem wrAddr wrData else b.mem
  rdDataReg := b.mem rdAddr
  wrEnaReg := wrEna
  sameAddrReg := wrAddr = rdAddr
  wrDataReg := wrData

theorem mem_next : (b.next rdAddr wrEna wrAddr wrData).mem cell = if wrEna ∧ cell = wrAddr then wrData else b.mem cell := by
  cases wrEna with
  | false => simp [next]
  | true => simp [next,Function.update_apply]

theorem rdData_next : (b.next rdAddr wrEna wrAddr wrData).rdData = (b.next rdAddr wrEna wrAddr wrData).mem rdAddr := by
  rw [mem_next]
  simp only [rdData,next,Bool.and_eq_true,decide_eq_true_eq,@eq_comm _ rdAddr]
end
end MemBlock
end Patmos
