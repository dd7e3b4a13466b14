import Patmos.MemBlock
namespace Patmos
-- An array split over two memory blocks by the lowest address bit, so that two neighbouring cells can be read in one
-- cycle.
structure Banked (α : Type) where
  even : MemBlock α
  odd : MemBlock α

namespace Banked
def content (b : Banked α) (cell : Nat) : α := if cell % 2 = 0 then b.even.mem (cell/2) else b.odd.mem (cell/2)

def next (b : Banked α) (rdEven rdOdd : Nat) (wrEna : Bool) (wrCell : Nat) (wrData : α) : Banked α where
  even := b.even.next rdEven (wrEna && wrCell % 2 == 0) (wrCell/2) wrData
  odd := b.odd.next rdOdd (wrEna && wrCell % 2 == 1) (wrCell/2) wrData

section
variable (b : Banked α) (rdEven rdOdd : Nat) (wrEna : Bool) (wrCell : Nat) (wrData : α)

theorem content_next (cell : Nat) :
    (b.next rdEven rdOdd wrEna wrCell wrData).content cell = if wrEna ∧ cell = wrCell then wrData else b.content cell := by
  have same : cell = wrCell ↔ cell % 2 = wrCell % 2 ∧ cell/2 = wrCell/2 := by omega
  simp only [content,next,MemBlock.mem_next,Bool.and_eq_true,beq_iff_eq,same]
  rcases Nat.mod_two_eq_zero_or_one cell with low | low <;> simp [low,eq_comm,and_assoc]

theorem even_next (low : cell % 2 = 0) (address : rdEven = cell/2) :
    (b.next rdEven rdOdd wrEna wrCell wrData).even.rdData = (b.next rdEven rdOdd wrEna wrCell wrData).content cell := by
  rw [content,if_pos low,← address]
  exact MemBlock.rdData_next _ _ _ _ _

theorem odd_next (high : cell % 2 = 1) (address : rdOdd = cell/2) :
    (b.next rdEven rdOdd wrEna wrCell wrData).odd.rdData = (b.next rdEven rdOdd wrEna wrCell wrData).content cell := by
  rw [content,if_neg (by omega),← address]
  exact MemBlock.rdData_next _ _ _ _ _
end
end Banked
end Patmos
