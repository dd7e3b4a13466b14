import Mathlib.Algebra.Group.Nat.Defs
import Mathlib.Data.Nat.Log
namespace Register
-- The width Chisel gives a register that counts n values.
def log2Up (n : Nat) : Nat := max (Nat.clog 2 n) 1

theorem le_two_pow_log2Up (n : Nat) : n ≤ 2^log2Up n :=
  (Nat.le_pow_clog (by decide) n).trans (Nat.pow_le_pow_right (by decide) (Nat.le_max_left _ _))

theorem log2Up_two_pow (k : Nat) : log2Up (2^(k+1)) = k+1 := by
  rw [log2Up,Nat.clog_pow 2 (k+1) (by decide)]
  omega

theorem succ_mod (positive : 0 < n) (k : Nat) : (if k % n = n-1 then 0 else k % n + 1) = (k+1) % n := by
  have below := Nat.mod_lt k positive
  rw [← Nat.mod_add_mod]
  split
  case isTrue last => rw [last,Nat.sub_add_cancel positive,Nat.mod_self]
  case isFalse more => exact (Nat.mod_eq_of_lt (by omega)).symm

theorem counter_next (positive : 0 < n) (k : Nat) :
    (if k % n = n-1 then 0 else (k % n + 1) % 2^log2Up n) = (k+1) % n := by
  rw [← succ_mod positive]
  split
  case isTrue => rfl
  case isFalse more =>
    have below := Nat.mod_lt k positive
    have width := le_two_pow_log2Up n
    exact Nat.mod_eq_of_lt (by omega)
end Register
