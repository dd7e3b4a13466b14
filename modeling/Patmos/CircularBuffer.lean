import Mathlib.Algebra.BigOperators.Group.Finset.Basic
import Mathlib.Data.Nat.ModEq
namespace CircularBuffer
open Nat

-- A window of an unbounded sequence of positions is kept in an array of `size` cells: position i is in the cell i %
-- size.
def Holds (size : Nat) (cells : Nat → α) (expected : Nat → α → Prop) (first last : Nat) : Prop :=
  ∀ i, first ≤ i → i < last → expected i (cells (i % size))

theorem position_ne {size : Nat} (ordered : i < j) (near : j < i+size) : i % size ≠ j % size := by
  intro same
  have nothing := eq_zero_of_dvd_of_lt ((modEq_iff_dvd' ordered.le).mp same) (by omega)
  omega

theorem position_unique {size : Nat} (same : i % size = j % size) (left : first ≤ i) (leftBound : i < first+size)
    (right : first ≤ j) (rightBound : j < first+size) : i = j := by
  rcases lt_trichotomy i j with less | equal | more
  · exact absurd same (position_ne less (by omega))
  · exact equal
  · exact absurd same.symm (position_ne more (by omega))

theorem cell_covered {size : Nat} (cell : i < size) (first : Nat) : ∃ j, first ≤ j ∧ j < first+size ∧ j % size = i := by
  have positive := zero_lt_of_lt cell
  have rest := mod_lt first positive
  have whole := div_add_mod first size
  by_cases wraps : i < first % size
  · refine ⟨size*(first/size)+size+i,by omega,by omega,?_⟩
    rw [add_assoc,mul_add_mod,add_mod_left,mod_eq_of_lt cell]
  · refine ⟨size*(first/size)+i,by omega,by omega,?_⟩
    rw [mul_add_mod,mod_eq_of_lt cell]

theorem window_sum [AddCommMonoid β] (size : Nat) (value : Nat → β) (first : Nat) :
    ∑ k ∈ Finset.range size, value ((first+k) % size) = ∑ i ∈ Finset.range size, value i := by
  induction first with
  | zero =>
    refine Finset.sum_congr rfl fun k member => ?_
    rw [zero_add,mod_eq_of_lt (Finset.mem_range.mp member)]
  | succ first ih =>
    rw [← ih]
    cases size with
    | zero => rfl
    | succ size =>
      -- What leaves the window at its start comes back at its end.
      have wraps : (first+1+size) % (size+1) = (first+0) % (size+1) := by
        rw [add_assoc,add_comm 1 size,add_mod_right]
        rfl
      rw [Finset.sum_range_succ,Finset.sum_range_succ',wraps]
      simp only [add_assoc,add_comm 1]

namespace Holds
variable {size : Nat} {cells : Nat → α} {expected wanted : Nat → α → Prop} {first last : Nat}

theorem empty (nothing : last ≤ first) : Holds size cells expected first last := by
  intro i above below
  exact absurd (below.trans_le nothing) above.not_gt

section
variable (held : Holds size cells expected first last)
include held

theorem within (above : first ≤ lower) (below : upper ≤ last) : Holds size cells expected lower upper :=
  fun i left right => held i (above.trans left) (right.trans_le below)

theorem weaken (follows : ∀ i value, first ≤ i → i < last → expected i value → wanted i value) : Holds size cells wanted first last :=
  fun i left right => follows i _ left right (held i left right)

theorem map (f : α → α)
    (follows : ∀ i value, expected i value → wanted i (f value)) : Holds size (fun i => f (cells i)) wanted first last :=
  fun i left right => follows i _ (held i left right)

theorem write (fits : last ≤ first+size) (above : first ≤ position) (below : position < first+size)
    (others : ∀ i value, first ≤ i → i < last → i ≠ position → expected i value → wanted i value)
    (own : position < last → wanted position value) :
    Holds size (Function.update cells (position % size) value) wanted first last := by
  intro i left right
  by_cases here : i = position
  · subst here
    rw [Function.update_self]
    exact own right
  · have elsewhere : i % size ≠ position % size := fun same =>
      here (position_unique same left (right.trans_le fits) above below)
    rw [Function.update_of_ne elsewhere]
    exact others i _ left right here (held i left right)

theorem push (ordered : first ≤ last) (room : last < first+size) (value : α) (fresh : expected last value) :
    Holds size (Function.update cells (last % size) value) expected first (last+1) := by
  have kept := @Holds.write _ _ _ _ expected _ _ held _ value room.le ordered room (fun _ _ _ _ _ known => known)
    (fun below => absurd below (lt_irrefl _))
  intro i left right
  rcases Nat.lt_succ_iff_lt_or_eq.mp right with old | rfl
  · exact kept i left old
  · rwa [Function.update_self]
end
end Holds
end CircularBuffer
