import Mathlib.Data.List.Basic
namespace Numbered
-- The first n words of a block are those of the k-th of the blocks written.
def Matches (written : List (Nat → α)) (k n : Nat) (content : Nat → α) : Prop :=
  ∃ block, written[k]? = some block ∧ ∀ i < n, content i = block i

variable {written : List (Nat → α)}

theorem Matches.append (same : Matches written k n content) (block : Nat → α) :
    Matches (written ++ [block]) k n content := by
  obtain ⟨there,found,words⟩ := same
  have bound : k < written.length := (List.getElem?_eq_some_iff.mp found).1
  exact ⟨there,by rw [List.getElem?_append_left bound,found],words⟩

theorem Matches.congr (same : Matches written k n content) (agree : ∀ i < n, other i = content i) :
    Matches written k n other := by
  obtain ⟨there,found,words⟩ := same
  exact ⟨there,found,fun i inside => by rw [agree i inside,words i inside]⟩

theorem Matches.extend (copied : Matches written k n content) (whole : Matches written k words other) (inside : n < words) :
    Matches written k (n+1) (Function.update content n (other n)) := by
  obtain ⟨there,found,before⟩ := copied
  obtain ⟨same,again,all⟩ := whole
  rw [found] at again
  cases again
  refine ⟨there,found,fun i bound => ?_⟩
  by_cases last : i = n
  · rw [last,Function.update_self,all n inside]
  · rw [Function.update_of_ne last,before i (by omega)]

theorem Matches.weaken (same : Matches written k n content) (fewer : words ≤ n) : Matches written k words content := by
  obtain ⟨there,found,all⟩ := same
  exact ⟨there,found,fun i inside => all i (Nat.lt_of_lt_of_le inside fewer)⟩

theorem matches_last (written : List (Nat → α)) (block : Nat → α) (n : Nat) :
    Matches (written ++ [block]) written.length n block :=
  ⟨block,by simp,fun _ _ => rfl⟩
end Numbered
