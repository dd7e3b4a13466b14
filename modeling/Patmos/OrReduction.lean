import Mathlib.Data.List.Basic
namespace OrReduction
-- Wires that are joined by an or, all but one of them being zero.
structure Joins (op : α → α → α) (zero : α) : Prop where
  left : ∀ x, op zero x = x
  right : ∀ x, op x zero = x
  same : ∀ x, op x x = x

theorem foldl_single {op : α → α → α} (joins : Joins op zero) (value : α) (inputs : List α) (sum : α)
    (others : ∀ x ∈ inputs, x = zero ∨ x = value) (present : sum = value ∨ sum = zero ∧ value ∈ inputs) :
    inputs.foldl op sum = value := by
  induction inputs generalizing sum with
  | nil => simpa using present
  | cons x rest ih =>
    refine ih _ (fun y member => others y (.tail _ member)) ?_
    rcases others x (.head _) with rfl | rfl
    · rw [joins.right]
      rcases present with rfl | ⟨rfl,member⟩
      · exact .inl rfl
      · rcases List.mem_cons.1 member with rfl | later
        · exact .inl rfl
        · exact .inr ⟨rfl,later⟩
    · rcases present with rfl | ⟨rfl,_⟩
      · exact .inl (joins.same _)
      · exact .inl (joins.left _)
end OrReduction
