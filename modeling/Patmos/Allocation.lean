import Mathlib.Data.List.Basic
namespace Allocation
open Function

-- Slots that are taken by one owner or assigned to a set of owners.
inductive Op (ι σ : Type) where
  | take (owner : ι) (slot : σ)
  | assign (slot : σ) (owners : ι → Bool)

variable {ι σ : Type} [DecidableEq ι] [DecidableEq σ]

def only (i : ι) : ι → Bool := fun j => j = i

def Empty (owners : ι → Bool) : Prop := ∀ i, owners i = false

theorem only_not_empty (i : ι) : ¬Empty (only i) := fun empty => by simpa [only] using empty i

section
variable (held : σ → ι → Bool) (ops : List (Op ι σ))

def apply : Op ι σ → σ → ι → Bool
  | .take i slot => update held slot (only i)
  | .assign slot owners => update held slot owners

def after : σ → ι → Bool := ops.foldl apply held

theorem after_append (ops later : List (Op ι σ)) :
    after held (ops ++ later) = after (after held ops) later := List.foldl_append

theorem after_held (slot : σ) (taken : ¬Empty (held slot))
    (kept : ∀ owners, .assign slot owners ∈ ops → ¬Empty owners) : ¬Empty (after held ops slot) := by
  induction ops generalizing held with
  | nil => exact taken
  | cons op rest ih =>
    refine ih (apply held op) ?_ fun owners later => kept owners (.tail _ later)
    cases op with
    | take i other =>
      by_cases here : slot = other
      · subst here
        rw [apply,update_self]
        exact only_not_empty i
      · rw [apply,update_of_ne here]
        exact taken
    | assign other owners =>
      by_cases here : slot = other
      · subst here
        rw [apply,update_self]
        exact kept owners (.head _)
      · rw [apply,update_of_ne here]
        exact taken

def Sound : Prop := ∀ earlier i slot later, ops = earlier ++ .take i slot :: later → Empty (after held earlier slot)
end

theorem Sound.released {held : σ → ι → Bool} {ops : List (Op ι σ)} (sound : Sound held ops)
    (split : ops = earlier ++ .take i slot :: (middle ++ .take k slot :: later)) :
    ∃ owners, .assign slot owners ∈ middle ∧ Empty owners := by
  have empty := sound (earlier ++ .take i slot :: middle) k slot later (by simp [split])
  rw [after_append] at empty
  by_contra none
  refine after_held (apply (after held earlier) (.take i slot)) middle slot ?_ (fun owners member free => none ⟨owners,member,free⟩)
    empty
  rw [apply,update_self]
  exact only_not_empty i
end Allocation
