import Mathlib.Data.List.Basic
namespace Transactions
inductive Op (α β : Type) where
  | read (a : α) (v : β)
  | write (a : α) (v : β)
  deriving DecidableEq, Repr

variable {α β : Type} [DecidableEq α] [DecidableEq β]

-- A read that returned something else does not fit the memory.
def perform (m : α → β) : Op α β → Option (α → β)
  | .read a v => if m a = v then some m else none
  | .write a v => some (Function.update m a v)

def exec (m : α → β) (ops : List (Op α β)) : Option (α → β) := ops.foldlM perform m

-- One transaction after the other.
def serial (m : α → β) (transactions : List (List (Op α β))) : Option (α → β) := transactions.foldlM exec m

theorem exec_concat (done : exec m ops = some m') (op : Op α β) : exec m (ops ++ [op]) = perform m' op := by
  rw [exec,List.foldlM_append,← exec,done]
  simp

theorem serial_concat {transactions : List (List (Op α β))} (done : serial m transactions = some m')
    (last : exec m' ops = some m'') : serial m (transactions ++ [ops]) = some m'' := by
  rw [serial,List.foldlM_append,← serial,done]
  simp [last]

def overlay (leaves : α → Option β) (m : α → β) : α → β := fun a => (leaves a).getD (m a)

-- The operations fit every memory that has the values they need, and change it to what they leave.
def Summary (ops : List (Op α β)) (needs leaves : α → Option β) : Prop :=
  ∀ m : α → β, (∀ a v, needs a = some v → m a = v) → exec m ops = some (overlay leaves m)

namespace Summary
variable {ops : List (Op α β)} {needs leaves : α → Option β}

theorem nil : Summary ([] : List (Op α β)) (fun _ => none) fun _ => none := by
  intro m _
  rfl

theorem write (summary : Summary ops needs leaves) (a : α) (v : β) :
    Summary (ops ++ [.write a v]) needs (Function.update leaves a (some v)) := by
  intro m fits
  rw [exec_concat (summary m fits)]
  apply congrArg some
  funext b
  by_cases same : b = a
  · subst same
    simp [overlay]
  · simp [overlay,same]

theorem again (summary : Summary ops needs leaves) (known : leaves a = some v ∨ leaves a = none ∧ needs a = some v) :
    Summary (ops ++ [.read a v]) needs leaves := by
  intro m fits
  rw [exec_concat (summary m fits)]
  apply if_pos
  rcases known with left | ⟨none,needed⟩
  · simp [overlay,left]
  · simp [overlay,none,fits a v needed]

theorem fetch (summary : Summary ops needs leaves) (unwritten : leaves a = none) (unread : needs a = none) (v : β) :
    Summary (ops ++ [.read a v]) (Function.update needs a (some v)) leaves := by
  intro m fits
  have before : ∀ b w, needs b = some w → m b = w := by
    intro b w needed
    apply fits
    rw [Function.update_of_ne ?_,needed]
    rintro rfl
    rw [unread] at needed
    cases needed
  rw [exec_concat (summary m before)]
  apply if_pos
  simp [overlay,unwritten,fits a v (Function.update_self a (some v) needs)]
end Summary
end Transactions
