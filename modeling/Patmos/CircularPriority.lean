import Mathlib.Algebra.Group.Nat.Defs
import Mathlib.Data.Fintype.Basic
namespace CircularPriority
open Fin

-- The first wire that is set, the last one if none is.
def encode : (cnt : Nat) → (Fin (cnt+1) → Bool) → Fin (cnt+1)
  | 0,_ => last 0
  | cnt+1,wires => if wires ⟨0,Nat.succ_pos _⟩ then ⟨0,Nat.succ_pos _⟩ else (encode cnt fun i => wires i.succ).succ

theorem encode_first (cnt : Nat) (wires : Fin (cnt+1) → Bool) {i : Fin (cnt+1)} (set : wires i = true) :
    wires (encode cnt wires) = true ∧ ∀ j < encode cnt wires, wires j = false := by
  induction cnt with
  | zero =>
    have only : i = encode 0 wires := Fin.ext (by omega)
    exact ⟨only ▸ set,fun j earlier => absurd earlier (Nat.not_lt_zero _)⟩
  | succ cnt ih =>
    cases first : wires ⟨0,Nat.succ_pos _⟩ with
    | true =>
      rw [encode,if_pos first]
      exact ⟨first,fun j earlier => absurd earlier (Nat.not_lt_zero _)⟩
    | false =>
      rw [encode,if_neg (by rw [first]; decide)]
      induction i using cases with
      | zero => exact absurd (set.symm.trans first) (by decide)
      | succ i =>
        obtain ⟨here,before⟩ := ih (fun i => wires i.succ) set
        refine ⟨here,fun j earlier => ?_⟩
        induction j using cases with
        | zero => exact first
        | succ j => exact before j (succ_lt_succ_iff.mp earlier)

variable {cnt : Nat} {member : Fin (cnt+1) → Bool} {cur i k : Fin (cnt+1)}

section
variable (cur : Fin (cnt+1)) (member : Fin (cnt+1) → Bool)

def hi (j : Fin (cnt+1)) : Bool := member j && cur ≤ j
def lo (j : Fin (cnt+1)) : Bool := member j && j < cur

def next : Fin (cnt+1) := if ∃ j, hi cur member j = true then encode cnt (hi cur member) else encode cnt (lo cur member)
end

-- Counting upwards from the current position and round, the next one is the first member.
theorem next_first (set : member i = true) : member (next cur member) = true ∧
    ((cur ≤ next cur member ∧ ∀ j, cur ≤ j → j < next cur member → member j = false) ∨
      (next cur member < cur ∧ (∀ j, cur ≤ j → member j = false) ∧ ∀ j < next cur member, member j = false)) := by
  unfold next
  split
  case isTrue some =>
    obtain ⟨j,high⟩ := some
    obtain ⟨here,before⟩ := encode_first cnt (hi cur member) high
    simp only [hi,Bool.and_eq_true,decide_eq_true_eq] at here
    refine ⟨here.1,.inl ⟨here.2,fun j above earlier => ?_⟩⟩
    simpa [hi,above] using before j earlier
  case isFalse none =>
    have below (j : Fin (cnt+1)) (above : cur ≤ j) : member j = false := by
      simpa [hi,above] using fun high => none ⟨j,high⟩
    have low : lo cur member i = true := by
      have under : i < cur := not_le.mp fun above => by simp [below i above] at set
      simp [lo,set,under]
    obtain ⟨here,before⟩ := encode_first cnt (lo cur member) low
    simp only [lo,Bool.and_eq_true,decide_eq_true_eq] at here
    refine ⟨here.1,.inr ⟨here.2,below,fun j earlier => ?_⟩⟩
    simpa [lo,lt_trans earlier here.2] using before j earlier

theorem next_stays (set : member cur = true) : next cur member = cur := by
  rcases (@next_first cnt member cur cur set).2 with ⟨above,before⟩ | ⟨-,none,-⟩
  · rcases lt_or_eq_of_le above with later | same
    · exact absurd (set.symm.trans (before cur (le_refl _) later)) (by decide)
    · exact same.symm
  · exact absurd (set.symm.trans (none cur (le_refl _))) (by decide)

-- Counting upwards from k and round, c comes after k and not after i.
def Ahead (k c i : Fin (cnt+1)) : Prop := (k < c ∧ c ≤ i) ∨ (i < k ∧ (k < c ∨ c ≤ i))

theorem Ahead.ne (ahead : Ahead k cur i) : cur ≠ k := by
  rintro rfl
  unfold Ahead at ahead
  omega

theorem next_between (cur : Fin (cnt+1)) (set : member i = true) : (cur.val ≤ i.val → cur.val ≤ (next cur member).val ∧ (next cur member).val ≤ i.val) ∧
    (i.val < cur.val → cur.val ≤ (next cur member).val ∨ (next cur member).val ≤ i.val) := by
  have seen (free : member i = false) : False := absurd (set.symm.trans free) (by decide)
  rcases (@next_first cnt member cur i set).2 with ⟨above,before⟩ | ⟨-,none,before⟩
  · have reached (inside : cur ≤ i) : next cur member ≤ i := not_lt.mp fun later => seen (before i inside later)
    exact ⟨fun inside => ⟨above,reached inside⟩,fun _ => .inl above⟩
  · exact ⟨fun inside => (seen (none i inside)).elim,fun _ => .inr (not_lt.mp fun later => seen (before i later))⟩

theorem Ahead.next (ahead : Ahead k cur i) (set : member i = true) : Ahead k (next cur member) i := by
  have between := next_between cur set
  unfold Ahead at *
  simp only [lt_def,le_def] at *
  omega

theorem ahead_leaves (set : member i = true) (free : member k = false) : Ahead k (next k member) i := by
  have between := next_between k set
  have moved : (CircularPriority.next k member).val ≠ k.val := fun same => by
    have here := (@next_first cnt member k i set).1
    rw [Fin.ext same,free] at here
    cases here
  unfold Ahead
  omega

def distance (n a b : Nat) : Nat := (b+n-a) % n

theorem distance_step {n a b : Nat} (left : a < n) (right : b < n) (other : a ≠ b) : distance n ((a+1) % n) b+1 = distance n a b := by
  unfold distance
  rcases Nat.lt_or_ge a b with before | after
  · rw [Nat.mod_eq_of_lt (show a+1 < n by omega),show b+n-(a+1) = b-(a+1)+n by omega,show b+n-a = b-a+n by omega,
      Nat.add_mod_right,Nat.add_mod_right,Nat.mod_eq_of_lt (by omega),Nat.mod_eq_of_lt (by omega)]
    omega
  · rw [Nat.mod_eq_of_lt (show b+n-a < n by omega)]
    rcases Nat.lt_or_ge (a+1) n with more | last
    · rw [Nat.mod_eq_of_lt more,Nat.mod_eq_of_lt (by omega)]
      omega
    · rw [show a+1 = n by omega,Nat.mod_self,Nat.sub_zero,Nat.add_mod_right,Nat.mod_eq_of_lt right]
      omega

theorem distance_round {n a : Nat} (left : a < n) : distance n ((a+1) % n) a+1 = n := by
  unfold distance
  rcases Nat.lt_or_ge (a+1) n with more | last
  · rw [Nat.mod_eq_of_lt more,Nat.mod_eq_of_lt (by omega)]
    omega
  · rw [show a+1 = n by omega,Nat.mod_self,Nat.sub_zero,Nat.add_mod_right,Nat.mod_eq_of_lt left]
    omega
end CircularPriority
