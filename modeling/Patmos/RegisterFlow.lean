namespace RegisterFlow
variable {ρ ι V : Type}

-- In every cycle each register takes the content of a register or an input.
def values (source : Nat → ρ → ρ ⊕ ι) (reset : ρ → V) (input : Nat → ι → V) : Nat → ρ → V
  | 0,x => reset x
  | t+1,x =>
    match source t x with
    | .inl y => values source reset input t y
    | .inr i => input t i

-- Where the content of a register comes from: a register at reset, or an input with the cycle in which it was taken.
def origin (source : Nat → ρ → ρ ⊕ ι) : Nat → ρ → ρ ⊕ (Nat × ι)
  | 0,x => .inl x
  | t+1,x =>
    match source t x with
    | .inl y => origin source t y
    | .inr i => .inr (t,i)

variable {source : Nat → ρ → ρ ⊕ ι}

theorem origin_moved (moved : source t x = .inl y) : origin source (t+1) x = origin source t y := by
  rw [origin,moved]

theorem origin_taken (taken : source t x = .inr i) : origin source (t+1) x = .inr (t,i) := by
  rw [origin,taken]

theorem values_origin (source : Nat → ρ → ρ ⊕ ι) (reset : ρ → V) (input : Nat → ι → V) (t : Nat) (x : ρ) :
    values source reset input t x = (origin source t x).elim reset fun word => input word.1 word.2 := by
  induction t generalizing x with
  | zero => rfl
  | succ t ih =>
    rw [values,origin]
    cases source t x with
    | inl y => exact ih y
    | inr i => rfl
end RegisterFlow
