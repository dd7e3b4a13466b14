import Mathlib.Algebra.Group.Nat.Defs
import Mathlib.Data.List.Basic
namespace Transition
open List

-- One clock cycle of a synchronous design. The input collects everything the surroundings choose in that cycle;
-- `admits` is the protocol they keep to.
structure System (σ ι : Type) where
  start : σ → Prop
  admits : σ → ι → Prop
  next : σ → ι → σ

inductive Reached (m : System σ ι) : σ → Prop where
  | start : m.start s → Reached m s
  | step : Reached m s → m.admits s i → Reached m (m.next s i)

theorem Reached.invariant {m : System σ ι} {valid : σ → Prop} (path : Reached m s)
    (initial : ∀ s, m.start s → valid s)
    (preserved : ∀ s i, valid s → m.admits s i → valid (m.next s i)) : valid s := by
  induction path with
  | start begun => exact initial _ begun
  | step _ admitted ih => exact preserved _ _ ih admitted

-- The runs in which every step also meets a condition on the state before it.
def System.restrict (m : System σ ι) (condition : σ → ι → Prop) : System σ ι :=
  {m with admits := fun s i => m.admits s i ∧ condition s i}

instance System.decidableRestrict (m : System σ ι) (condition : σ → ι → Prop) [∀ s i, Decidable (m.admits s i)]
    [∀ s i, Decidable (condition s i)] (s : σ) (i : ι) : Decidable ((m.restrict condition).admits s i) :=
  inferInstanceAs (Decidable (m.admits s i ∧ condition s i))

theorem Reached.relax {m : System σ ι} {condition : σ → ι → Prop}
    (path : Reached (m.restrict condition) s) : Reached m s := by
  induction path with
  | start begun => exact .start begun
  | step _ admitted ih => exact .step ih admitted.1

def System.run (m : System σ ι) : σ → List ι → σ
  | s,[] => s
  | s,i :: rest => m.run (m.next s i) rest

theorem System.restrict_run (m : System σ ι) (condition : σ → ι → Prop) (s : σ) (inputs : List ι) :
    (m.restrict condition).run s inputs = m.run s inputs := by
  induction inputs generalizing s with
  | nil => rfl
  | cons i rest ih => exact ih (m.next s i)

def System.Admits (m : System σ ι) : σ → List ι → Prop
  | _,[] => True
  | s,i :: rest => m.admits s i ∧ m.Admits (m.next s i) rest

instance System.decidableAdmits (m : System σ ι) [∀ s i, Decidable (m.admits s i)] :
    ∀ s inputs, Decidable (m.Admits s inputs)
  | _,[] => isTrue trivial
  | s,i :: rest =>
    have := m.decidableAdmits (m.next s i) rest
    inferInstanceAs (Decidable (m.admits s i ∧ m.Admits (m.next s i) rest))

theorem Reached.run {m : System σ ι} (path : Reached m s) (inputs : List ι)
    (admitted : m.Admits s inputs) : Reached m (m.run s inputs) := by
  induction inputs generalizing s with
  | nil => exact path
  | cons i rest ih => exact ih (.step path admitted.1) admitted.2

-- A run to a state with a property, checked in one pass.
def System.Visits (m : System σ ι) (goal : σ → Prop) : σ → List ι → Prop
  | s,[] => goal s
  | s,i :: rest => m.admits s i ∧ m.Visits goal (m.next s i) rest

instance System.decidableVisits (m : System σ ι) (goal : σ → Prop) [∀ s i, Decidable (m.admits s i)] [DecidablePred goal] :
    ∀ s inputs, Decidable (m.Visits goal s inputs)
  | s,[] => inferInstanceAs (Decidable (goal s))
  | s,i :: rest =>
    have := m.decidableVisits goal (m.next s i) rest
    inferInstanceAs (Decidable (m.admits s i ∧ m.Visits goal (m.next s i) rest))

theorem Reached.visits {m : System σ ι} {p : σ → Prop} (path : Reached m s) (inputs : List ι)
    (visits : m.Visits p s inputs) : ∃ t, Reached m t ∧ p t := by
  induction inputs generalizing s with
  | nil => exact ⟨s,path,visits⟩
  | cons i rest ih => exact ih (.step path visits.1) visits.2

-- What one observer records over a run, cycle after cycle.
def System.record (m : System σ ι) (observe : σ → ι → List ε) : σ → List ι → List ε
  | _,[] => []
  | s,i :: rest => observe s i ++ m.record observe (m.next s i) rest

section
variable (m : System σ ι) (observe : σ → ι → List ε) (s : σ) (left right : List ι)

theorem System.run_append : m.run s (left ++ right) = m.run (m.run s left) right := by
  induction left generalizing s with
  | nil => rfl
  | cons i rest ih => exact ih (m.next s i)

theorem System.admits_append : m.Admits s (left ++ right) ↔ m.Admits s left ∧ m.Admits (m.run s left) right := by
  induction left generalizing s with
  | nil => exact ⟨fun admitted => ⟨trivial,admitted⟩,And.right⟩
  | cons i rest ih => exact (and_congr_right fun _ => ih (m.next s i)).trans and_assoc.symm

theorem System.record_append :
    m.record observe s (left ++ right) = m.record observe s left ++ m.record observe (m.run s left) right := by
  induction left generalizing s with
  | nil => rfl
  | cons i rest ih =>
    rw [cons_append,System.record,System.record,ih,append_assoc]
    rfl

theorem System.record_input (observe : σ → ι → ε) (port : ι → ε) (sees : ∀ s i, observe s i = port i) (s : σ)
    (inputs : List ι) : m.record (fun s i => [observe s i]) s inputs = inputs.map port := by
  induction inputs generalizing s with
  | nil => rfl
  | cons i rest ih => exact congrArg₂ cons (sees s i) (ih (m.next s i))
end

-- A register shows what came in one cycle before.
theorem System.record_register {m : System σ ι} {register : σ → ε} {port : ι → ε} (loads : ∀ s i, register (m.next s i) = port i)
    (s : σ) (inputs : List ι) (i : ι) : m.record (fun s _ => [register s]) s (inputs ++ [i]) = register s :: inputs.map port := by
  induction inputs generalizing s with
  | nil => rfl
  | cons first rest ih =>
    change register s :: m.record _ (m.next s first) (rest ++ [i]) = _
    rw [ih,loads,map_cons]

theorem Reached.record_eq {m : System σ ι} {left right : σ → ι → List ε} (path : Reached m s)
    (agree : ∀ s i, Reached m s → m.admits s i → left s i = right s i)
    (inputs : List ι) (admitted : m.Admits s inputs) :
    m.record left s inputs = m.record right s inputs := by
  induction inputs generalizing s with
  | nil => rfl
  | cons i rest ih =>
    simp only [System.record]
    rw [agree s i path admitted.1,ih (.step path admitted.1) admitted.2]

theorem Reached.record_flow {m : System σ ι} {leaves enters : σ → ι → List ε} {inside : σ → List ε} (path : Reached m s)
    (flow : ∀ s i, Reached m s → m.admits s i → leaves s i ++ inside (m.next s i) = inside s ++ enters s i)
    (inputs : List ι) (admitted : m.Admits s inputs) :
    m.record leaves s inputs ++ inside (m.run s inputs) = inside s ++ m.record enters s inputs := by
  induction inputs generalizing s with
  | nil => simp only [System.record,System.run,nil_append,append_nil]
  | cons i rest ih =>
    simp only [System.record,System.run]
    rw [append_assoc,ih (.step path admitted.1) admitted.2,← append_assoc,flow s i path admitted.1,
      append_assoc]

theorem Reached.record_replay {m : System σ ι} {observe : σ → ι → List ε} {apply : β → ε → β} {view : σ → β} (path : Reached m s)
    (follows : ∀ s i, Reached m s → m.admits s i → view (m.next s i) = (observe s i).foldl apply (view s))
    (inputs : List ι) (admitted : m.Admits s inputs) :
    view (m.run s inputs) = (m.record observe s inputs).foldl apply (view s) := by
  induction inputs generalizing s with
  | nil => rfl
  | cons i rest ih =>
    simp only [System.record,System.run]
    rw [ih (.step path admitted.1) admitted.2,follows s i path admitted.1,foldl_append]

-- The states of one infinite run, by cycle.
def System.states (m : System σ ι) (start : σ) (inputs : Nat → ι) : Nat → σ
  | 0 => start
  | t+1 => m.next (m.states start inputs t) (inputs t)

def System.Follows (m : System σ ι) (start : σ) (inputs : Nat → ι) (t : Nat) : Prop :=
  ∀ u < t, m.admits (m.states start inputs u) (inputs u)

theorem Reached.states {m : System σ ι} {inputs : Nat → ι} (path : Reached m s) (follows : m.Follows s inputs t) :
    Reached m (m.states s inputs t) := by
  induction t with
  | zero => exact path
  | succ t ih => exact .step (ih fun u earlier => follows u (Nat.lt_succ_of_lt earlier)) (follows t (Nat.lt_succ_self t))

theorem System.states_shift (m : System σ ι) (s : σ) (inputs : Nat → ι) (t : Nat) :
    m.states s inputs (t+1) = m.states (m.next s (inputs 0)) (fun u => inputs (u+1)) t := by
  induction t with
  | zero => rfl
  | succ t ih =>
    rw [System.states,ih]
    rfl

theorem System.follows_shift {m : System σ ι} {s : σ} {inputs : Nat → ι} (follows : ∀ t, m.Follows s inputs t) (t : Nat) :
    m.Follows (m.next s (inputs 0)) (fun u => inputs (u+1)) t := by
  intro u earlier
  rw [← m.states_shift]
  exact follows (t+1) (u+1) (Nat.succ_lt_succ earlier)

-- What waits is served when every other step brings it nearer.
theorem Reached.served {m : System σ ι} {waiting served : σ → Prop} {r : σ → Nat}
    (progress : ∀ s i, Reached m s → m.admits s i → waiting s → ¬served s → waiting (m.next s i) ∧ r (m.next s i) < r s)
    {inputs : Nat → ι} (path : Reached m s) (follows : ∀ t, m.Follows s inputs t) (waits : waiting s) :
    ∃ t ≤ r s, waiting (m.states s inputs t) ∧ served (m.states s inputs t) := by
  generalize bound : r s = n
  induction n using Nat.strongRecOn generalizing s inputs with
  | ind n ih =>
    by_cases now : served s
    · exact ⟨0,Nat.zero_le n,waits,now⟩
    · have admitted := follows 1 0 Nat.zero_lt_one
      obtain ⟨still,nearer⟩ := progress s (inputs 0) path admitted waits now
      obtain ⟨t,within,served⟩ :=
        ih _ (bound ▸ nearer) (.step path admitted) (System.follows_shift follows) still rfl
      refine ⟨t+1,by omega,?_⟩
      rw [m.states_shift]
      exact served

-- What waits is answered when every step answers it or brings it nearer.
theorem Reached.answered {m : System σ ι} {waiting : σ → Prop} (answered : σ → Prop) (r : σ → Nat)
    (progress : ∀ s i, Reached m s → m.admits s i → waiting s →
      answered (m.next s i) ∨ waiting (m.next s i) ∧ r (m.next s i) < r s)
    {inputs : Nat → ι} (path : Reached m s) (follows : ∀ t, m.Follows s inputs t) (waits : waiting s) :
    ∃ t ≤ r s+1, answered (m.states s inputs t) := by
  generalize bound : r s = n
  induction n using Nat.strongRecOn generalizing s inputs with
  | ind n ih =>
    have admitted := follows 1 0 Nat.zero_lt_one
    rcases progress s (inputs 0) path admitted waits with answered | ⟨still,nearer⟩
    · exact ⟨1,Nat.le_add_left 1 n,answered⟩
    · obtain ⟨t,within,answered⟩ := ih _ (bound ▸ nearer) (.step path admitted) (System.follows_shift follows) still rfl
      refine ⟨t+1,by omega,?_⟩
      rw [m.states_shift]
      exact answered

-- From cycle t on one property holds until the other does.
def System.Until (m : System σ ι) (before after : σ → Prop) (s : σ) (inputs : Nat → ι) (t : Nat) : Prop :=
  ∃ u, t ≤ u ∧ after (m.states s inputs (u+1)) ∧ ∀ v, t ≤ v → v ≤ u → before (m.states s inputs v)

section
variable {m : System σ ι} {inputs : Nat → ι} {before after : σ → Prop} (holds : before (m.states s inputs t))
include holds

theorem System.until_now (ends : after (m.states s inputs (t+1))) : m.Until before after s inputs t :=
  ⟨t,Nat.le_refl t,ends,fun _ since upTo => Nat.le_antisymm since upTo ▸ holds⟩

theorem System.until_later (rest : m.Until before after s inputs (t+1)) : m.Until before after s inputs t := by
  obtain ⟨u,later,ends,through⟩ := rest
  refine ⟨u,Nat.le_of_succ_le later,ends,fun v since upTo => ?_⟩
  rcases Nat.eq_or_lt_of_le since with rfl | past
  · exact holds
  · exact through v past upTo
end

-- A run that is held up again and again, but never for good, comes to its end: every step ends it, brings it nearer or
-- is one in which it is held up.
theorem System.settles {m : System σ ι} {valid : Nat → σ → Prop} {ended : σ → Prop} {held : σ → ι → Prop}
    (progress : ∀ r s i, valid r s → m.admits s i →
      ended (m.next s i) ∨ ∃ k, valid k (m.next s i) ∧ (k < r ∨ (k = r ∧ held s i)))
    {inputs : Nat → ι} (follows : ∀ t, m.Follows s inputs t)
    (fair : ∀ t, ∃ u, t ≤ u ∧ ¬held (m.states s inputs u) (inputs u)) (holds : valid r (m.states s inputs t)) :
    m.Until (fun s => ∃ k, valid k s) ended s inputs t := by
  induction r using Nat.strongRecOn generalizing t with
  | ind r nearer =>
    obtain ⟨free,later,moves⟩ := fair t
    obtain ⟨gap,rfl⟩ := Nat.exists_eq_add_of_le later
    -- The inner induction is on the cycles until the run is not held up.
    induction gap generalizing t with
    | zero =>
      rcases progress r _ _ holds (follows (t+1) t (Nat.lt_succ_self t)) with finished | ⟨k,still,less | ⟨-,stuck⟩⟩
      · exact System.until_now ⟨r,holds⟩ finished
      · exact System.until_later ⟨r,holds⟩ (nearer k less (t := t+1) still)
      · exact absurd stuck moves
    | succ gap ih =>
      rcases progress r _ _ holds (follows (t+1) t (Nat.lt_succ_self t)) with finished | ⟨k,still,less | ⟨rfl,-⟩⟩
      · exact System.until_now ⟨r,holds⟩ finished
      · exact System.until_later ⟨r,holds⟩ (nearer k less (t := t+1) still)
      · exact System.until_later ⟨k,holds⟩ (ih (t := t+1) still (by omega) (by rwa [Nat.add_right_comm t 1 gap]))

-- Surroundings that choose their input from the state.
def System.driven (m : System σ ι) (control : σ → ι) (start : σ) : Nat → σ
  | 0 => start
  | t+1 => m.next (m.driven control start t) (control (m.driven control start t))

theorem System.states_driven (m : System σ ι) (control : σ → ι) (start : σ) (t : Nat) :
    m.states start (fun u => control (m.driven control start u)) t = m.driven control start t := by
  induction t with
  | zero => rfl
  | succ t ih => rw [System.states,ih,System.driven]

-- A run together with what a monitor keeps of it.
def System.monitored (m : System σ ι) (watch : σ → ι → β → β) : System (σ × β) ι where
  start s := m.start s.1
  admits s := m.admits s.1
  next s i := (m.next s.1 i,watch s.1 i s.2)

def System.monitor (m : System σ ι) (watch : σ → ι → β → β) (start : σ) (inputs : Nat → ι) (b : β) : Nat → β
  | 0 => b
  | t+1 => watch (m.states start inputs t) (inputs t) (m.monitor watch start inputs b t)

theorem System.states_monitored (m : System σ ι) (watch : σ → ι → β → β) (start : σ) (inputs : Nat → ι) (b : β) (t : Nat) :
    (m.monitored watch).states (start,b) inputs t = (m.states start inputs t,m.monitor watch start inputs b t) := by
  induction t with
  | zero => rfl
  | succ t ih =>
    rw [System.states,ih]
    rfl
end Transition
