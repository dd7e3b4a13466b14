import Mathlib.Data.List.Basic
namespace PortHistory
open List

-- The value a log of writes leaves in a cell: that of the latest write to it.
def latest [DecidableEq γ] (origin : γ → β) (log : List (γ × β)) (cell : γ) : β :=
  ((log.reverse.find? fun w => w.1 = cell).map Prod.snd).getD (origin cell)

theorem latest_append [DecidableEq γ] (origin : γ → β) (log later : List (γ × β)) (cell : γ) :
    latest origin (log ++ later) cell = latest (latest origin log) later cell := by
  unfold latest
  rw [reverse_append,find?_append]
  cases later.reverse.find? fun w => w.1 = cell with
  | none | some w => simp

theorem latest_absent [DecidableEq γ] (origin : γ → β) (log : List (γ × β)) (absent : ∀ w ∈ log, w.1 ≠ cell) :
    latest origin log cell = origin cell := by
  have none : (log.reverse.find? fun w => w.1 = cell) = none :=
    find?_eq_none.mpr fun w inside => by simpa using absent w (mem_reverse.mp inside)
  rw [latest,none]
  rfl

theorem latest_written [DecidableEq γ] (origin : γ → β) (log : List (γ × β)) (inside : (cell,value) ∈ log)
    (same : ∀ w ∈ log, w.1 = cell → w.2 = value) : latest origin log cell = value := by
  unfold latest
  cases found : log.reverse.find? fun w => w.1 = cell with
  | none =>
    have missing := find?_eq_none.mp found _ (mem_reverse.mpr inside)
    simp at missing
  | some w =>
    have here : w.1 = cell := by simpa using find?_some found
    exact same w (mem_reverse.mp (mem_of_find?_eq_some found)) here

structure Access (ι κ ρ : Type) where
  port : ι
  command : κ
  result : ρ

structure Ports (ι κ ρ : Type) where
  commands : ι → List κ
  history : List (Access ι κ ρ)
  results : ι → List ρ

section Ports
variable {ι κ ρ : Type} [DecidableEq ι]

def ofPort (history : List (Access ι κ ρ)) (i : ι) : List (Access ι κ ρ) := history.filter fun a => a.port = i

theorem ofPort_append (history later : List (Access ι κ ρ)) (i : ι) :
    ofPort (history ++ later) i = ofPort history i ++ ofPort later i := filter_append _ _

theorem ofPort_single (a : Access ι κ ρ) (i : ι) : ofPort [a] i = if i = a.port then [a] else [] := by
  by_cases here : a.port = i
  · simp [ofPort,here]
  · simp [ofPort,here,Ne.symm here]

theorem ofPort_flatMap (ports : List ι) (entries : ι → List (Access ι κ ρ)) (own : ∀ j, ∀ a ∈ entries j, a.port = j)
    (distinct : ports.Nodup) (present : i ∈ ports) : ofPort (ports.flatMap entries) i = entries i := by
  induction ports with
  | nil => cases present
  | cons first rest ih =>
    obtain ⟨apart,distinct⟩ := nodup_cons.mp distinct
    rw [flatMap_cons,ofPort_append]
    by_cases here : first = i
    · subst here
      have all : ofPort (entries first) first = entries first :=
        filter_eq_self.mpr fun a member => decide_eq_true (own first a member)
      have none : ofPort (rest.flatMap entries) first = [] := filter_eq_nil_iff.mpr fun a member same => by
        obtain ⟨j,inside,member⟩ := mem_flatMap.mp member
        exact apart ((own j a member).symm.trans (of_decide_eq_true same) ▸ inside)
      rw [all,none,append_nil]
    · have none : ofPort (entries first) i = [] := filter_eq_nil_iff.mpr fun a member same =>
        here ((own first a member).symm.trans (of_decide_eq_true same))
      rw [none,nil_append,ih distinct ((mem_cons.mp present).resolve_left (Ne.symm here))]

namespace Ports
def empty : Ports ι κ ρ := ⟨fun _ => [],[],fun _ => []⟩

def next (p : Ports ι κ ρ) (issued : ι → Option κ) (effects : List (Access ι κ ρ)) (answered : ι → Option ρ) : Ports ι κ ρ where
  commands i := p.commands i ++ (issued i).toList
  history := p.history ++ effects
  results i := p.results i ++ (answered i).toList

-- A port has at most one command that has not taken effect and at most one result that it has not seen. Everything else
-- happened once and in order.
structure Orderly (p : Ports ι κ ρ) (waiting : ι → Option κ) (answering : ι → Option ρ) : Prop where
  effected : ∀ i, p.commands i = (ofPort p.history i).map Access.command ++ (waiting i).toList
  answered : ∀ i, (ofPort p.history i).map Access.result = p.results i ++ (answering i).toList

def Ready (p : Ports ι κ ρ) (answering : ι → Option ρ) (i : ι) : Prop :=
  (p.commands i).length = (p.results i ++ (answering i).toList).length

instance (p : Ports ι κ ρ) (answering : ι → Option ρ) (i : ι) : Decidable (p.Ready answering i) :=
  inferInstanceAs (Decidable (_ = _))

variable {p : Ports ι κ ρ} {waiting waitingNext : ι → Option κ} {answering answeringNext : ι → Option ρ}

theorem Orderly.empty : Orderly (empty : Ports ι κ ρ) (fun _ => none) (fun _ => none) :=
  ⟨fun _ => rfl,fun _ => rfl⟩

theorem Orderly.ready (orderly : p.Orderly waiting answering) (ready : p.Ready answering i) : waiting i = none := by
  have effected := congrArg length (orderly.effected i)
  have answered := congrArg length (orderly.answered i)
  rw [length_append,length_map,ready] at effected
  rw [length_map] at answered
  cases pending : waiting i with
  | none => rfl
  | some command =>
    rw [pending,answered] at effected
    simp at effected

theorem Orderly.next {issued : ι → Option κ} {effects : List (Access ι κ ρ)} (orderly : p.Orderly waiting answering)
    (effected : ∀ i, (waiting i).toList ++ (issued i).toList =
      (ofPort effects i).map Access.command ++ (waitingNext i).toList)
    (answered : ∀ i, (ofPort effects i).map Access.result = (answeringNext i).toList) :
    (p.next issued effects answering).Orderly waitingNext answeringNext := by
  refine ⟨fun i => ?_,fun i => ?_⟩
  · change p.commands i ++ (issued i).toList = (ofPort (p.history ++ effects) i).map Access.command ++ _
    rw [orderly.effected,append_assoc,effected,ofPort_append,map_append,append_assoc]
  · change (ofPort (p.history ++ effects) i).map Access.result = p.results i ++ (answering i).toList ++ _
    rw [ofPort_append,map_append,orderly.answered,answered]
end Ports
end Ports

section Each
variable {ι κ ρ γ β : Type} {P : List (Access ι κ ρ) → Access ι κ ρ → Prop} {history : List (Access ι κ ρ)}

def Each (P : List (Access ι κ ρ) → Access ι κ ρ → Prop) (history : List (Access ι κ ρ)) : Prop :=
  ∀ earlier a later, history = earlier ++ a :: later → P earlier a

theorem Each.nil : Each P [] := by
  intro earlier a later split
  simp at split

theorem Each.snoc (each : Each P history) (next : P history a) : Each P (history ++ [a]) := by
  intro earlier b later split
  rcases eq_nil_or_concat later with rfl | ⟨init,last,rfl⟩
  · obtain ⟨rfl,same⟩ := append_inj' split rfl
    cases same
    exact next
  · have split : history ++ [a] = (earlier ++ b :: init) ++ [last] := by simpa using split
    obtain ⟨rfl,-⟩ := append_inj' split rfl
    exact each earlier b init rfl

theorem Each.append (each : Each P history) (added : List (Access ι κ ρ)) (next : ∀ a ∈ added, ∀ earlier, P earlier a) :
    Each P (history ++ added) := by
  induction added generalizing history with
  | nil => rwa [append_nil]
  | cons a rest ih =>
    rw [← singleton_append,← append_assoc]
    exact ih (each.snoc (next a (.head _) history)) fun b member => next b (.tail _ member)

def Sequential [DecidableEq γ] (writes : κ → List (γ × β)) (Gives : κ → ρ → (γ → β) → Prop) (origin : γ → β) :
    List (Access ι κ ρ) → Prop :=
  Each fun earlier a => Gives a.command a.result (latest origin (earlier.flatMap fun b => writes b.command))
end Each
end PortHistory
