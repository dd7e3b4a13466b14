import Mathlib.Algebra.Group.Nat.Defs
import Mathlib.Data.List.Basic
namespace NocDma
open List

-- A transfer between two local memories. Its words leave the source one by one, with the value the source has at that
-- moment, and reach their destination in the same order.
structure Transfer (source target value : Type) where
  pending : List (source × target)
  flying : List (target × value)

variable {source target value : Type}

namespace Transfer
def none : Transfer source target value := ⟨[],[]⟩

def start (words : List (source × target)) : Transfer source target value := ⟨words,[]⟩

section
variable (read : source → value) (d : Transfer source target value)

def done : Bool := d.pending.isEmpty && d.flying.isEmpty

def fetch : Transfer source target value :=
  match d.pending with
  | [] => d
  | (src,dst) :: rest => ⟨rest,d.flying ++ [(dst,read src)]⟩

def deliver : Transfer source target value := ⟨d.pending,d.flying.tail⟩

def arrival : Option (target × value) := d.flying.head?

theorem done_iff : d.done = true ↔ d = none := by
  obtain ⟨pending,flying⟩ := d
  cases pending <;> cases flying <;> simp [done,none]

variable {d} in
theorem rests (free : d = none) : d.fetch read = d ∧ d.arrival = .none := by
  rw [free]
  exact ⟨rfl,rfl⟩
end
end Transfer

-- A transfer of a single word: it waits for its word, carries it, or is over.
inductive Carries (d : Transfer source target value) (origin : source) (place : target) (word : value) : Prop where
  | waiting : d = ⟨[(origin,place)],[]⟩ → Carries d origin place word
  | flying : d = ⟨[],[(place,word)]⟩ → Carries d origin place word

section
variable {d : Transfer source target value}

theorem Carries.fetch {read : source → value}
    (carries : Carries d origin place (read origin)) : Carries (d.fetch read) origin place (read origin) := by
  cases carries with
  | waiting same | flying same => exact .flying (by rw [same]; rfl)

theorem Carries.arrives (carries : Carries d origin place word)
    (arrival : d.arrival = some arrived) : arrived = (place,word) ∧ d.deliver = .none := by
  cases carries with
  | waiting same => rw [same] at arrival; cases arrival
  | flying same =>
    subst same
    cases arrival
    exact ⟨rfl,rfl⟩

theorem Carries.not_done (carries : Carries d origin place word) : d.done = false := by
  cases carries with
  | waiting same | flying same => rw [same]; rfl
end

-- A transfer of a block: the words that have landed, those on their way and those still waiting make up the block, in
-- this order.
def Moves (d : Transfer source target value) (words landed : List (source × target)) (held : source → value) : Prop :=
  ∃ underway, words = landed ++ underway ++ d.pending ∧ d.flying = underway.map fun w => (w.2,held w.1)

theorem Moves.start {words : List (source × target)} {held : source → value} : Moves (.start words) words [] held :=
  ⟨[],rfl,rfl⟩

section
variable {d : Transfer source target value}

theorem Moves.fetch {held read : source → value} (moves : Moves d words landed held)
    (same : ∀ w ∈ words, read w.1 = held w.1) : Moves (d.fetch read) words landed held := by
  obtain ⟨underway,block,flying⟩ := moves
  obtain ⟨pending,_⟩ := d
  subst flying
  cases pending with
  | nil => exact ⟨underway,block,rfl⟩
  | cons word rest =>
    refine ⟨underway ++ [word],?_,?_⟩
    · simpa [Transfer.fetch] using block
    · have value : read word.1 = held word.1 := same word (by rw [block]; simp)
      simp [Transfer.fetch,value]

section
variable {words landed : List (source × target)} {held : source → value} (moves : Moves d words landed held)
include moves

theorem Moves.arrives (arrival : d.arrival = some word) :
    ∃ origin, word.2 = held origin ∧ (origin,word.1) ∈ words ∧ Moves d.deliver words (landed ++ [(origin,word.1)]) held := by
  obtain ⟨underway,block,flying⟩ := moves
  obtain ⟨pending,_⟩ := d
  subst flying
  cases underway with
  | nil => cases arrival
  | cons first rest =>
    cases arrival
    refine ⟨first.1,rfl,?_,rest,?_,rfl⟩
    · rw [block]; simp
    · simpa [Transfer.deliver] using block

theorem Moves.finished (done : d.done = true) : d = .none ∧ landed = words := by
  obtain ⟨underway,block,flying⟩ := moves
  have idle := d.done_iff.mp done
  subst idle
  cases underway with
  | nil => exact ⟨rfl,by simpa [Transfer.none] using block.symm⟩
  | cons first rest => cases flying

theorem Moves.landed_mem (member : w ∈ landed) : w ∈ words := by
  obtain ⟨underway,block,-⟩ := moves
  rw [block,append_assoc]
  exact mem_append_left _ member
end

theorem Moves.last {held : source → value} (moves : Moves d (front ++ [word]) landed held)
    (once : word ∉ front) (arrived : word ∈ landed) : d = .none ∧ landed = front ++ [word] := by
  obtain ⟨underway,block,flying⟩ := moves
  have begins : landed <+: front ++ [word] := ⟨underway ++ d.pending,by rw [block,append_assoc]⟩
  rcases prefix_concat_iff.mp begins with all | before
  · have nothing : underway ++ d.pending = [] := by
      rw [← all,append_assoc] at block
      exact self_eq_append_right.mp block
    obtain ⟨rfl,pending⟩ := append_eq_nil_iff.mp nothing
    obtain ⟨_,_⟩ := d
    cases pending
    cases flying
    exact ⟨rfl,all⟩
  · exact absurd (before.subset arrived) once
end

def Landed (memory : target → value) (held : source → value) (landed : List (source × target)) : Prop :=
  ∀ w ∈ landed, memory w.2 = held w.1

theorem Landed.none {memory : target → value} {held : source → value} : Landed memory held [] := nofun

theorem Landed.receive [DecidableEq target] {memory : target → value} {held : source → value}
    (before : Landed memory held landed) (apart : ∀ w ∈ landed, w.2 = place → held w.1 = held origin) :
    Landed (Function.update memory place (held origin)) held (landed ++ [(origin,place)]) := by
  intro w member
  rcases mem_append.mp member with old | new
  · by_cases here : w.2 = place
    · rw [here,Function.update_self,apart w old here]
    · rw [Function.update_of_ne here,before w old]
  · rw [mem_singleton.mp new]
    exact Function.update_self place (held origin) memory
end NocDma
