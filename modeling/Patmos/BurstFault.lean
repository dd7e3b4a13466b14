import Patmos.TransitionSystem
namespace BurstFault
open Transition List

inductive Seen where
  | nothing
  | word
  | error
  deriving DecidableEq

def Seen.beats : Seen → Nat
  | .nothing => 0
  | .word | .error => 1

def beats : List Seen → Nat
  | [] => 0
  | r :: rest => r.beats+beats rest

def failed (trace : List Seen) : Bool := trace.any (· == .error)

theorem beats_append (left right : List Seen) : beats (left ++ right) = beats left+beats right := by
  induction left with
  | nil => exact (Nat.zero_add _).symm
  | cons r rest ih =>
    change r.beats+beats (rest ++ right) = r.beats+beats rest+beats right
    omega

-- A unit that counts the beats of a burst. After an error it goes on counting in a state of its own, until the count is
-- that of the last beat: it signals the error and leaves.
structure Handler (m : System σ ι) (burst : Nat) where
  seen : σ → ι → Seen
  signal : σ → ι → Bool
  receives : Nat → σ → Prop
  fails : Nat → σ → Prop
  leaves : σ → Prop
  receives_quiet : receives n s → m.admits s i → n+1 < burst → signal s i = false
  receives_nothing : receives n s → m.admits s i → n+1 < burst → seen s i = .nothing → receives n (m.next s i)
  receives_word : receives n s → m.admits s i → n+1 < burst → seen s i = .word → receives (n+1) (m.next s i)
  receives_error : receives n s → m.admits s i → n+1 < burst → seen s i = .error → fails (n+1) (m.next s i)
  fails_quiet : fails n s → m.admits s i → n+1 < burst → signal s i = false
  fails_next : fails n s → m.admits s i → n+1 < burst → fails (n+(seen s i).beats) (m.next s i)
  fails_last : fails n s → m.admits s i → n+1 = burst → signal s i = true ∧ leaves (m.next s i)

def Brief (burst : Nat) : Nat → List Seen → Prop
  | _,[] => True
  | n,r :: rest => n+1 < burst ∧ Brief burst (n+r.beats) rest

theorem brief_last (few : n+beats trace+1 < burst) (r : Seen) : Brief burst n (trace ++ [r]) := by
  induction trace generalizing n with
  | nil => exact ⟨few,trivial⟩
  | cons first rest ih =>
    unfold beats at few
    exact ⟨by omega,ih (by omega)⟩

namespace Handler
variable {m : System σ ι} {burst : Nat} (h : Handler m burst)

def Reads (failed : Bool) (n : Nat) (s : σ) : Prop := if failed then h.fails n s else h.receives n s

def trace (s : σ) (inputs : List ι) : List Seen := m.record (fun s i => [h.seen s i]) s inputs
def signals (s : σ) (inputs : List ι) : List Bool := m.record (fun s i => [h.signal s i]) s inputs

theorem reads_step (reads : h.Reads bad n s) (admitted : m.admits s i) (more : n+1 < burst) :
    h.signal s i = false ∧ h.Reads (bad || h.seen s i == .error) (n+(h.seen s i).beats) (m.next s i) := by
  cases bad with
  | true => exact ⟨h.fails_quiet reads admitted more,h.fails_next reads admitted more⟩
  | false =>
    refine ⟨h.receives_quiet reads admitted more,?_⟩
    cases seen : h.seen s i with
    | nothing => exact h.receives_nothing reads admitted more seen
    | word => exact h.receives_word reads admitted more seen
    | error => exact h.receives_error reads admitted more seen

theorem reads_run (reads : h.Reads bad n s) (inputs : List ι) (admitted : m.Admits s inputs)
    (brief : Brief burst n (h.trace s inputs)) :
    h.signals s inputs = replicate inputs.length false ∧
    h.Reads (bad || failed (h.trace s inputs)) (n+beats (h.trace s inputs)) (m.run s inputs) := by
  induction inputs generalizing bad n s with
  | nil =>
    refine ⟨rfl,?_⟩
    change h.Reads (bad || false) (n+0) s
    rwa [Bool.or_false]
  | cons i rest ih =>
    obtain ⟨quiet,reads⟩ := h.reads_step reads admitted.1 brief.1
    obtain ⟨signals,final⟩ := ih reads admitted.2 brief.2
    refine ⟨congrArg₂ cons quiet signals,?_⟩
    rw [Bool.or_assoc,Nat.add_assoc] at final
    exact final

theorem signals_never {quiet : σ → Prop}
    (silent : ∀ s, h.fails n s → quiet s → m.admits s i ∧ h.seen s i = .nothing ∧ quiet (m.next s i)) (fails : h.fails n s)
    (start : quiet s) (more : n+1 < burst) (k : Nat) : h.signals s (replicate k i) = replicate k false := by
  induction k generalizing s with
  | zero => rfl
  | succ k ih =>
    obtain ⟨admitted,none,kept⟩ := silent s fails start
    have stays := h.fails_next fails admitted more
    rw [none] at stays
    exact congrArg₂ cons (h.fails_quiet fails admitted more) (ih stays kept)

theorem signals_last (begun : h.receives 0 s) (inputs : List ι) (i : ι) (admitted : m.Admits s (inputs ++ [i]))
    (brief : Brief burst 0 (h.trace s inputs)) (bad : failed (h.trace s inputs) = true)
    (most : beats (h.trace s inputs)+1 = burst) :
    h.signals s (inputs ++ [i]) = replicate inputs.length false ++ [true] ∧ h.leaves (m.run s (inputs ++ [i])) := by
  obtain ⟨before,now⟩ := (m.admits_append s inputs [i]).mp admitted
  obtain ⟨quiet,reads⟩ := h.reads_run (show h.Reads false 0 s from begun) inputs before brief
  rw [bad,Nat.zero_add] at reads
  obtain ⟨last,leaves⟩ := h.fails_last reads now.1 most
  rw [signals,m.record_append,m.run_append]
  exact ⟨congrArg₂ List.append quiet (congrArg (fun signal => [signal]) last),leaves⟩
end Handler

-- The responses to a burst. The last one comes directly after the one before it, and one of those before the last is an
-- error.
structure Faulty (burst : Nat) (before : List Seen) (late last : Seen) : Prop where
  count : beats before+2 = burst
  adjacent : late.beats = 1 ∧ last.beats = 1
  error : failed (before ++ [late]) = true

instance (burst : Nat) (before : List Seen) (late last : Seen) : Decidable (Faulty burst before late last) :=
  decidable_of_iff (beats before+2 = burst ∧ (late.beats = 1 ∧ last.beats = 1) ∧ failed (before ++ [late]) = true)
    ⟨fun ⟨count,adjacent,error⟩ => ⟨count,adjacent,error⟩,fun faulty => ⟨faulty.count,faulty.adjacent,faulty.error⟩⟩

namespace Faulty
variable {m : System σ ι} {burst : Nat} {h : Handler m burst} {port : ι → Seen}

theorem most (faulty : Faulty burst before late last) : beats (before ++ [late])+1 = burst := by
  have count := faulty.count
  have single := faulty.adjacent.1
  rw [beats_append]
  change beats before+(late.beats+0)+1 = burst
  omega

theorem brief (faulty : Faulty burst before late last) : Brief burst 0 (before ++ [late]) := by
  have count := faulty.count
  exact brief_last (by omega) late

theorem cycles_eq (responses : cycles.map port = before ++ [late,last]) :
    ∃ early i, cycles = early ++ [i] ∧ early.map port = before ++ [late] ∧ port i = last := by
  have split : before ++ [late,last] = (before ++ [late]) ++ [last] := (append_assoc before [late] [last]).symm
  rw [split] at responses
  obtain ⟨early,final,rfl,first,second⟩ := map_eq_append_iff.mp responses
  obtain ⟨i,rfl,port_eq⟩ := map_eq_singleton_iff.mp second
  exact ⟨early,i,rfl,first,port_eq⟩

theorem signals_direct (faulty : Faulty burst before late last) (sees : ∀ s i, h.seen s i = port i) (begun : h.receives 0 s)
    (admitted : m.Admits s cycles) (responses : cycles.map port = before ++ [late,last]) :
    h.signals s cycles = replicate (cycles.length-1) false ++ [true] ∧ h.leaves (m.run s cycles) := by
  obtain ⟨early,i,rfl,first,-⟩ := cycles_eq responses
  have trace : h.trace s early = before ++ [late] := by
    rw [← first]
    exact m.record_input h.seen port sees s early
  rw [length_append]
  exact h.signals_last begun early i admitted (trace ▸ faulty.brief) (trace ▸ faulty.error) (trace ▸ faulty.most)

theorem signals_registered (faulty : Faulty burst before late last) {register : σ → Seen} (sees : ∀ s i, h.seen s i = register s)
    (loads : ∀ s i, register (m.next s i) = port i) (begun : h.receives 0 s) (silent : register s = .nothing)
    (responses : cycles.map port = before ++ [late,last]) (admitted : m.Admits s (cycles ++ [i])) :
    h.signals s (cycles ++ [i]) = replicate cycles.length false ++ [true] ∧ h.leaves (m.run s (cycles ++ [i])) := by
  obtain ⟨early,final,rfl,first,-⟩ := cycles_eq responses
  have trace : h.trace s (early ++ [final]) = .nothing :: (before ++ [late]) := by
    have same : (fun s i => [h.seen s i]) = fun s _ => [register s] := funext fun s => funext fun i => congrArg ([·]) (sees s i)
    rw [Handler.trace,same,m.record_register loads,silent,first]
  have more : 0+1 < burst := by
    have count := faulty.count
    omega
  refine h.signals_last begun (early ++ [final]) i admitted ?_ ?_ ?_
  · rw [trace]
    exact ⟨more,faulty.brief⟩
  · rw [trace]
    exact faulty.error
  · rw [trace,← faulty.most]
    change 0+beats (before ++ [late])+1 = _
    rw [Nat.zero_add]
end Faulty
end BurstFault
