import Patmos.TransitionSystem
namespace Patmos
open Transition List

inductive FifoState where
  | empty
  | full
  deriving DecidableEq, Repr

structure FifoRegister (α : Type) where
  stateReg : FifoState
  dataReg : α

namespace FifoRegister
section
variable (r : FifoRegister α) (write : Bool) (din : α) (read : Bool)

def enqFull : Bool := r.stateReg = .full
def deqEmpty : Bool := r.stateReg = .empty
def dout : α := r.dataReg

def next : FifoRegister α :=
  match r.stateReg with
  | .empty => if write then ⟨.full,din⟩ else r
  | .full => if read then {r with stateReg := .empty} else r

def entry : List α := if r.stateReg = .full then [r.dataReg] else []
end
end FifoRegister

structure BubbleFifo (α : Type) (depth : Nat) where
  buffers : List (FifoRegister α)
  sized : buffers.length = depth

namespace BubbleFifo
def enqFull (f : BubbleFifo α depth) : Bool := f.buffers.head?.all FifoRegister.enqFull
def deqEmpty (f : BubbleFifo α depth) : Bool := f.buffers.getLast?.all FifoRegister.deqEmpty
def dout (f : BubbleFifo α depth) : Option α := f.buffers.getLast?.map FifoRegister.dout

-- The read request of a register: the one behind it is not full, or the request at the reading end.
def readOf (behind : List (FifoRegister α)) (read : Bool) : Bool :=
  match behind with
  | [] => read
  | r :: _ => !r.enqFull

def shift (read : Bool) : List (FifoRegister α) → Bool → α → List (FifoRegister α)
  | [],_,_ => []
  | r :: behind,write,din => r.next write din (readOf behind read) :: shift read behind (!r.deqEmpty) r.dout

section
variable (f : BubbleFifo α depth) (write : Bool) (din : α) (read : Bool)

theorem shift_length (buffers : List (FifoRegister α)) (write : Bool) (din : α) :
    (shift read buffers write din).length = buffers.length := by
  induction buffers generalizing write din with
  | nil => rfl
  | cons r behind ih => simp [shift,ih]

def next : BubbleFifo α depth where
  buffers := shift read f.buffers write din
  sized := (shift_length read f.buffers write din).trans f.sized

-- The entries in the order in which they will be read.
def entries : List (FifoRegister α) → List α
  | [] => []
  | r :: behind => entries behind ++ r.entry

def held : List α := entries f.buffers

def incoming : List (FifoRegister α) → List α
  | [] => []
  | r :: _ => if write && r.deqEmpty then [din] else []

def outgoing (read : Bool) : List (FifoRegister α) → List α
  | [] => []
  | [r] => if read then r.entry else []
  | _ :: behind => outgoing read behind

-- One entry leaves a register exactly when the register behind it takes it.
theorem handshake (r s : FifoRegister α) (behind : List (FifoRegister α)) (write : Bool) (din : α) :
    incoming (!r.deqEmpty) r.dout (s :: behind) ++ (r.next write din (!s.enqFull)).entry =
      r.entry ++ incoming write din (r :: s :: behind) := by
  obtain ⟨state,data⟩ := r
  obtain ⟨state',data'⟩ := s
  cases state <;> cases state' <;> cases write <;> rfl

section
variable (buffers : List (FifoRegister α)) (write : Bool)

theorem entries_shift (din : α) :
    outgoing read buffers ++ entries (shift read buffers write din) = entries buffers ++ incoming write din buffers := by
  induction buffers generalizing write din with
  | nil => rfl
  | cons r behind ih =>
    cases behind with
    | nil =>
      obtain ⟨state,data⟩ := r
      cases state <;> cases write <;> cases read <;> rfl
    | cons s behind =>
      have moved := ih (!r.deqEmpty) r.dout
      calc outgoing read (r :: s :: behind) ++ entries (shift read (r :: s :: behind) write din)
          = (outgoing read (s :: behind) ++ entries (shift read (s :: behind) (!r.deqEmpty) r.dout)) ++
              (r.next write din (!s.enqFull)).entry := (append_assoc _ _ _).symm
        _ = entries (s :: behind) ++ (incoming (!r.deqEmpty) r.dout (s :: behind) ++
              (r.next write din (!s.enqFull)).entry) := by rw [moved,append_assoc]
        _ = entries (r :: s :: behind) ++ incoming write din (r :: s :: behind) := by
            rw [handshake,← append_assoc]
            rfl

theorem entry_length (r : FifoRegister α) : r.entry.length ≤ 1 := by
  obtain ⟨state,data⟩ := r
  cases state
  · exact Nat.zero_le 1
  · exact Nat.le_refl 1

theorem entries_cons (r : FifoRegister α) (behind : List (FifoRegister α)) :
    (entries (r :: behind)).length = (entries behind).length+r.entry.length := length_append

theorem entries_length : (entries buffers).length ≤ buffers.length := by
  induction buffers with
  | nil => exact Nat.le_refl 0
  | cons r behind ih =>
    rw [entries_cons]
    exact Nat.add_le_add ih (entry_length r)

theorem held_length : f.held.length ≤ depth :=
  Nat.le_trans (entries_length f.buffers) (Nat.le_of_eq f.sized)

theorem outgoing_last (ready : f.deqEmpty = false) : outgoing true f.buffers = f.dout.toList := by
  unfold deqEmpty at ready
  unfold dout
  generalize f.buffers = buffers at ready
  induction buffers with
  | nil => rfl
  | cons r behind ih =>
    cases behind with
    | nil =>
      obtain ⟨state,data⟩ := r
      cases state
      · cases ready
      · rfl
    | cons s behind => exact ih ready

theorem outgoing_none : outgoing false buffers = [] := by
  induction buffers with
  | nil => rfl
  | cons r behind ih =>
    cases behind with
    | nil => rfl
    | cons s behind => exact ih

theorem incoming_none : incoming false din buffers = [] := by
  cases buffers <;> rfl
end
end

section Settling
variable {k : Nat}

-- In every suffix of the registers: as many entries as fit, or at least as many as entries bubbling for t cycles have
-- brought there.
def Bubbled (depth k t : Nat) : List (FifoRegister α) → Prop
  | [] => True
  | r :: behind =>
    (min (behind.length+1) k ≤ (entries (r :: behind)).length ∨
      k+(behind.length+1)+t ≤ 2*(entries (r :: behind)).length+depth) ∧ Bubbled depth k t behind

section
variable (buffers : List (FifoRegister α)) (write : Bool)

theorem bubbled_here (bubbled : Bubbled depth k t buffers) :
    min buffers.length k ≤ (entries buffers).length ∨ k+buffers.length+t ≤ 2*(entries buffers).length+depth := by
  cases buffers with
  | nil => exact .inl (Nat.min_le_left _ _)
  | cons r behind => exact bubbled.1

theorem bubbled_start (spread : k+buffers.length ≤ (entries buffers).length+depth) : Bubbled depth k 0 buffers := by
  induction buffers with
  | nil => trivial
  | cons r behind ih =>
    have single := entry_length r
    have split := entries_cons r behind
    rw [length_cons] at spread
    exact ⟨.inr (by omega),ih (by omega)⟩

theorem entry_flag (r : FifoRegister α) : (!r.deqEmpty).toNat = r.entry.length := by
  obtain ⟨state,data⟩ := r
  cases state <;> rfl

theorem incoming_length (r : FifoRegister α) (behind : List (FifoRegister α)) (write : Bool) (din : α) :
    (incoming write din (r :: behind)).length = min write.toNat (1-r.entry.length) := by
  obtain ⟨state,data⟩ := r
  cases state <;> cases write <;> rfl

-- The suffix of m registers then holds the minimum of what the suffix of m+1 registers held and one more than what the
-- suffix of m-1 registers held.
theorem bubbled_shift (din : α) (bubbled : Bubbled depth k t buffers)
    (front : min buffers.length k ≤ (entries buffers).length+write.toNat ∨
      k+buffers.length+(t+1) ≤ 2*((entries buffers).length+write.toNat)+depth) :
    Bubbled depth k (t+1) (shift false buffers write din) := by
  induction buffers generalizing write din with
  | nil => trivial
  | cons r behind ih =>
    obtain ⟨here,rest⟩ := bubbled
    have moved := congrArg length (entries_shift false (r :: behind) write din)
    rw [outgoing_none,nil_append,length_append,incoming_length] at moved
    have split := entries_cons r behind
    rw [length_cons] at front
    refine ⟨?_,ih _ _ rest ?_⟩
    · have next := bubbled_here behind rest
      change min ((shift false behind _ _).length+1) k ≤ (entries (shift false (r :: behind) write din)).length ∨
        k+((shift false behind _ _).length+1)+(t+1) ≤ 2*(entries (shift false (r :: behind) write din)).length+depth
      rw [shift_length]
      omega
    · rw [entry_flag]
      omega

theorem bubbled_packed (bubbled : Bubbled depth k t buffers) (late : depth ≤ t+1) (few : (entries buffers).length ≤ k) :
    buffers.map FifoRegister.stateReg =
      replicate (buffers.length-(entries buffers).length) .empty ++ replicate (entries buffers).length .full := by
  induction buffers with
  | nil => rfl
  | cons r behind ih =>
    obtain ⟨here,rest⟩ := bubbled
    have split := entries_cons r behind
    have bound := entries_length behind
    have next := bubbled_here behind rest
    have packed := ih rest (by omega)
    rw [map_cons,packed,split,length_cons]
    cases state : r.stateReg with
    | empty =>
      have none : r.entry.length = 0 := by simp [FifoRegister.entry,state]
      simp only [none,Nat.add_zero]
      rw [Nat.succ_sub bound]
      rfl
    | full =>
      have one : r.entry.length = 1 := by simp [FifoRegister.entry,state]
      have all : (entries behind).length = behind.length := by omega
      simp only [one,all,Nat.sub_self]
      rfl
end
end Settling

section
variable (f : BubbleFifo α depth)

theorem held_next (write : Bool) (din : α) (read : Bool) :
    outgoing read f.buffers ++ (f.next write din read).held = f.held ++ incoming write din f.buffers :=
  entries_shift read f.buffers write din

theorem held_quiet (din : α) : (f.next false din false).held = f.held := by
  have moved := held_next f false din false
  rwa [outgoing_none,incoming_none,append_nil] at moved

structure Packed : Prop where
  states : f.buffers.map FifoRegister.stateReg =
    replicate (depth-f.held.length) .empty ++ replicate f.held.length .full
  oldest : f.held ≠ [] → f.deqEmpty = false ∧ f.dout = f.held.head?

structure Cycle (α : Type) where
  write : Bool
  din : α
  read : Bool

structure State (α : Type) (depth : Nat) where
  fifo : BubbleFifo α depth
  written : List α
  taken : List α

def system (α : Type) (depth : Nat) : System (State α depth) (Cycle α) where
  start s := (∀ r ∈ s.fifo.buffers, r.stateReg = .empty) ∧ s.written = [] ∧ s.taken = []
  admits s x := (x.write → s.fifo.enqFull = false) ∧ (x.read → s.fifo.deqEmpty = false)
  next s x := {
    fifo := s.fifo.next x.write x.din x.read
    written := if x.write then s.written ++ [x.din] else s.written
    taken := if x.read then s.taken ++ s.fifo.dout.toList else s.taken }

def Quiet (x : Cycle α) : Prop := x.write = false ∧ x.read = false

theorem dout_oldest (ready : f.deqEmpty = false) : f.dout = f.held.head? := by
  unfold deqEmpty at ready
  unfold dout held
  generalize f.buffers = buffers at ready
  induction buffers with
  | nil => rfl
  | cons r behind ih =>
    cases behind with
    | nil =>
      obtain ⟨state,data⟩ := r
      cases state
      · cases ready
      · rfl
    | cons s behind =>
      have behindReady := ih ready
      change Option.map FifoRegister.dout (s :: behind).getLast? = (entries (s :: behind) ++ r.entry).head?
      rw [head?_append,← behindReady]
      cases shown : (s :: behind).getLast? with
      | none => simp at shown
      | some last => rfl

theorem packed_ready (states : f.buffers.map FifoRegister.stateReg =
      replicate (depth-f.held.length) .empty ++ replicate f.held.length .full)
    (nonempty : f.held ≠ []) : f.deqEmpty = false := by
  have positive : f.held.length ≠ 0 := mt eq_nil_of_length_eq_zero nonempty
  have last := congrArg getLast? states
  rw [getLast?_map,getLast?_append,getLast?_replicate,if_neg positive] at last
  unfold deqEmpty
  cases shown : f.buffers.getLast? with
  | none => simp [shown] at last
  | some r =>
    rw [shown] at last
    have full : r.stateReg = .full := Option.some.inj last
    simp [FifoRegister.deqEmpty,full]
end

section
variable (s : State α depth) (inputs : List (Cycle α))

theorem bubbled_run (quiet : ∀ x ∈ inputs, Quiet x) (bubbled : Bubbled depth s.fifo.held.length t s.fifo.buffers) :
    ((system α depth).run s inputs).fifo.held = s.fifo.held ∧
      Bubbled depth s.fifo.held.length (t+inputs.length) ((system α depth).run s inputs).fifo.buffers := by
  induction inputs generalizing s t with
  | nil => exact ⟨rfl,bubbled⟩
  | cons x rest ih =>
    obtain ⟨noWrite,noRead⟩ := quiet x (mem_cons_self ..)
    have moved : ((system α depth).next s x).fifo = s.fifo.next false x.din false := by simp [system,noWrite,noRead]
    have same : ((system α depth).next s x).fifo.held = s.fifo.held := by rw [moved,held_quiet]
    have step : Bubbled depth ((system α depth).next s x).fifo.held.length (t+1) ((system α depth).next s x).fifo.buffers := by
      rw [same,moved]
      exact bubbled_shift _ false x.din bubbled (.inl (Nat.min_le_right _ _))
    obtain ⟨kept,later⟩ := ih _ (fun y present => quiet y (mem_cons_of_mem _ present)) step
    rw [same] at kept later
    refine ⟨kept,?_⟩
    rw [length_cons,Nat.add_comm rest.length,← Nat.add_assoc]
    exact later

theorem settles (quiet : ∀ x ∈ inputs, Quiet x) (late : depth ≤ inputs.length) :
    ((system α depth).run s inputs).fifo.held = s.fifo.held ∧ Packed ((system α depth).run s inputs).fifo := by
  have spread : s.fifo.held.length+s.fifo.buffers.length ≤ (entries s.fifo.buffers).length+depth := by
    rw [s.fifo.sized]
    exact Nat.le_refl _
  obtain ⟨kept,bubbled⟩ := bubbled_run s inputs quiet (bubbled_start s.fifo.buffers spread)
  generalize (system α depth).run s inputs = last at kept bubbled
  have packed := bubbled_packed last.fifo.buffers bubbled (by omega) (Nat.le_of_eq (congrArg length kept))
  rw [last.fifo.sized] at packed
  refine ⟨kept,packed,fun nonempty => ?_⟩
  have ready := packed_ready last.fifo packed nonempty
  exact ⟨ready,dout_oldest last.fifo ready⟩

def Conserved : Prop := s.written = s.taken ++ s.fifo.held

theorem conserved_start (begun : (system α depth).start s) : Conserved s := by
  obtain ⟨empty,written,taken⟩ := begun
  have none (buffers : List (FifoRegister α)) (all : ∀ r ∈ buffers, r.stateReg = .empty) : entries buffers = [] := by
    induction buffers with
    | nil => rfl
    | cons r behind ih =>
      have first := all r (mem_cons_self ..)
      rw [entries,ih fun q present => all q (mem_cons_of_mem _ present)]
      simp [FifoRegister.entry,first]
  rw [Conserved,written,taken,held,none _ empty]
  rfl

theorem conserved_step (x : Cycle α) (conserved : Conserved s)
    (admitted : (system α depth).admits s x) : Conserved ((system α depth).next s x) := by
  obtain ⟨room,ready⟩ := admitted
  have accepted : (if x.write then s.written ++ [x.din] else s.written) = s.written ++ incoming x.write x.din s.fifo.buffers := by
    cases write : x.write with
    | false => rw [incoming_none,append_nil]; rfl
    | true =>
      have first := room write
      unfold enqFull at first
      cases buffers : s.fifo.buffers with
      | nil => rw [buffers] at first; cases first
      | cons r behind =>
        obtain ⟨state,data⟩ := r
        rw [buffers] at first
        cases state
        · rfl
        · cases first
  have delivered : (if x.read then s.taken ++ s.fifo.dout.toList else s.taken) = s.taken ++ outgoing x.read s.fifo.buffers := by
    cases read : x.read with
    | false => rw [outgoing_none,append_nil]; rfl
    | true => rw [outgoing_last s.fifo (ready read)]; rfl
  change (if x.write then s.written ++ [x.din] else s.written) =
    (if x.read then s.taken ++ s.fifo.dout.toList else s.taken) ++ (s.fifo.next x.write x.din x.read).held
  rw [accepted,delivered,append_assoc,held_next,← append_assoc,← conserved]
end

theorem reached_conserved {s : State α depth} (path : Reached (system α depth) s) : Conserved s :=
  path.invariant conserved_start conserved_step

theorem bubble_fifo_refines (α : Type) (depth : Nat) :
    (∀ s, Reached (system α depth) s →
      s.taken <+: s.written ∧ s.written = s.taken ++ s.fifo.held ∧ s.fifo.held.length ≤ depth) ∧
    ∀ (s : State α depth) (inputs : List (Cycle α)), (∀ x ∈ inputs, Quiet x) → depth ≤ inputs.length →
      ((system α depth).run s inputs).fifo.held = s.fifo.held ∧ Packed ((system α depth).run s inputs).fifo := by
  refine ⟨fun s path => ?_,settles⟩
  have conserved := reached_conserved path
  exact ⟨⟨s.fifo.held,conserved.symm⟩,conserved,held_length s.fifo⟩
end BubbleFifo
end Patmos
