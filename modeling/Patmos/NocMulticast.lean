import Mathlib.Data.BitVec
import Patmos.TransitionSystem
namespace Patmos.Noc
open Transition

structure Packet where
  dmaId : BitVec 32
  dst : BitVec 32
  src : BitVec 32
  size : BitVec 32
deriving DecidableEq

-- The writes are the successful ones at each position of the arrays.
structure Multisend where
  done : Bool
  sent : BitVec 32
  writes : Nat → List Packet

section
variable (core set : BitVec 32)

-- CORESET_SIZE is 32.
def coresetAdd : BitVec 32 := set ||| 1#32 <<< (core.toNat%32)
def coresetContains : Bool := set &&& 1#32 <<< (core.toNat%32) ≠ 0
end

structure Multicast where
  cnt : Nat
  dmaId : Nat → BitVec 32
  dst : Nat → BitVec 32
  src : BitVec 32
  size : BitVec 32

namespace Multicast
variable (m : Multicast)

def packet (i : Nat) : Packet := ⟨m.dmaId i,m.dst i,m.src,m.size⟩

def attempt (free : Bool) (s : Multisend) (i : Nat) : Multisend :=
  if coresetContains (m.dmaId i) s.sent then s
  else if free then ⟨s.done,coresetAdd (m.dmaId i) s.sent,Function.update s.writes i (s.writes i ++ [m.packet i])⟩
  else {s with done := false}

def sendEach (free : Nat → Bool) (s : Multisend) : Nat → Multisend
  | 0 => s
  | i+1 => m.attempt (free i) (sendEach free s i) i

-- A step is one round over all positions. The function returns when it is done.
def nocMultisend : System Multisend (Nat → Bool) where
  start s := s = ⟨false,0,fun _ => []⟩
  admits s _ := s.done = false
  next s free := m.sendEach free {s with done := true} m.cnt

def EachOnce : Prop := ∀ s,Reached m.nocMultisend s → s.done = true → ∀ i < m.cnt,s.writes i = [m.packet i]

-- The set tells what has been written.
def Kept (s : Multisend) : Prop :=
  ∀ i < m.cnt,s.writes i = if coresetContains (m.dmaId i) s.sent then [m.packet i] else []

structure Distinct : Prop where
  few : ∀ i < m.cnt,(m.dmaId i).toNat < 32
  once : ∀ i < m.cnt,∀ j < m.cnt,m.dmaId i = m.dmaId j → i = j
end Multicast

theorem contains_bit (core set : BitVec 32) : coresetContains core set = set.getLsbD (core.toNat%32) := by
  have bit : set &&& 1#32 <<< (core.toNat%32) = _ := BitVec.and_twoPow set _
  have nonzero : 1#32 <<< (core.toNat%32) ≠ 0 := by
    intro zero
    have number : _ = 0 := (BitVec.toNat_twoPow_of_lt (Nat.mod_lt core.toNat (by decide))).symm.trans (congrArg _ zero)
    exact absurd number (Nat.two_pow_pos _).ne'
  rw [coresetContains,bit]
  cases set.getLsbD (core.toNat%32) with
  | false => rfl
  | true => exact decide_eq_true nonzero

theorem contains_add (core other set : BitVec 32) :
    coresetContains other (coresetAdd core set) = true ↔
      coresetContains other set = true ∨ core.toNat%32 = other.toNat%32 := by
  have bit : (1#32 <<< (core.toNat%32)).getLsbD (other.toNat%32) = _ := BitVec.getLsbD_twoPow _ _
  have inside := Nat.mod_lt core.toNat (show 32 > 0 by decide)
  rw [contains_bit,contains_bit,coresetAdd,BitVec.getLsbD_or,bit,Bool.or_eq_true,Bool.and_eq_true,
    decide_eq_true_eq,decide_eq_true_eq,and_iff_right inside]

variable {m : Multicast}

theorem attempt_kept (distinct : m.Distinct) (kept : m.Kept s) (free : Bool) (inside : i < m.cnt) :
    m.Kept (m.attempt free s i) := by
  unfold Multicast.attempt
  split
  · exact kept
  case isFalse fresh =>
    split
    · intro j below
      dsimp only
      by_cases same : j = i
      · subst same
        rw [Function.update_self,kept j below,if_neg fresh,if_pos ((contains_add _ _ _).mpr (.inr rfl))]
        rfl
      · have apart : (m.dmaId i).toNat%32 ≠ (m.dmaId j).toNat%32 := by
          rw [Nat.mod_eq_of_lt (distinct.few i inside),Nat.mod_eq_of_lt (distinct.few j below)]
          exact fun equal => same (distinct.once j below i inside (BitVec.eq_of_toNat_eq equal.symm))
        simp only [Function.update_of_ne same,kept j below,contains_add,or_iff_left apart]
    · exact kept

-- A round leaves the written ones in the set, and one that ends done leaves nobody out.
theorem sendEach_kept (distinct : m.Distinct) (kept : m.Kept s) (free : Nat → Bool) (part : n ≤ m.cnt) :
    m.Kept (m.sendEach free s n) ∧ ((m.sendEach free s n).done = true →
      ∀ i < n,coresetContains (m.dmaId i) (m.sendEach free s n).sent = true) := by
  induction n with
  | zero => exact ⟨kept,nofun⟩
  | succ n ih =>
    obtain ⟨before,complete⟩ := ih (Nat.le_of_succ_le part)
    refine ⟨attempt_kept distinct before _ part,fun done i below => ?_⟩
    unfold Multicast.sendEach Multicast.attempt at done ⊢
    split at done
    case isTrue set =>
      rw [if_pos set]
      rcases Nat.lt_succ_iff_lt_or_eq.mp below with earlier | rfl
      · exact complete done i earlier
      · exact set
    case isFalse fresh =>
      split at done
      case isTrue ready =>
        rw [if_neg fresh,if_pos ready,contains_add]
        rcases Nat.lt_succ_iff_lt_or_eq.mp below with earlier | rfl
        · exact .inl (complete done i earlier)
        · exact .inr rfl
      · cases done

theorem each_once (distinct : m.Distinct) : m.EachOnce := by
  intro s path
  suffices all : m.Kept s ∧ (s.done = true → ∀ i < m.cnt,coresetContains (m.dmaId i) s.sent = true) by
    intro done i below
    rw [all.1 i below,if_pos (all.2 done i below)]
  induction path with
  | start begun =>
    subst begun
    exact ⟨fun i _ => by simp [contains_bit],nofun⟩
  | @step s free _ _ ih => exact sendEach_kept distinct (s := {s with done := true}) ih.1 free le_rfl

theorem each_once_two : Multicast.EachOnce ⟨2,fun i => i,fun _ => 0,0,4⟩ :=
  each_once ⟨by decide,by decide⟩

-- The second buffer of core 1 gets nothing.
theorem repeated_id_skipped : ¬Multicast.EachOnce ⟨2,fun _ => 1,fun i => 64*i,0,4⟩ := fun each =>
  absurd (each _ (.step (i := fun _ => true) (.start rfl) rfl) rfl 1 (by decide)) (by decide)
end Patmos.Noc
