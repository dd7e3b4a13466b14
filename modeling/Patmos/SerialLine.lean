import Mathlib.Algebra.Group.Nat.Defs
import Mathlib.Data.List.Basic
namespace Serial
-- A frame is a start bit, eight data bits and a stop bit.
def frameBit (byte : BitVec 8) (k : Nat) : Bool := if k = 0 then false else if k ≤ 8 then byte.getLsbD (k-1) else true

-- What a line has carried: the bytes whose frames have begun and, inside of a frame, the bit that is on the line and
-- the cycles since it is there.
structure Line where
  sent : List (BitVec 8)
  pos : Option (Nat × Nat)

namespace Line
def current (l : Line) : BitVec 8 := l.sent.getLastD 0#8

def bit (l : Line) : Bool :=
  match l.pos with
  | none => true
  | some (k,_) => frameBit l.current k

-- One cycle of a line whose bits last a number of cycles.
inductive Moves (period : Nat) : Line → Line → Prop where
  | rests : Moves period ⟨bytes,none⟩ ⟨bytes,none⟩
  | begins (byte : BitVec 8) : Moves period ⟨bytes,none⟩ ⟨bytes ++ [byte],some (0,0)⟩
  | holds : e+1 < period → Moves period ⟨bytes,some (k,e)⟩ ⟨bytes,some (k,e+1)⟩
  | shifts : e+1 = period → k < 9 → Moves period ⟨bytes,some (k,e)⟩ ⟨bytes,some (k+1,0)⟩
  | follows (byte : BitVec 8) : e+1 = period → Moves period ⟨bytes,some (9,e)⟩ ⟨bytes ++ [byte],some (0,0)⟩
  | ends : e+1 = period → Moves period ⟨bytes,some (9,e)⟩ ⟨bytes,none⟩

-- A frame has passed when its stop bit has been sampled.
def passed (sample : Nat) (l : Line) : Bool :=
  match l.pos with
  | none => true
  | some (k,e) => k = 9 ∧ sample < e

def received (sample : Nat) (l : Line) : List (BitVec 8) := if l.passed sample then l.sent else l.sent.dropLast

theorem current_append (bytes : List (BitVec 8)) (byte : BitVec 8) (pos : Option (Nat × Nat)) :
    (Line.mk (bytes ++ [byte]) pos).current = byte := by
  unfold current
  rw [List.getLastD_concat]

theorem received_begun (sample : Nat) (bytes : List (BitVec 8)) (byte : BitVec 8) :
    (Line.mk (bytes ++ [byte]) (some (0,0))).received sample = bytes := by
  unfold received
  rw [if_neg (by simp [passed]),List.dropLast_concat]

theorem received_passed (past : sample < e) : (Line.mk bytes (some (9,e))).received sample = bytes := by
  unfold received
  rw [if_pos (by simp [passed,past])]

theorem received_sent (sample : Nat) (l : Line) : l.received sample <+: l.sent := by
  unfold received
  split
  · exact List.prefix_refl _
  · exact List.dropLast_prefix _

theorem Moves.sent {l m : Line} (moves : Moves period l m) : l.sent <+: m.sent := by
  cases moves with
  | begins byte | follows byte => exact List.prefix_append _ _
  | rests | holds | shifts | ends => exact List.prefix_refl _
end Line
end Serial
