import Mathlib.Data.BitVec
import Mathlib.Tactic.LinearCombination
import Mathlib.Tactic.Ring
namespace Patmos.Core
open BitVec

def shamt (op : BitVec 32) : Nat := (op.extractLsb' 0 5).toNat

def alu (func : BitVec 4) (op1 op2 : BitVec 32) : BitVec 32 :=
  match func.toNat with
  | 0b0001 => op1-op2
  | 0b0010 => op1 ^^^ op2
  | 0b0011 => op1 <<< shamt op2
  | 0b0100 => op1 >>> shamt op2
  | 0b0101 => op1.sshiftRight (shamt op2)
  | 0b0110 => op1 ||| op2
  | 0b0111 => op1 &&& op2
  | 0b1011 => ~~~(op1 ||| op2)
  | 0b1100 => (op1 <<< 1)+op2
  | 0b1101 => (op1 <<< 2)+op2
  | _ => op1+op2

def comp (func : BitVec 4) (op1 op2 : BitVec 32) : Bool :=
  match func.toNat with
  | 0b0000 => op1 == op2
  | 0b0001 => op1 != op2
  | 0b0010 => op1.slt op2
  | 0b0011 => op1.slt op2 || op1 == op2
  | 0b0100 => op1.ult op2
  | 0b0101 => op1.ult op2 || op1 == op2
  | 0b0110 => op1.getLsbD (shamt op2)
  | _ => false

def predFunc (func : BitVec 2) (op1 op2 : Bool) : Bool :=
  match func.toNat with
  | 0 => op1 || op2
  | 1 => op1 && op2
  | 2 => op1 ^^ op2
  | _ => !(op1 || op2)

-- A predicate operand: the high bit inverts the register.
def predOperand (predReg : BitVec 3 → Bool) (addr : BitVec 4) : Bool := predReg (addr.extractLsb' 0 3) ^^ addr.getLsbD 3

def bcpy (ps : Bool) (op1 op2 : BitVec 32) : BitVec 32 :=
  op1 &&& ~~~(1#32 <<< shamt op2) ||| (ofBool ps).setWidth 32 <<< shamt op2

theorem append_toNat (x : BitVec n) (y : BitVec m) : (x ++ y).toNat = x.toNat*2^m+y.toNat := by
  rw [toNat_append,← Nat.shiftLeft_add_eq_or_of_lt y.isLt,Nat.shiftLeft_eq]

-- The four products of half words, as they wait in the multiplier.
structure Partial where
  ll : BitVec 32
  lh : BitVec 33
  hl : BitVec 33
  hh : BitVec 32

namespace Partial
def high (signed : Bool) (op : BitVec 32) : BitVec 17 := ofBool (signed && op.getLsbD 31) ++ op.extractLsb' 16 16
def low (op : BitVec 32) : BitVec 16 := op.extractLsb' 0 16

def of (signed : Bool) (op1 op2 : BitVec 32) : Partial where
  ll := (low op1).setWidth 32*(low op2).setWidth 32
  lh := (low op1).setWidth 33*(high signed op2).signExtend 33
  hl := (high signed op1).signExtend 33*(low op2).setWidth 33
  hh := ((high signed op1).signExtend 34*(high signed op2).signExtend 34).setWidth 32

def mulResult (p : Partial) : BitVec 64 :=
  p.hh ++ p.ll+(p.hl ++ 0#16).signExtend 64+(p.lh ++ 0#16).signExtend 64
end Partial

def operandValue (signed : Bool) (op : BitVec 32) : Int := if signed then op.toInt else op.toNat

def product (signed : Bool) (op1 op2 : BitVec 32) : BitVec 64 :=
  BitVec.ofInt 64 (operandValue signed op1*operandValue signed op2)

namespace Partial
theorem append_ofInt (x : BitVec n) (y : BitVec m) : x ++ y = BitVec.ofInt (n+m) (x.toNat*2^m+y.toNat) := by
  apply eq_of_toNat_eq
  have width := (x ++ y).isLt
  rw [append_toNat] at width ⊢
  have value : (x.toNat*2^m+y.toNat : Int) = ((x.toNat*2^m+y.toNat : Nat) : Int) := by push_cast; rfl
  rw [value,ofInt_natCast,toNat_ofNat,Nat.mod_eq_of_lt width]

theorem shifted_ofInt (x : BitVec 33) : (x ++ 0#16).signExtend 64 = BitVec.ofInt 64 (x.toInt*2^16) := by
  have appended := append_toNat x 0#16
  show BitVec.ofInt 64 (x ++ 0#16).toInt = _
  congr 1
  rw [toInt_eq_toNat_cond,toInt_eq_toNat_cond,appended]
  simp only [toNat_ofNat]
  split <;> split <;> omega

theorem mulResult_ofInt (p : Partial) :
    p.mulResult = BitVec.ofInt 64 (p.hh.toNat*2^32+p.ll.toNat+p.hl.toInt*2^16+p.lh.toInt*2^16) := by
  unfold mulResult
  rw [append_ofInt,shifted_ofInt,shifted_ofInt,← ofInt_add,← ofInt_add]

theorem high_toInt (signed : Bool) (op : BitVec 32) :
    (high signed op).toInt*2^16+(low op).toNat = operandValue signed op := by
  have top : op.getLsbD 31 = decide (2^31 ≤ op.toNat) := by
    rw [show op.getLsbD 31 = op.msb from (msb_eq_getLsbD_last op).symm,msb_eq_decide]
  have upper : (high signed op).toNat = (if signed && op.getLsbD 31 then 1 else 0)*2^16+op.toNat/2^16 := by
    unfold high
    rw [append_toNat]
    cases signed && op.getLsbD 31 <;> simp [Nat.shiftRight_eq_div_pow] <;> omega
  have lower : (low op).toNat = op.toNat % 2^16 := by simp [low]
  rw [toInt_eq_toNat_cond,upper,top]
  unfold operandValue
  rw [toInt_eq_toNat_cond]
  cases signed with
  | false => simp; omega
  | true =>
    by_cases negative : 2147483648 ≤ op.toNat
    · simp [negative]; omega
    · simp [negative]; omega

theorem cross_toInt (low : BitVec 16) (high : BitVec 17) :
    (low.setWidth 33*high.signExtend 33).toInt = low.toNat*high.toInt := by
  have least : -2^16 ≤ high.toInt := le_toInt high
  have most : high.toInt < 2^16 := toInt_lt
  have widened : (low.setWidth 33).toInt = low.toNat := by
    rw [toInt_eq_toNat_cond,toNat_setWidth]
    split <;> omega
  rw [toInt_mul,widened,toInt_signExtend_of_le (by decide)]
  have lower : (low.toNat : Int)*(-2^16) ≤ low.toNat*high.toInt := Int.mul_le_mul_of_nonneg_left least (by omega)
  have upper : (low.toNat : Int)*high.toInt ≤ low.toNat*2^16 := Int.mul_le_mul_of_nonneg_left (by omega) (by omega)
  apply Int.bmod_eq_of_le
  · omega
  · omega

theorem ll_toNat (left right : BitVec 16) : (left.setWidth 32*right.setWidth 32).toNat = left.toNat*right.toNat := by
  have bound : left.toNat*right.toNat < 2^16*2^16 := Nat.mul_lt_mul'' left.isLt right.isLt
  exact Nat.mod_eq_of_lt bound

-- The high product loses its upper bits, which lie above bit 63 of the result.
theorem hh_dvd (left right : BitVec 17) :
    (2^32 : Int) ∣ left.toInt*right.toInt-((left.signExtend 34*right.signExtend 34).setWidth 32).toNat := by
  have whole : (left.signExtend 34*right.signExtend 34) = BitVec.ofInt 34 (left.toInt*right.toInt) := by
    rw [ofInt_mul]
    rfl
  rw [whole,toNat_setWidth,toNat_ofInt]
  omega

theorem of_product (signed : Bool) (op1 op2 : BitVec 32) : (of signed op1 op2).mulResult = product signed op1 op2 := by
  obtain ⟨lost,upper⟩ := hh_dvd (high signed op1) (high signed op2)
  have cross := cross_toInt (low op2) (high signed op1)
  rw [BitVec.mul_comm] at cross
  rw [mulResult_ofInt,product,← high_toInt,← high_toInt]
  simp only [of]
  rw [ll_toNat,cross_toInt,cross]
  have wraps : BitVec.ofInt 64 (2^64*lost) = 0#64 := by
    rw [BitVec.ofInt_mul,show BitVec.ofInt 64 (2^64) = 0#64 from rfl,BitVec.zero_mul]
  rw [← BitVec.add_zero (BitVec.ofInt 64 _),← wraps,← BitVec.ofInt_add]
  congr 1
  push_cast
  linear_combination -2^32*upper
end Partial
end Patmos.Core
