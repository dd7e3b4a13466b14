import Mathlib.Data.BitVec
namespace OnesComplement
open BitVec

-- One end-around carry from the upper half of a word into the lower one.
def fold (sum : BitVec 32) : BitVec 32 :=
  if sum &&& 0xFFFF0000#32 > 0 then (sum &&& 0xFFFF#32)+(sum >>> 16) else sum

def checksum (sum : BitVec 32) : BitVec 32 := ~~~(fold (fold (fold sum))) &&& 0xFFFF#32

section
variable (sum : BitVec 32)

theorem low_toNat : (sum &&& 0xFFFF#32).toNat = sum.toNat % 2^16 := by
  exact Nat.and_two_pow_sub_one_eq_mod sum.toNat 16

theorem high_toNat : (sum &&& 0xFFFF0000#32).toNat = sum.toNat/2^16*2^16 := by
  have parts : sum &&& 0xFFFF0000#32 = (sum >>> 16) <<< 16 := by
    apply eq_of_getLsbD_eq
    intro i inside
    have mask : ∀ i : Fin 32, (0xFFFF0000#32).getLsbD i = decide (16 ≤ i.val) := by decide
    rw [getLsbD_and,mask ⟨i,inside⟩]
    by_cases upper : 16 ≤ i
    · simp [upper,inside]
    · simp [upper]
  rw [parts,toNat_shiftLeft,toNat_ushiftRight]
  omega

theorem fold_toNat : (fold sum).toNat = sum.toNat % 2^16+sum.toNat/2^16 := by
  have high := high_toNat sum
  unfold fold
  split
  · rw [toNat_add,low_toNat,toNat_ushiftRight]
    omega
  next none =>
    have zero : (sum &&& 0xFFFF0000#32).toNat = 0 := by
      simp only [lt_def,not_lt] at none
      exact Nat.le_zero.mp none
    omega

-- A carry leaves the residue modulo 2^16-1, and zero only for zero.
theorem checksum_toNat : ∃ carry : Nat, (checksum sum).toNat+(sum.toNat-carry*65535) = 65535 ∧ carry*65535 ≤ sum.toNat ∧
      (sum.toNat = carry*65535 → sum.toNat = 0) := by
  have one := fold_toNat sum
  have two := fold_toNat (fold sum)
  have three := fold_toNat (fold (fold sum))
  have value : (checksum sum).toNat = 65535-(fold (fold (fold sum))).toNat := by
    unfold checksum
    rw [low_toNat,toNat_not]
    omega
  refine ⟨sum.toNat/2^16+(fold sum).toNat/2^16+(fold (fold sum)).toNat/2^16,?_,?_,?_⟩
  · omega
  · omega
  · omega

theorem checksum_small : (checksum sum).toNat < 2^16 := by
  unfold checksum
  rw [low_toNat]
  exact Nat.mod_lt _ (by decide)

section
variable {sum more : BitVec 32} (room : sum.toNat+2^16 ≤ 2^32) (small : more.toNat < 65535)
include room small

theorem more_toNat : (sum+more).toNat = sum.toNat+more.toNat := by
  rw [toNat_add]
  omega

-- An addend below 2^16-1 is seen in the checksum.
theorem checksum_more : checksum (sum+more) = checksum sum ↔ more = 0 := by
  have whole := more_toNat room small
  obtain ⟨carry,value,below,_⟩ := checksum_toNat sum
  obtain ⟨again,result,under,_⟩ := checksum_toNat (sum+more)
  constructor
  · intro same
    rw [same] at result
    apply eq_of_toNat_eq
    show more.toNat = 0
    omega
  · rintro rfl
    rw [add_zero]

theorem checksum_verified : checksum (sum+checksum (sum+more)) = 0 ↔ more = 0 := by
  have whole := more_toNat room small
  obtain ⟨carry,value,below,_⟩ := checksum_toNat (sum+more)
  have total : (sum+checksum (sum+more)).toNat = sum.toNat+(checksum (sum+more)).toNat := by
    rw [toNat_add]
    omega
  obtain ⟨again,result,under,zero⟩ := checksum_toNat (sum+checksum (sum+more))
  rw [← toNat_inj,← toNat_inj]
  show (checksum (sum+checksum (sum+more))).toNat = 0 ↔ more.toNat = 0
  omega
end

theorem checksum_complements : ∃ k, sum.toNat+(checksum sum).toNat = (k+1)*65535 := by
  obtain ⟨carry,value,below,_⟩ := checksum_toNat sum
  exact ⟨carry,by omega⟩
end

-- Addition of 16-bit words with the carry added at the other end.
def endAround (x y : Nat) : Nat := if x+y < 2^16 then x+y else x+y-65535

def total (words : List Nat) : Nat := words.foldl endAround 0

theorem endAround_foldl (words : List Nat) (small : ∀ w ∈ words, w < 2^16) (acc : Nat) (bound : acc ≤ 65535) :
    ∃ carry, words.foldl endAround acc+carry*65535 = acc+words.sum ∧ words.foldl endAround acc ≤ 65535 ∧
      (words.foldl endAround acc = 0 → acc+words.sum = 0) := by
  induction words generalizing acc with
  | nil => exact ⟨0,Nat.zero_mul 65535 ▸ rfl,bound,id⟩
  | cons w rest ih =>
    have first := small w (List.mem_cons_self ..)
    have next : endAround acc w ≤ 65535 := by
      unfold endAround
      split <;> omega
    obtain ⟨carry,value,below,zero⟩ := ih (fun x member => small x (List.mem_cons_of_mem w member)) _ next
    simp only [List.foldl_cons,List.sum_cons]
    generalize List.foldl endAround (endAround acc w) rest = result at *
    unfold endAround at value zero
    split at value
    case isTrue none =>
      rw [if_pos none] at zero
      exact ⟨carry,by omega,below,by omega⟩
    case isFalse wraps =>
      rw [if_neg wraps] at zero
      refine ⟨carry+1,?_,below,by omega⟩
      rw [Nat.succ_mul]
      generalize carry*65535 = multiple at value
      omega

theorem total_multiple {words : List Nat} (small : ∀ w ∈ words, w < 2^16) (full : total words = 65535) :
    ∃ k, words.sum = (k+1)*65535 := by
  obtain ⟨carry,value,-,-⟩ := endAround_foldl words small 0 (by decide)
  unfold total at full
  exact ⟨carry,by omega⟩

theorem total_full {words : List Nat} (small : ∀ w ∈ words, w < 2^16) (multiple : words.sum = (k+1)*65535) :
    total words = 65535 := by
  obtain ⟨carry,value,below,zero⟩ := endAround_foldl words small 0 (by decide)
  unfold total
  omega
end OnesComplement
