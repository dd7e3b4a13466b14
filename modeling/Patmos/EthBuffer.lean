import Mathlib.Data.BitVec
namespace Patmos.Ethlib
open BitVec Function

-- The frame memory by word. A byte address has the first byte of a word on top.
abbrev Buffer := Nat → BitVec 32

section
variable (word : BitVec 32) (addr : Nat)

def shiftFactor : Nat := 24-8*(addr % 4)

def memIowr (m : Buffer) (addr : Nat) (data : BitVec 32) : Buffer := update m (addr/4) data

def memIowrByte (m : Buffer) (addr : Nat) (data : BitVec 32) : Buffer :=
  let mask := ~~~(0xFF#32 <<< shiftFactor addr)
  update m (addr/4) ((m (addr/4) &&& mask)+((0xFF#32 &&& data) <<< shiftFactor addr))

def memIord (m : Buffer) (addr : Nat) : BitVec 32 := m (addr/4)

def lane : BitVec 32 := (word &&& (0xFF#32 <<< shiftFactor addr)) >>> shiftFactor addr

def memIordByte (m : Buffer) (addr : Nat) : BitVec 32 := lane (m (addr/4)) addr

theorem byte_getLsbD (i : Nat) : (0xFF#32).getLsbD i = decide (i < 8) := by
  rw [getLsbD_ofNat,show 0xFF = 2^8-1 from rfl,Nat.testBit_two_pow_sub_one]
  by_cases low : i < 8
  · simp [Nat.lt_trans low]
  · simp [low]

theorem lane_getLsbD (addr i : Nat) : (lane word addr).getLsbD i = (decide (i < 8) && word.getLsbD (shiftFactor addr+i)) := by
  have within : shiftFactor addr ≤ 24 := Nat.sub_le _ _
  unfold lane
  rw [getLsbD_ushiftRight,getLsbD_and,getLsbD_shiftLeft,byte_getLsbD]
  by_cases low : i < 8
  · have inside : shiftFactor addr+i < 32 := by omega
    simp [low,inside]
  · simp [low]

theorem lane_toNat : (lane word addr).toNat < 2^8 := by
  apply Nat.lt_pow_two_of_testBit
  intro i high
  rw [testBit_toNat,lane_getLsbD]
  simp [Nat.not_lt.mpr high]

theorem lane_narrow : ((lane word addr).setWidth 8).setWidth 32 = lane word addr := by
  have small := lane_toNat word addr
  apply eq_of_toNat_eq
  rw [toNat_setWidth,toNat_setWidth]
  omega

theorem lane_value : (lane word addr).toNat = word.toNat/2^shiftFactor addr % 2^8 := by
  apply Nat.eq_of_testBit_eq
  intro i
  rw [testBit_toNat,lane_getLsbD,Nat.testBit_mod_two_pow,Nat.testBit_div_two_pow,testBit_toNat,Nat.add_comm]
end

theorem iowrByte_or (word data : BitVec 32) (s : Nat) :
    (word &&& ~~~(0xFF#32 <<< s))+((0xFF#32 &&& data) <<< s) = (word &&& ~~~(0xFF#32 <<< s)) ||| ((0xFF#32 &&& data) <<< s) := by
  apply add_eq_or_of_and_eq_zero
  apply eq_of_getLsbD_eq
  intro i inside
  simp only [getLsbD_and,getLsbD_not,getLsbD_shiftLeft,byte_getLsbD]
  by_cases low : i < s
  · simp [low]
  · by_cases high : i-s < 8
    · simp [low,high]
    · simp [high]

theorem iowrByte_getLsbD (word data : BitVec 32) (s i : Nat) :
    ((word &&& ~~~(0xFF#32 <<< s))+((0xFF#32 &&& data) <<< s)).getLsbD i =
      if s ≤ i ∧ i < s+8 ∧ i < 32 then data.getLsbD (i-s) else word.getLsbD i := by
  rw [iowrByte_or]
  simp only [getLsbD_or,getLsbD_and,getLsbD_not,getLsbD_shiftLeft,byte_getLsbD]
  by_cases inside : i < 32
  · by_cases low : i < s
    · simp [low,inside]
    · by_cases high : i-s < 8
      · simp [low,high,inside,show i < s+8 by omega]
      · simp [high,inside,show ¬i < s+8 by omega]
  · simp [inside,getLsbD_of_ge word i (Nat.not_lt.mp inside)]

theorem shiftFactor_eq (same : addr % 4 = other % 4) : shiftFactor addr = shiftFactor other := by
  unfold shiftFactor
  rw [same]

theorem lane_iowrByte (word data : BitVec 32) (addr other : Nat) :
    lane ((word &&& ~~~(0xFF#32 <<< shiftFactor addr))+((0xFF#32 &&& data) <<< shiftFactor addr)) other =
      if other % 4 = addr % 4 then data &&& 0xFF#32 else lane word other := by
  apply eq_of_getLsbD_eq
  intro i _
  rw [lane_getLsbD,iowrByte_getLsbD]
  by_cases same : other % 4 = addr % 4
  · have within : shiftFactor addr ≤ 24 := Nat.sub_le _ _
    rw [if_pos same,shiftFactor_eq same,getLsbD_and,byte_getLsbD]
    by_cases low : i < 8
    · rw [if_pos (by omega)]
      simp [low]
    · simp [low]
  · rw [if_neg same,lane_getLsbD]
    by_cases low : i < 8
    · have apart : ¬(shiftFactor addr ≤ shiftFactor other+i ∧ shiftFactor other+i < shiftFactor addr+8 ∧
          shiftFactor other+i < 32) := by
        unfold shiftFactor
        omega
      rw [if_neg apart]
    · simp [low]

section
variable (m : Buffer) (addr : Nat) (data : BitVec 32) (other : Nat)

theorem iordByte_iowrByte :
    memIordByte (memIowrByte m addr data) other = if other = addr then data &&& 0xFF#32 else memIordByte m other := by
  unfold memIordByte memIowrByte
  by_cases word : other/4 = addr/4
  · rw [word]
    simp only [update_self]
    rw [lane_iowrByte]
    exact if_congr (by omega) rfl rfl
  · simp only [update_of_ne word]
    rw [if_neg (fun same => word (by rw [same]))]

theorem iordByte_iowr :
    memIordByte (memIowr m addr data) other = if other/4 = addr/4 then lane data other else memIordByte m other := by
  unfold memIordByte memIowr
  by_cases word : other/4 = addr/4
  · rw [word,update_self,if_pos rfl]
  · rw [update_of_ne word,if_neg word]

theorem iord_iowr : memIord (memIowr m addr data) other = if other/4 = addr/4 then data else memIord m other := by
  unfold memIord memIowr
  by_cases word : other/4 = addr/4
  · rw [word,update_self,if_pos rfl]
  · rw [update_of_ne word,if_neg word]
end

theorem iord_iowrByte (m : Buffer) (data : BitVec 32) (apart : other/4 ≠ addr/4) :
    memIord (memIowrByte m addr data) other = memIord m other := update_of_ne apart _ _

def pack (a b c d : BitVec 8) : BitVec 32 :=
  (a.setWidth 32 <<< 24) ||| (b.setWidth 32 <<< 16) ||| (c.setWidth 32 <<< 8) ||| d.setWidth 32

theorem pack_getLsbD (a b c d : BitVec 8) (i : Nat) :
    (pack a b c d).getLsbD i =
      if i < 8 then d.getLsbD i else if i < 16 then c.getLsbD (i-8) else if i < 24 then b.getLsbD (i-16)
        else a.getLsbD (i-24) := by
  simp only [pack]
  have beyond (byte : BitVec 8) (i : Nat) (high : 8 ≤ i) : byte.getLsbD i = false := getLsbD_of_ge byte i high
  by_cases one : i < 8
  · simp [one,show i < 32 by omega,show i < 24 by omega,show i < 16 by omega]
  · by_cases two : i < 16
    · simp [two,show i < 32 by omega,show i < 24 by omega,beyond d i (by omega)]
    · by_cases three : i < 24
      · simp [one,three,show i < 32 by omega,beyond d i (by omega),beyond c (i-8) (by omega)]
      · by_cases inside : i < 32
        · simp [one,two,inside,beyond d i (by omega),beyond c (i-8) (by omega),
            beyond b (i-16) (by omega)]
        · simp [one,two,three,inside,beyond a (i-24) (by omega)]

theorem lane_pack (a b c d : BitVec 8) (addr : Nat) :
    (lane (pack a b c d) addr).setWidth 8 = if addr % 4 = 0 then a else if addr % 4 = 1 then b else if addr % 4 = 2 then c else d := by
  apply eq_of_getLsbD_eq
  intro i inside
  rw [getLsbD_setWidth,lane_getLsbD,pack_getLsbD]
  by_cases one : addr % 4 = 0
  · simp [shiftFactor,one,inside,show ¬24+i < 8 by omega,show ¬24+i < 16 by omega]
  · by_cases two : addr % 4 = 1
    · simp [shiftFactor,two,inside,show 16+i < 24 by omega,show ¬16+i < 8 by omega]
    · by_cases three : addr % 4 = 2
      · simp [shiftFactor,three,inside,show 8+i < 16 by omega]
      · simp [shiftFactor,show addr % 4 = 3 by omega,inside]
end Patmos.Ethlib
