import Mathlib.Tactic.FinCases
import Patmos.Alu
import Patmos.MCache
namespace Patmos.Memory
open BurstMemory BitVec Function

local instance lanes : NeZero 4 := ⟨by decide⟩

-- The multiplexers between a memory operation and the words of memory.
section Mux
variable (hword byte : Bool) (addr : Nat)

def wrData (data : Word 4) : Word 4 :=
  let halves := if hword then
      if addr/2 % 2 = 0 then update (update data 2 (data 0)) 3 (data 1)
      else update (update data 0 (data 0)) 1 (data 1)
    else data
  if byte then
    match addr % 4 with
    | 0 => update halves 3 (data 0)
    | 1 => update halves 2 (data 0)
    | 2 => update halves 1 (data 0)
    | _ => update halves 0 (data 0)
  else halves

def byteEn : ByteEn 4 := fun i =>
  let enable : BitVec 4 := if byte then
      match addr % 4 with
      | 0 => 0b1000
      | 1 => 0b0100
      | 2 => 0b0010
      | _ => 0b0001
    else if hword then if addr/2 % 2 = 0 then 0b1100 else 0b0011 else 0b1111
  enable.getLsbD i

def bval (rdData : Word 4) : BitVec 8 :=
  match addr % 4 with
  | 0 => rdData 3
  | 1 => rdData 2
  | 2 => rdData 1
  | _ => rdData 0

def hval (rdData : Word 4) : BitVec 16 := if addr/2 % 2 = 0 then rdData 3 ++ rdData 2 else rdData 1 ++ rdData 0

def dout (zext : Bool) (rdData : Word 4) : BitVec 32 :=
  if hword then (if zext then 0#16 else fill 16 (hval addr rdData).msb) ++ hval addr rdData
  else if byte then (if zext then 0#24 else fill 24 (bval addr rdData).msb) ++ bval addr rdData
  else rdData 3 ++ rdData 2 ++ rdData 1 ++ rdData 0
end Mux

inductive Size where
  | byte
  | hword
  | word
  deriving DecidableEq, Repr

def Size.bytes : Size → Nat
  | .byte => 1
  | .hword => 2
  | .word => 4

def Size.store (size : Size) (mem : Nat → Word 4) (addr : Nat) (data : Word 4) : Nat → Word 4 :=
  BurstMemory.store mem (addr/4*4) (wrData (size = .hword) (size = .byte) addr data) (byteEn (size = .hword) (size = .byte) addr)

def Size.load (size : Size) (zext : Bool) (mem : Nat → Word 4) (addr : Nat) : BitVec 32 :=
  dout (size = .hword) (size = .byte) addr zext (mem (addr/4))

-- The most significant byte of a word has the lowest address.
def byteAt (mem : Nat → Word 4) (addr : Nat) : BitVec 8 := mem (addr/4) (Fin.ofNat 4 (3-addr % 4))

def bigEndian (mem : Nat → Word 4) (addr : Nat) : Nat → Nat
  | 0 => 0
  | count+1 => bigEndian mem addr count*2^8+(byteAt mem (addr+count)).toNat

theorem lane_stored (size : Size) (addr : Nat) (aligned : addr % size.bytes = 0) (old data : Word 4) (k : Fin 4) :
    merge old (wrData (size = .hword) (size = .byte) addr data) (byteEn (size = .hword) (size = .byte) addr) (Fin.ofNat 4 (3-k)) =
      if addr % 4 ≤ k ∧ k < addr % 4+size.bytes then data (Fin.ofNat 4 (addr % 4+size.bytes-1-k)) else old (Fin.ofNat 4 (3-k)) := by
  have half : addr/2 % 2 = addr % 4/2 := by omega
  cases size with
  | byte =>
    have low : addr % 4 = 0 ∨ addr % 4 = 1 ∨ addr % 4 = 2 ∨ addr % 4 = 3 := by omega
    rcases low with low | low | low | low <;> fin_cases k <;> simp [wrData,byteEn,merge,Size.bytes,low,-Fin.ofNat_eq_cast]
  | hword =>
    have even : addr % 2 = 0 := aligned
    have low : addr % 4 = 0 ∨ addr % 4 = 2 := by omega
    rcases low with low | low <;> fin_cases k <;> simp [wrData,byteEn,merge,Size.bytes,half,low,-Fin.ofNat_eq_cast]
  | word =>
    have low : addr % 4 = 0 := aligned
    fin_cases k <;> simp [wrData,byteEn,merge,Size.bytes,low]

theorem extended (zext : Bool) (x : BitVec n) :
    (if zext then 0#m else fill m x.msb) ++ x = if zext then x.setWidth (m+n) else x.signExtend (m+n) := by
  ext i inside
  cases zext with
  | true =>
    simp only [if_true,getElem_append,getElem_setWidth,getElem_zero]
    split
    · exact (getLsbD_eq_getElem _).symm
    · exact (getLsbD_of_ge x i (by omega)).symm
  | false => simp [getElem_append,getElem_signExtend]

theorem bigEndian_succ {x : BitVec n} (upper : bigEndian mem addr count = x.toNat) :
    bigEndian mem addr (count+1) = (x ++ byteAt mem (addr+count)).toNat := by
  rw [Core.append_toNat,← upper]
  rfl

theorem bigEndian_one (mem : Nat → Word 4) (addr : Nat) : bigEndian mem addr 1 = (byteAt mem addr).toNat := by simp [bigEndian]

theorem load_value (size : Size) (zext : Bool) (mem : Nat → Word 4) (addr : Nat) (aligned : addr % size.bytes = 0) :
    size.load zext mem addr =
      if zext then (BitVec.ofNat (8*size.bytes) (bigEndian mem addr size.bytes)).setWidth 32
      else (BitVec.ofNat (8*size.bytes) (bigEndian mem addr size.bytes)).signExtend 32 := by
  have first := bigEndian_one mem addr
  cases size with
  | byte =>
    have value : bval addr (mem (addr/4)) = byteAt mem addr := by
      have low : addr % 4 = 0 ∨ addr % 4 = 1 ∨ addr % 4 = 2 ∨ addr % 4 = 3 := by omega
      rcases low with low | low | low | low <;> simp [bval,byteAt,low,-Fin.ofNat_eq_cast]
    refine (extended zext (bval addr (mem (addr/4)))).trans ?_
    rw [value,Size.bytes,first,BitVec.ofNat_toNat,BitVec.setWidth_eq]
  | hword =>
    have even : addr % 2 = 0 := aligned
    have same : (addr+1)/4 = addr/4 := by omega
    have value : hval addr (mem (addr/4)) = byteAt mem addr ++ byteAt mem (addr+1) := by
      have low : addr % 4 = 0 ∧ addr/2 % 2 = 0 ∧ (addr+1) % 4 = 1 ∨ addr % 4 = 2 ∧ addr/2 % 2 = 1 ∧ (addr+1) % 4 = 3 := by omega
      rcases low with ⟨low,half,after⟩ | ⟨low,half,after⟩ <;> simp [hval,byteAt,same,low,half,after,-Fin.ofNat_eq_cast]
    refine (extended zext (hval addr (mem (addr/4)))).trans ?_
    rw [value,Size.bytes,bigEndian_succ first,BitVec.ofNat_toNat,BitVec.setWidth_eq]
  | word =>
    have low : addr % 4 = 0 := aligned
    have place (k : Nat) (inside : k < 4) : (addr+k)/4 = addr/4 ∧ (addr+k) % 4 = k := by omega
    have value : mem (addr/4) 3 ++ mem (addr/4) 2 ++ mem (addr/4) 1 ++ mem (addr/4) 0 =
        byteAt mem addr ++ byteAt mem (addr+1) ++ byteAt mem (addr+2) ++ byteAt mem (addr+3) := by
      simp [byteAt,low,place,-Fin.ofNat_eq_cast]
    refine value.trans ?_
    rw [Size.bytes,bigEndian_succ (bigEndian_succ (bigEndian_succ first)),BitVec.ofNat_toNat,BitVec.setWidth_eq,
      setWidth_eq,signExtend_eq,ite_self]

theorem subword_access (mem : Nat → Word 4) (addr : Nat) (size : Size) (aligned : addr % size.bytes = 0) :
    (∀ data other, byteAt (size.store mem addr data) other =
      if addr ≤ other ∧ other < addr+size.bytes then data (Fin.ofNat 4 (addr+size.bytes-1-other)) else byteAt mem other) ∧
    ∀ zext, size.load zext mem addr =
      if zext then (BitVec.ofNat (8*size.bytes) (bigEndian mem addr size.bytes)).setWidth 32
      else (BitVec.ofNat (8*size.bytes) (bigEndian mem addr size.bytes)).signExtend 32 := by
  refine ⟨fun data other => ?_,fun zext => load_value size zext mem addr aligned⟩
  have within : addr % 4+size.bytes ≤ 4 := by cases size <;> simp only [Size.bytes] at aligned ⊢ <;> omega
  unfold byteAt Size.store
  rw [BurstMemory.store_apply]
  by_cases here : other/4 = addr/4
  · have lane := lane_stored size addr aligned (mem (other/4)) data ⟨other % 4,Nat.mod_lt _ (by decide)⟩
    rw [if_pos (by omega),lane]
    have offset : addr+size.bytes-1-other = addr % 4+size.bytes-1-other % 4 := by omega
    rw [offset]
    exact if_congr (by simp only; omega) rfl rfl
  · rw [if_neg (by omega),if_neg (by omega)]

theorem subword_access_hword :
    byteAt (Size.hword.store (fun _ _ => 0) 6 fun i => i.val) 6 = 1 ∧ Size.hword.load true (fun _ i => i.val) 6 = 0x0100 := by
  obtain ⟨stored,-⟩ := subword_access (fun _ _ => 0) 6 .hword (by decide)
  obtain ⟨-,loaded⟩ := subword_access (fun _ i => i.val) 6 .hword (by decide)
  exact ⟨(stored _ 6).trans (by decide +kernel),(loaded true).trans (by decide +kernel)⟩
end Patmos.Memory
