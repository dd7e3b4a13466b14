import Patmos.LzssTree
namespace Patmos.Lzss
open BitVec List

inductive Token where
  | letter (byte : Byte)
  | pair (position length : Nat)

namespace Token
def isLetter : Token → Bool
  | letter _ => true
  | pair _ _ => false

def length : Token → Nat
  | letter _ => 1
  | pair _ length => length

-- The high bits of the position share a byte with the length.
def code : Token → List Byte
  | letter byte => [byte]
  | pair position length =>
    [BitVec.ofNat 8 position,
      BitVec.ofNat 8 (((position >>> (8-lengthBits)) &&& (0xff <<< lengthBits) &&& 0xff) ||| (length-(threshold+1)))]
end Token

section
variable (group : List Token) (token : Token)

-- Eight units share a byte of flags.
def flags : Byte := (ofBoolListLE (group.map Token.isLetter)).setWidth 8

def pack : List Byte := flags group :: group.flatMap Token.code

theorem flags_bit (inside : i < 8) : (flags group).getLsbD i = (group.map Token.isLetter).getD i false := by
  rw [flags,getLsbD_setWidth,getLsbD_ofBoolListLE,decide_eq_true inside,Bool.true_and]

theorem mask_bit (k : Nat) (inside : i < 8) : (1#8 <<< k).getLsbD i = decide (i = k) := by
  rw [getLsbD_shiftLeft,decide_eq_true inside]
  by_cases here : i = k
  · subst here
    simp
  · by_cases low : i < k
    · simp [low,here]
    · have some : i-k ≠ 0 := by omega
      simp [here,some]

theorem getD_snoc (bits : List Bool) (last : Bool) (i : Nat) :
    (bits++[last]).getD i false = if i = bits.length then last else bits.getD i false := by
  rcases Nat.lt_trichotomy i bits.length with low | here | high
  · rw [if_neg low.ne]
    simp [List.getElem?_append_left low]
  · subst here
    simp
  · have longer : (bits++[last]).length ≤ i := by
      rw [List.length_append]
      exact high
    rw [if_neg high.ne']
    simp [List.getElem?_eq_none high.le,List.getElem?_eq_none longer]

theorem flags_snoc :
    flags (group++[token]) = if token.isLetter then flags group ||| 1#8 <<< group.length else flags group := by
  apply eq_of_getLsbD_eq
  intro i inside
  rw [flags_bit _ inside,map_append,map_singleton,getD_snoc,length_map]
  by_cases here : i = group.length
  · have beyond : (flags group).getLsbD i = false := by
      rw [flags_bit _ inside,here]
      simp
    cases token with
    | letter byte => simp [here,Token.isLetter,mask_bit _ (here ▸ inside)]
    | pair position length =>
      rw [if_pos here]
      exact beyond.symm
  · rw [if_neg here,← flags_bit _ inside]
    cases token with
    | letter byte => simp [Token.isLetter,mask_bit _ inside,here]
    | pair position length => rfl

theorem pack_snoc : pack (group++[token]) = flags (group++[token]) :: (group.flatMap Token.code++token.code) := by
  simp [pack]
end

-- Only the last group of a stream may have fewer than eight units.
def Groups : List (List Token) → Prop
  | [] => True
  | group :: rest => group ≠ [] ∧ group.length ≤ 8 ∧ (rest ≠ [] → group.length = 8) ∧ Groups rest

theorem Groups.append (full : ∀ group ∈ done, length group = 8) (rest : Groups last) : Groups (done++last) := by
  induction done with
  | nil => exact rest
  | cons group others ih =>
    have eight := full group (mem_cons_self ..)
    refine ⟨?_,Nat.le_of_eq eight,fun _ => eight,ih fun other member => full other (mem_cons_of_mem _ member)⟩
    rintro rfl
    cases eight

def Token.Says (T : Nat → Byte) (e : Nat) : Token → Prop
  | letter byte => byte = T e
  | pair position length => threshold < length ∧ length ≤ F ∧
      ∃ P, position = P % N ∧ P < e ∧ e+F ≤ P+N ∧ ∀ k < length, T (P+k) = T (e+k)

theorem Token.Says.positive {token : Token} (told : token.Says T e) : 0 < token.length := by
  cases token with
  | letter byte => exact Nat.one_pos
  | pair position length => exact Nat.lt_of_le_of_lt (Nat.zero_le _) told.1

def Covers (T : Nat → Byte) : Nat → List Token → Nat → Prop
  | e,[],e' => e = e'
  | e,token :: rest,e' => token.Says T e ∧ Covers T (e+token.length) rest e'

theorem Covers.snoc {token : Token} (covers : Covers T e tokens e') (told : token.Says T e') :
    Covers T e (tokens++[token]) (e'+token.length) := by
  induction tokens generalizing e with
  | nil =>
    cases covers
    exact ⟨told,rfl⟩
  | cons head rest ih => exact ⟨covers.1,ih covers.2⟩

theorem Covers.le (covers : Covers T e tokens e') : e ≤ e' := by
  induction tokens generalizing e with
  | nil => exact Nat.le_of_eq covers
  | cons head rest ih => exact Nat.le_trans (Nat.le_add_right _ _) (ih covers.2)

theorem Covers.ends (covers : Covers T e tokens e) : tokens = [] := by
  cases tokens with
  | nil => rfl
  | cons head rest =>
    have positive := Token.Says.positive covers.1
    have below := covers.2.le
    omega

theorem Covers.bytes_le (covers : Covers T e tokens e') :
    e+tokens.length ≤ e' ∧ e+(tokens.flatMap Token.code).length ≤ e' := by
  induction tokens generalizing e with
  | nil => exact ⟨Nat.le_of_eq covers,Nat.le_of_eq covers⟩
  | cons token rest ih =>
    obtain ⟨told,others⟩ := covers
    obtain ⟨units,bytes⟩ := ih others
    have positive := told.positive
    have short : token.code.length ≤ token.length := by
      cases token with
      | letter byte => exact Nat.le_refl 1
      | pair position length => exact Nat.le_of_lt told.1
    simp only [length_cons,flatMap_cons,length_append]
    omega

theorem Groups.pack_length (shape : Groups groups) :
    8*(groups.flatMap pack).length ≤ 8*(groups.flatten.flatMap Token.code).length+groups.flatten.length+7 := by
  induction groups with
  | nil => exact Nat.zero_le _
  | cons group rest ih =>
    obtain ⟨some,-,full,others⟩ := shape
    have behind := ih others
    have positive := length_pos_iff.mpr some
    simp only [flatMap_cons,flatten_cons,flatMap_append,length_append,pack,length_cons]
    by_cases last : rest = []
    · subst last
      simp
      omega
    · have eight := full last
      omega
end Patmos.Lzss
