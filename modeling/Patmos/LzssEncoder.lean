import Patmos.CircularBuffer
import Patmos.LzssFormat
namespace Patmos.Lzss
open PointerForest Function Nat

structure Encoder where
  textBuf : Nat → Byte
  search : Search
  lastMatchLength : Nat
  codeBufPtr : Nat
  codeBuf : Nat → Byte
  codeMask : Byte
  currLen : Nat
  currPos : Nat
  killPos : Nat
  writeCount : Nat
  out : List Byte

-- Fresh Java arrays hold zeros.
def initTree : Links where
  lchild _ := 0
  rchild i := if N+1 ≤ i ∧ i ≤ N+256 then NIL else 0
  parent i := if i < N then NIL else 0

def compressionOutputStream : Encoder where
  textBuf i := if i < N-F then 0x20 else 0
  search := ⟨initTree,0,0⟩
  lastMatchLength := 0
  codeBufPtr := 1
  codeBuf _ := 0
  codeMask := 1
  currLen := 0
  currPos := N-F
  killPos := 0
  writeCount := 0
  out := []

def putText (textBuf : Nat → Byte) (i : Nat) (b : Byte) : Option (Nat → Byte) :=
  if i < N+F-1 then some (update textBuf i b) else none

-- Near the beginning the byte is stored behind the end as well.
def putRing (textBuf : Nat → Byte) (killPos : Nat) (b : Byte) : Option (Nat → Byte) := do
  let textBuf ← putText textBuf killPos b
  if killPos < F-1 then putText textBuf (killPos+N) b else return textBuf

def putCode (codeBuf : Nat → Byte) (i : Nat) (b : Byte) : Option (Nat → Byte) :=
  if i < 17 then some (update codeBuf i b) else none

def flushBuffer (e : Encoder) : Encoder :=
  if 1 < e.codeBufPtr then
    {e with
      out := e.out++(List.range e.codeBufPtr).map e.codeBuf
      codeBuf := update e.codeBuf 0 0
      codeBufPtr := 1
      codeMask := 1}
  else e

def putUnit (e : Encoder) : Option Encoder :=
  if e.search.matchLength ≤ threshold then do
    let codeBuf := update e.codeBuf 0 (e.codeBuf 0 ||| e.codeMask)
    let codeBuf ← putCode codeBuf e.codeBufPtr (← textAt e.textBuf e.currPos)
    return {e with search.matchLength := 1,codeBuf := codeBuf,codeBufPtr := e.codeBufPtr+1}
  else do
    let codeBuf ← putCode e.codeBuf e.codeBufPtr (BitVec.ofNat 8 e.search.matchPosition)
    let codeBuf ← putCode codeBuf (e.codeBufPtr+1)
      (BitVec.ofNat 8 (((e.search.matchPosition >>> (8-lengthBits)) &&& (0xff <<< lengthBits) &&& 0xff) |||
        (e.search.matchLength-(threshold+1))))
    return {e with codeBuf := codeBuf,codeBufPtr := e.codeBufPtr+2}

def encode (e : Encoder) : Option Encoder :=
  if e.currLen = 0 then some e
  else do
    let e ← putUnit
      (if e.currLen < e.search.matchLength then {e with search.matchLength := e.currLen} else e)
    let e := {e with codeMask := e.codeMask <<< (1 : Nat)}
    let e := if e.codeMask = 0 then flushBuffer e else e
    return {e with lastMatchLength := e.search.matchLength}

-- The passes of the loop over i that are left.
def insertBefore (textBuf : Nat → Byte) (currPos : Nat) : Nat → Nat → Search → Option Search
  | 0,_,s => some s
  | left+1,i,s => do
      if i ≤ currPos then insertBefore textBuf currPos left (i+1) (← insertNode textBuf (currPos-i) s) else none

def write (e : Encoder) (b : Byte) : Option Encoder :=
  if e.currLen < F then do
    let textBuf ← putText e.textBuf (e.currPos+e.currLen) b
    let e := {e with textBuf := textBuf,currLen := e.currLen+1}
    if e.currLen = F then
      let s ← insertBefore e.textBuf e.currPos F 1 e.search
      let s ← insertNode e.textBuf e.currPos s
      encode {e with search := s}
    else return e
  else do
    let t ← deleteNode e.search.tree e.killPos
    let textBuf ← putRing e.textBuf e.killPos b
    let currPos := (e.currPos+1) &&& (N-1)
    let s ← insertNode textBuf currPos {e.search with tree := t}
    let e := {e with
      textBuf := textBuf
      search := s
      killPos := (e.killPos+1) &&& (N-1)
      currPos := currPos
      writeCount := e.writeCount+1}
    if e.writeCount = e.lastMatchLength then
      return {← encode e with writeCount := 0}
    else return e

-- The counter currLen is an int: a pass that would make it negative has no result here.
def skip (e : Encoder) : Option Encoder := do
  let t ← deleteNode e.search.tree e.killPos
  let currPos := (e.currPos+1) &&& (N-1)
  if e.currLen = 0 then none
  else
    let s ← if 0 < e.currLen-1 then insertNode e.textBuf currPos {e.search with tree := t}
      else some {e.search with tree := t}
    return {e with
      search := s
      killPos := (e.killPos+1) &&& (N-1)
      currPos := currPos
      currLen := e.currLen-1
      writeCount := e.writeCount+1}

def skipLoop : Nat → Encoder → Option Encoder
  | 0,_ => none
  | fuel+1,e =>
    if e.writeCount < e.lastMatchLength then do skipLoop fuel (← skip e)
    else some {e with writeCount := e.writeCount+1}

def finishLoop : Nat → Encoder → Option Encoder
  | 0,_ => none
  | fuel+1,e =>
    if 0 < e.currLen then do
      let e ← skipLoop (e.lastMatchLength+1) e
      finishLoop fuel {← encode e with writeCount := 0}
    else some e

-- The first pass may find nothing to skip, every other one shortens what is left.
def finish (e : Encoder) : Option Encoder := do
  return flushBuffer (← finishLoop (e.currLen+2) e)

def compress (x : List Byte) : Option (List Byte) := do
  return (← finish (← x.foldlM write compressionOutputStream)).out

theorem N_pos : 0 < N := by
  rw [N_eq]
  decide

theorem masked (n : Nat) : n &&& (N-1) = n % N := by
  rw [N_eq]
  exact and_two_pow_sub_one_eq_mod n 10

theorem next_masked (n : Nat) : (n % N+1) &&& (N-1) = (n+1) % N := by
  rw [masked,mod_add_mod]

-- The text up to hi, as far as it is still in the buffer. The first cells are repeated behind the end.
structure Ring (T textBuf : Nat → Byte) (hi : Nat) : Prop where
  cells : CircularBuffer.Holds N textBuf (fun a byte => byte = T a) (hi-N) hi
  mirror : ∀ a, N ≤ a → a < hi → hi ≤ a+N → a % N < F-1 → textBuf (N+a % N) = T a

section Ring
variable {T textBuf textBuf' : Nat → Byte}

theorem Ring.write (ring : Ring T textBuf hi) (own : textBuf' (hi % N) = T hi)
    (copy : N ≤ hi → hi % N < F-1 → textBuf' (N+hi % N) = T hi)
    (others : ∀ i, i ≠ hi % N → i ≠ N+hi % N → textBuf' i = textBuf i) : Ring T textBuf' (hi+1) := by
  have inside : ∀ a, a % N < N := fun a => mod_lt a N_pos
  have elsewhere {a : Nat} (below : a < hi) (near : hi+1 ≤ a+N) := CircularBuffer.position_ne below near
  constructor
  · intro a low below
    rcases Nat.lt_succ_iff_lt_or_eq.mp below with old | rfl
    · rw [others _ (elsewhere old (by omega)) (by have := inside a; omega)]
      exact ring.cells a (by omega) old
    · exact own
  · intro a lapped below near small
    rcases Nat.lt_succ_iff_lt_or_eq.mp below with old | rfl
    · rw [others _ (by have := inside hi; omega) (by have := elsewhere old near; omega)]
      exact ring.mirror a lapped old (by omega) small
    · exact copy lapped small

theorem Ring.string (ring : Ring T textBuf hi) (below : P+i < hi) (near : hi ≤ P+N) (short : i < F) :
    textBuf (P % N+i) = T (P+i) := by
  have inside := mod_lt P N_pos
  by_cases straight : P % N+i < N
  · have same : (P+i) % N = P % N+i := by
      rw [← mod_add_mod,mod_eq_of_lt straight]
    rw [← same]
    exact ring.cells (P+i) (by omega) below
  · have same : (P+i) % N = P % N+i-N := by
      rw [← Nat.mod_add_mod,Nat.mod_eq_sub_mod (Nat.le_of_not_lt straight),Nat.mod_eq_of_lt (by omega)]
    have lapped : N ≤ P+i := Nat.le_trans (Nat.le_of_not_lt straight) (Nat.add_le_add_right (Nat.mod_le P N) i)
    have found := ring.mirror (P+i) lapped below (by omega) (by omega)
    rwa [same,show N+(P % N+i-N) = P % N+i by omega] at found
end Ring

-- The trees hold strings of the window that ends at A. The string at A itself is in when B = A+1.
structure Window (T : Nat → Byte) (hi A B : Nat) (textBuf : Nat → Byte) (t : Links) : Prop where
  ring : Ring T textBuf hi
  trees : Trees textBuf t
  live : ∀ p, t.Live N p → ∃ P, p = P % N ∧ A+F ≤ P+N ∧ P < B
  ahead : hi ≤ A+F

-- What the last search says about the text at A.
def Match (T : Nat → Byte) (hi A position length : Nat) : Prop :=
  length ≤ F ∧ (0 < length → ∃ P, position = P % N ∧ P < A ∧ A+F ≤ P+N ∧ ∀ i < length, A+i < hi → T (P+i) = T (A+i))

section Window
variable {T textBuf textBuf' : Nat → Byte} {t : Links}

theorem Window.unused (window : Window T hi A A textBuf t) : ¬t.Live N (A % N) := by
  intro live
  obtain ⟨P,same,near,below⟩ := window.live _ live
  have size := F_eq
  exact CircularBuffer.position_ne below (by omega) same.symm

theorem Window.matched (window : Window T hi A A textBuf t) (found : Found textBuf t (A % N) position length) :
    Match T hi A position length := by
  refine ⟨found.1,fun some => ?_⟩
  obtain ⟨live,alike⟩ := found.2 some
  obtain ⟨P,rfl,near,below⟩ := window.live _ live
  refine ⟨P,rfl,below,near,fun i inside text => ?_⟩
  have ahead := window.ahead
  have short := inside.trans_le found.1
  rw [← window.ring.string (by omega) (by omega) short,← window.ring.string text (by omega) short]
  exact alike i inside

theorem Window.insert (window : Window T hi A A textBuf t) (position length : Nat) :
    ∃ s, insertNode textBuf (A % N) ⟨t,position,length⟩ = some s ∧ Window T hi A (A+1) textBuf s.tree ∧
      Match T hi A s.matchPosition s.matchLength := by
  obtain ⟨s,inserted,facts⟩ :=
    insertNode_spec window.trees window.unused (mod_lt A N_pos) position length
  refine ⟨s,inserted,⟨window.ring,facts.trees,fun p live => ?_,window.ahead⟩,window.matched facts.found⟩
  rcases facts.live p live with old | rfl
  · obtain ⟨P,same,near,below⟩ := window.live p old
    exact ⟨P,same,near,lt_succ_of_lt below⟩
  · have size := N_eq
    have short := F_eq
    exact ⟨A,rfl,by omega,lt_succ_self A⟩

theorem Window.delete (window : Window T hi A (A+1) textBuf t) :
    ∃ t', deleteNode t ((A+F) % N) = some t' ∧ Window T hi (A+1) (A+1) textBuf t' ∧ ¬t'.Live N ((A+F) % N) := by
  obtain ⟨t',deleted,trees,lives⟩ := deleteNode_spec window.trees (mod_lt (A+F) N_pos)
  refine ⟨t',deleted,⟨window.ring,trees,fun p live => ?_,?_⟩,fun live => ((lives _).mp live).2 rfl⟩
  · obtain ⟨old,other⟩ := (lives p).mp live
    obtain ⟨P,rfl,near,below⟩ := window.live p old
    refine ⟨P,rfl,?_,below⟩
    by_contra last
    have oldest : A+F = P+N := by omega
    rw [oldest,add_mod_right] at other
    exact other rfl
  · exact window.ahead.trans (by omega)

theorem Window.write (window : Window T hi A B textBuf t) (room : hi < A+F) (own : textBuf' (hi % N) = T hi)
    (copy : N ≤ hi → hi % N < F-1 → textBuf' (N+hi % N) = T hi)
    (others : ∀ i, i ≠ hi % N → i ≠ N+hi % N → textBuf' i = textBuf i) (dead : ¬t.Live N (hi % N)) :
    Window T (hi+1) A B textBuf' t where
  ring := window.ring.write own copy others
  trees := window.trees.write fun p live => others p (by rintro rfl; exact dead live) (by have := live.1; omega)
  live := window.live
  ahead := room
end Window

section Code
variable {T codeBuf : Nat → Byte} {e : Encoder}

theorem range_put (filled : (List.range ptr).map codeBuf = bytes) (b : Byte) :
    (List.range (ptr+1)).map (update codeBuf ptr b) = bytes++[b] := by
  rw [List.range_succ,List.map_append,List.map_singleton,update_self,← filled]
  congr 1
  apply List.map_congr_left
  intro i member
  exact update_of_ne (Nat.ne_of_lt (List.mem_range.mp member)) _ _

theorem range_head (filled : (List.range ptr).map codeBuf = first :: bytes) (b : Byte) :
    codeBuf 0 = first ∧ (List.range ptr).map (update codeBuf 0 b) = b :: bytes := by
  cases ptr with
  | zero => cases filled
  | succ ptr =>
    rw [List.range_succ_eq_map,List.map_cons,List.cons.injEq] at filled
    refine ⟨filled.1,?_⟩
    rw [List.range_succ_eq_map,List.map_cons,← filled.2,List.map_map,List.map_map]
    congr 1

theorem pack_length_le (group : List Token) : (pack group).length ≤ 1+2*group.length := by
  induction group with
  | nil => exact le_refl 1
  | cons token rest ih =>
    have two : token.code.length ≤ 2 := by cases token <;> simp [Token.code]
    simp only [pack,List.length_cons,List.flatMap_cons,List.length_append] at ih ⊢
    omega

def Filled (codeBuf : Nat → Byte) (ptr : Nat) (group : List Token) : Prop :=
  (List.range ptr).map codeBuf = pack group

theorem Filled.room (filled : Filled codeBuf ptr group) (short : group.length < 8) : ptr+1 < 17 := by
  have length := congrArg List.length filled
  have bound := pack_length_le group
  rw [List.length_map,List.length_range] at length
  omega

def unit (e : Encoder) : Token :=
  if e.search.matchLength ≤ threshold then .letter (e.textBuf e.currPos)
  else .pair e.search.matchPosition e.search.matchLength

theorem putUnit_spec (filled : Filled e.codeBuf e.codeBufPtr group) (short : group.length < 8)
    (mask : e.codeMask = 1#8 <<< group.length) (inside : e.currPos < N) :
    ∃ codeBuf ptr, putUnit e = some {e with search.matchLength := (unit e).length,codeBuf := codeBuf,codeBufPtr := ptr} ∧
      Filled codeBuf ptr (group++[unit e]) := by
  have room := filled.room short
  have first : e.codeBufPtr < 17 := by omega
  by_cases literal : e.search.matchLength ≤ threshold
  · have byte : textAt e.textBuf e.currPos = some (e.textBuf e.currPos) :=
      textAt_eq inside (Nat.pos_of_ne_zero (by rw [F_eq]; decide))
    simp only [putUnit,unit,literal,byte,putCode,first]
    refine ⟨_,_,rfl,?_⟩
    obtain ⟨old,new⟩ := range_head filled (e.codeBuf 0 ||| e.codeMask)
    refine (range_put new _).trans ?_
    rw [old,mask,pack_snoc,flags_snoc]
    rfl
  · simp only [putUnit,unit,literal,putCode,first,room]
    refine ⟨_,_,rfl,?_⟩
    refine (range_put (range_put filled _) _).trans ?_
    rw [pack_snoc,flags_snoc]
    simp [pack,Token.isLetter,Token.code]

def Coded (T codeBuf : Nat → Byte) (ptr : Nat) (mask : Byte) (out : List Byte) (covered : Nat) : Prop :=
  ∃ (done : List (List Token)) (group : List Token), out = done.flatMap pack ∧ (∀ full ∈ done, full.length = 8) ∧
    group.length < 8 ∧ Filled codeBuf ptr group ∧ mask = 1#8 <<< group.length ∧
    Covers T (N-F) (done.flatten++group) covered

theorem mask_empty : ∀ k : Nat, k < 8 → ((1#8 <<< k) <<< (1 : Nat) = 0 ↔ k = 7) := by decide

theorem mask_next : ∀ k : Nat, k < 8 → (1#8 <<< k) <<< (1 : Nat) = 1#8 <<< (k+1) := by decide

theorem Filled.one_lt (filled : Filled codeBuf ptr (group++[token])) : 1 < ptr := by
  have length := congrArg List.length filled
  rw [List.length_map,List.length_range,pack_snoc] at length
  have some : 0 < token.code.length := by cases token <;> exact succ_pos _
  simp only [List.length_cons,List.length_append] at length
  omega

theorem unit_coded (coded : Coded T e.codeBuf e.codeBufPtr e.codeMask e.out A) (inside : e.currPos < N)
    (told : (unit e).Says T A) :
    ∃ codeBuf ptr mask out, (do
        let e ← putUnit e
        let e := {e with codeMask := e.codeMask <<< (1 : Nat)}
        let e := if e.codeMask = 0 then flushBuffer e else e
        return {e with lastMatchLength := e.search.matchLength} : Option Encoder) =
      some {e with
        search.matchLength := (unit e).length,lastMatchLength := (unit e).length,codeBuf := codeBuf,codeBufPtr := ptr
        codeMask := mask,out := out} ∧
      Coded T codeBuf ptr mask out (A+(unit e).length) := by
  obtain ⟨done,group,sent,full,short,filled,mask,covers⟩ := coded
  obtain ⟨codeBuf,ptr,put,filled⟩ := putUnit_spec filled short mask inside
  have longer := covers.snoc told
  rw [put]
  simp only [Option.bind_eq_bind,Option.bind_some,mask,mask_empty _ short]
  by_cases last : group.length = 7
  · rw [if_pos last]
    simp only [flushBuffer,filled.one_lt]
    refine ⟨_,_,_,_,rfl,done++[group++[unit e]],[],?_,?_,by decide,rfl,rfl,?_⟩
    · rw [sent,filled]
      simp
    · intro other member
      rcases List.mem_append.mp member with old | new
      · exact full other old
      · rw [List.mem_singleton.mp new,List.length_append,last]
        rfl
    · simpa using longer
  · rw [if_neg last]
    refine ⟨_,_,_,_,rfl,done,group++[unit e],sent,full,?_,filled,?_,?_⟩
    · rw [List.length_append,List.length_singleton]
      omega
    · rw [List.length_append]
      exact mask_next _ short
    · rwa [← List.append_assoc]

theorem encode_spec (coded : Coded T e.codeBuf e.codeBufPtr e.codeMask e.out A) (some : 0 < e.currLen)
    (place : e.currPos = A % N) (ring : Ring T e.textBuf (A+e.currLen)) (near : e.currLen ≤ F)
    (found : Match T (A+e.currLen) A e.search.matchPosition e.search.matchLength) :
    ∃ m codeBuf ptr mask out, encode e =
      .some {e with
        search.matchLength := m,lastMatchLength := m,codeBuf := codeBuf,codeBufPtr := ptr,codeMask := mask,out := out} ∧
      0 < m ∧ m ≤ e.currLen ∧ Coded T codeBuf ptr mask out (A+m) := by
  have inside : e.currPos < N := place ▸ mod_lt A N_pos
  have here : e.textBuf e.currPos = T A := by
    have size := N_eq
    have short := F_eq
    have byte := ring.string (P := A) (i := 0) (by omega) (by omega) (by omega)
    rwa [← place] at byte
  -- A match is cut at the end of the text.
  have clipped : ∀ e' : Encoder, e' = (if e.currLen < e.search.matchLength then {e with search.matchLength := e.currLen} else e) →
      e'.search.matchLength ≤ e.currLen ∧ e'.search.matchLength ≤ e.search.matchLength ∧
        e' = {e with search.matchLength := e'.search.matchLength} := by
    rintro e' rfl
    split
    case isTrue long => exact ⟨le_rfl,long.le,rfl⟩
    case isFalse fits => exact ⟨Nat.le_of_not_lt fits,le_rfl,rfl⟩
  rw [encode,if_neg some.ne']
  obtain ⟨fits,less,form⟩ := clipped _ rfl
  generalize (if e.currLen < e.search.matchLength then {e with search.matchLength := e.currLen} else e) = e' at fits less form
  generalize e'.search.matchLength = m at fits less form
  subst form
  have told : (unit {e with search.matchLength := m}).Says T A ∧ (unit {e with search.matchLength := m}).length ≤ e.currLen := by
    unfold unit
    split
    case isTrue => exact ⟨here,some⟩
    case isFalse long =>
      obtain ⟨P,same,below,close,alike⟩ := found.2 (Nat.lt_of_lt_of_le (Nat.zero_lt_of_lt (Nat.lt_of_not_le long)) less)
      exact ⟨⟨Nat.lt_of_not_le long,fits.trans near,P,same,below,close,
        fun k inside => alike k (inside.trans_le less) (Nat.add_lt_add_left (inside.trans_le fits) A)⟩,fits⟩
  obtain ⟨codeBuf,ptr,mask,out,done,coded'⟩ := @unit_coded _ {e with search.matchLength := m} _ coded inside told.1
  exact ⟨_,codeBuf,ptr,mask,out,done,told.1.positive,told.2,coded'⟩
end Code
end Patmos.Lzss
