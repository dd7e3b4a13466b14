import Patmos.LzssStream
namespace Patmos.Lzss
open Nat BitVec

structure Decoder where
  textBuf : Nat → Byte
  writePos : Nat
  readPos : Nat
  flags : BitVec 32
  uart : List Byte

def decompressInit (textBuf : Nat → Byte) (uart : List Byte) : Decoder where
  textBuf i := if i < N-F then 0x20 else textBuf i
  writePos := N-F
  readPos := N-F
  flags := 0
  uart := uart

-- There is nothing to read behind the end of the stream.
def uartRead (d : Decoder) : Option (Byte × Decoder) :=
  match d.uart with
  | [] => none
  | c :: rest => some (c,{d with uart := rest})

def store (d : Decoder) (c : Byte) : Decoder :=
  {d with textBuf := Function.update d.textBuf d.writePos c,writePos := (d.writePos+1) &&& (N-1)}

-- The passes of the loop over k that are left.
def copyFrom : Nat → Nat → Decoder → Decoder
  | 0,_,d => d
  | left+1,k,d => copyFrom left (k+1) (store d (d.textBuf (k &&& (N-1))))

def loadFlags (d : Decoder) : Option Decoder :=
  let d := {d with flags := d.flags >>> (1 : Nat)}
  if d.flags &&& 0x100 = 0 then do
    let (c,d) ← uartRead d
    return {d with flags := c.setWidth 32 ||| 0xFF00}
  else some d

def decodeUnit (d : Decoder) : Option Decoder :=
  if d.flags &&& 1 ≠ 0 then do
    let (c,d) ← uartRead d
    return store d c
  else do
    let (i,d) ← uartRead d
    let (j,d) ← uartRead d
    let i := i.toNat ||| ((j.toNat &&& (0xff <<< lengthBits) &&& 0xff) <<< (8-lengthBits))
    let j := (j.toNat &&& ((1 <<< lengthBits)-1))+threshold
    return copyFrom (j+1) i d

def decompressGetByte (d : Decoder) : Option (Byte × Decoder) := do
  let d ← if d.readPos = d.writePos then loadFlags d >>= decodeUnit else some d
  return (d.textBuf d.readPos,{d with readPos := (d.readPos+1) &&& (N-1)})

def decompress : Nat → Decoder → Option (List Byte × Decoder)
  | 0,d => some ([],d)
  | n+1,d => do
      let (c,d) ← decompressGetByte d
      let (rest,d) ← decompress n d
      return (c :: rest,d)

section Pair
theorem high_code : ∀ position : Nat, position < 1024 →
    (position >>> (8-lengthBits)) &&& (0xff <<< lengthBits) &&& 0xff = 64*(position/256) := by decide +kernel

theorem low_code : ∀ high : Nat, high < 4 → ∀ low : Nat, low < 64 → 64*high ||| low = 64*high+low := by decide +kernel

theorem high_decode : ∀ j : Nat, j < 256 → (j &&& (0xff <<< lengthBits) &&& 0xff) <<< (8-lengthBits) = 256*(j/64) := by
  decide +kernel

theorem low_decode : ∀ j : Nat, j < 256 → j &&& ((1 <<< lengthBits)-1) = j % 64 := by decide +kernel

theorem join_decode : ∀ position : Nat, position < 1024 → position % 256 ||| 256*(position/256) = position := by decide +kernel

theorem pair_decode (inside : position < N) (long : threshold < length) (most : length ≤ F) :
    ∃ i j : Byte, (Token.pair position length).code = [i,j] ∧
      i.toNat ||| ((j.toNat &&& (0xff <<< lengthBits) &&& 0xff) <<< (8-lengthBits)) = position ∧
      (j.toNat &&& ((1 <<< lengthBits)-1))+threshold+1 = length := by
  rw [N_eq] at inside
  rw [F_eq] at most
  have two : threshold = 2 := rfl
  have high : position/256 < 4 := by omega
  have low : length-(threshold+1) < 64 := by omega
  have byte : (64*(position/256)+(length-(threshold+1))) % 2^8 = 64*(position/256)+(length-(threshold+1)) :=
    mod_eq_of_lt (by omega)
  refine ⟨_,_,rfl,?_,?_⟩
  · rw [toNat_ofNat,toNat_ofNat,high_code _ inside,low_code _ high _ low,byte,
      high_decode _ (by omega),show (64*(position/256)+(length-(threshold+1)))/64 = position/256 by omega]
    exact join_decode position inside
  · rw [toNat_ofNat,high_code _ inside,low_code _ high _ low,low_decode _ (by omega)]
    omega
end Pair

section Flags
variable {flags : BitVec 32}

theorem counter_zero : flags &&& 0x100 = 0 ↔ flags.getLsbD 8 = false := by
  rw [show (0x100 : BitVec 32) = twoPow 32 8 from rfl,and_twoPow]
  cases flags.getLsbD 8 with
  | false => exact iff_of_true rfl rfl
  | true => exact iff_of_false (by decide) Bool.noConfusion

theorem unit_zero : flags &&& 1 = 0 ↔ flags.getLsbD 0 = false := by
  rw [show (1 : BitVec 32) = twoPow 32 0 from rfl,and_twoPow]
  cases flags.getLsbD 0 with
  | false => exact iff_of_true rfl rfl
  | true => exact iff_of_false (by decide) Bool.noConfusion

-- The low bits are the flags of the units left in a group, the bits from 8 on count them.
structure Loaded (flags : BitVec 32) (now : List Token) (groups : List (List Token)) : Prop where
  letter : ∀ i (inside : i < now.length), flags.getLsbD i = now[i].isLetter
  more : ∀ i < now.length, flags.getLsbD (8+i) = true
  last : groups ≠ [] → flags.getLsbD (8+now.length) = false

theorem Loaded.next (loaded : Loaded flags (token :: now) groups) : Loaded (flags >>> (1 : Nat)) now groups where
  letter i inside := by
    rw [getLsbD_ushiftRight,add_comm]
    exact loaded.letter (i+1) (succ_lt_succ inside)
  more i inside := by
    rw [getLsbD_ushiftRight,show 1+(8+i) = 8+(i+1) by omega]
    exact loaded.more (i+1) (succ_lt_succ inside)
  last some := by
    rw [getLsbD_ushiftRight,show 1+(8+now.length) = 8+(now.length+1) by omega]
    exact loaded.last some

theorem Loaded.reload (group : List Token) (shape : Groups (group :: groups)) :
    Loaded ((Lzss.flags group).setWidth 32 ||| 0xFF00) group groups where
  letter i inside := by
    have eight : i < 8 := inside.trans_le shape.2.1
    have clear : ∀ i : Nat, i < 8 → (0xFF00#32).getLsbD i = false := by decide
    rw [getLsbD_or,getLsbD_setWidth,flags_bit _ eight,decide_eq_true (eight.trans (by decide))]
    exact (congrArg (_ || ·) (clear i eight)).trans (by simp [inside])
  more i inside := by
    have eight : i < 8 := inside.trans_le shape.2.1
    have set : ∀ i : Nat, i < 8 → (0xFF00#32).getLsbD (8+i) = true := by decide
    rw [getLsbD_or]
    exact Bool.or_eq_true_iff.mpr (.inr (set i eight))
  last some := by
    rw [shape.2.2.1 some,getLsbD_or,getLsbD_setWidth,getLsbD_of_ge _ _ (by decide)]
    rfl
end Flags

structure Feed (d : Decoder) (now : List Token) (groups : List (List Token)) : Prop where
  stream : d.uart = now.flatMap Token.code++groups.flatMap pack
  shape : Groups groups

theorem loadFlags_spec (feed : Feed d now groups) (loaded : Loaded (d.flags >>> (1 : Nat)) now groups)
    (some : now++groups.flatten ≠ []) :
    ∃ d' token now' groups', loadFlags d = .some d' ∧ Feed d' (token :: now') groups' ∧ Loaded d'.flags (token :: now') groups' ∧
      now++groups.flatten = token :: now'++groups'.flatten ∧
      d'.textBuf = d.textBuf ∧ d'.writePos = d.writePos ∧ d'.readPos = d.readPos := by
  rw [loadFlags]
  cases now with
  | cons token now =>
    have counted := loaded.more 0 (succ_pos _)
    simp only [counter_zero,counted]
    exact ⟨_,token,now,groups,rfl,⟨feed.stream,feed.shape⟩,loaded,rfl,rfl,rfl,rfl⟩
  | nil =>
    cases groups with
    | nil => exact absurd rfl some
    | cons group groups =>
      have counted : (d.flags >>> (1 : Nat)).getLsbD 8 = false := loaded.last (List.cons_ne_nil _ _)
      have stream := feed.stream
      simp only [counter_zero,counted,stream]
      have full := Loaded.reload group feed.shape
      cases group with
      | nil => exact absurd rfl feed.shape.1
      | cons token now =>
        exact ⟨_,token,now,groups,rfl,⟨rfl,feed.shape.2.2.2⟩,full,rfl,rfl,rfl,rfl⟩

structure Stored (T : Nat → Byte) (W : Nat) (d : Decoder) : Prop where
  cells : CircularBuffer.Holds N d.textBuf (fun a byte => byte = T a) (W-N) W
  writePos : d.writePos = W % N

theorem Stored.at (stored : Stored T W d) (below : a < W) (near : W ≤ a+N) : d.textBuf (a % N) = T a :=
  stored.cells a (by omega) below

theorem Stored.store (stored : Stored T W d) (told : c = T W) : Stored T (W+1) (store d c) where
  cells := by
    have size := N_pos
    show CircularBuffer.Holds N (Function.update d.textBuf d.writePos c) _ _ _
    rw [stored.writePos]
    exact (stored.cells.within (by omega) le_rfl).push (by omega) (by omega) c told
  writePos := by
    show (d.writePos+1) &&& (N-1) = _
    rw [stored.writePos,next_masked]

theorem copyFrom_frame (left k : Nat) (d : Decoder) :
    (copyFrom left k d).uart = d.uart ∧ (copyFrom left k d).flags = d.flags ∧ (copyFrom left k d).readPos = d.readPos := by
  induction left generalizing k d with
  | zero => exact ⟨rfl,rfl,rfl⟩
  | succ left ih => exact ih (k+1) _

-- The copy may run into bytes it has written itself.
theorem Stored.copyFrom (left : Nat) (stored : Stored T W d) (same : k % N = P % N) (below : P < W) (near : W < P+N)
    (alike : ∀ i < left, T (P+i) = T (W+i)) : Stored T (W+left) (copyFrom left k d) := by
  induction left generalizing k P W d with
  | zero => exact stored
  | succ left ih =>
    have byte : d.textBuf (k &&& (N-1)) = T W := by
      rw [masked,same,stored.at below near.le]
      exact alike 0 (succ_pos left)
    have later : ∀ i < left, T (P+1+i) = T (W+1+i) := by
      intro i inside
      rw [show P+1+i = P+(i+1) by omega,show W+1+i = W+(i+1) by omega]
      exact alike (i+1) (succ_lt_succ inside)
    have done := ih (stored.store byte) (P := P+1) (k := k+1) (by rw [add_mod,same,← add_mod]) (by omega) (by omega) later
    rwa [show W+1+left = W+(left+1) by omega] at done

theorem decodeUnit_spec (feed : Feed d (token :: now) groups) (loaded : Loaded d.flags (token :: now) groups)
    (stored : Stored T W d) (told : token.Says T W) :
    ∃ d', decodeUnit d = some d' ∧ Feed d' now groups ∧ Stored T (W+token.length) d' ∧ d'.flags = d.flags ∧
      d'.readPos = d.readPos := by
  have kind : d.flags.getLsbD 0 = token.isLetter := loaded.letter 0 (succ_pos _)
  have stream := feed.stream
  rw [List.flatMap_cons] at stream
  cases token with
  | letter byte =>
    have letter : d.flags &&& 1 ≠ 0 := by
      rw [Ne,unit_zero,kind]
      exact Bool.noConfusion
    have read : uartRead d = some (byte,{d with uart := now.flatMap Token.code++groups.flatMap pack}) := by
      rw [uartRead,stream]
      rfl
    rw [decodeUnit,if_pos letter,read]
    have stored' : Stored T W {d with uart := now.flatMap Token.code++groups.flatMap pack} := ⟨stored.cells,stored.writePos⟩
    exact ⟨_,rfl,⟨rfl,feed.shape⟩,stored'.store told,rfl,rfl⟩
  | pair position length =>
    have pair : ¬d.flags &&& 1 ≠ 0 := by
      rw [Ne,unit_zero,kind]
      exact fun wrong => wrong rfl
    obtain ⟨long,most,P,rfl,below,near,alike⟩ := told
    obtain ⟨i,j,code,first,second⟩ := pair_decode (mod_lt P N_pos) long most
    rw [code] at stream
    have read : uartRead d = some (i,{d with uart := j :: (now.flatMap Token.code++groups.flatMap pack)}) := by
      rw [uartRead,stream]
      rfl
    have stored' : Stored T W {d with uart := now.flatMap Token.code++groups.flatMap pack} := ⟨stored.cells,stored.writePos⟩
    rw [decodeUnit,if_neg pair,read]
    simp only [Option.bind_eq_bind,Option.bind_some,uartRead]
    rw [first,second]
    obtain ⟨uart,flags,readPos⟩ := copyFrom_frame length (P % N) {d with uart := now.flatMap Token.code++groups.flatMap pack}
    exact ⟨_,rfl,⟨uart,feed.shape⟩,stored'.copyFrom length (mod_mod P N) below (by omega) alike,flags,readPos⟩

-- The text up to R has been returned, the text up to W is decoded.
structure Decoding (T : Nat → Byte) (R W E : Nat) (d : Decoder) (now : List Token) (groups : List (List Token)) : Prop where
  feed : Feed d now groups
  loaded : Loaded (d.flags >>> (1 : Nat)) now groups
  stored : Stored T W d
  readPos : d.readPos = R % N
  behind : R ≤ W
  near : W < R+N
  covers : Covers T W (now++groups.flatten) E

theorem Decoding.read (decoding : Decoding T R W E d now groups) (ready : R < W) :
    d.textBuf d.readPos = T R ∧ Decoding T (R+1) W E {d with readPos := (d.readPos+1) &&& (N-1)} now groups := by
  refine ⟨?_,⟨decoding.feed.stream,decoding.feed.shape⟩,decoding.loaded,⟨decoding.stored.cells,decoding.stored.writePos⟩,?_,
    ready,by have := decoding.near; omega,decoding.covers⟩
  · rw [decoding.readPos]
    exact decoding.stored.at ready decoding.near.le
  · rw [decoding.readPos,next_masked]

theorem Decoding.refill (decoding : Decoding T R R E d now groups) (more : R < E) :
    ∃ W d' now' groups', (loadFlags d >>= decodeUnit) = some d' ∧ R < W ∧ Decoding T R W E d' now' groups' := by
  have some : now++groups.flatten ≠ [] := by
    intro none
    have covers := decoding.covers
    rw [none] at covers
    exact Nat.ne_of_lt more covers
  obtain ⟨d1,token,rest,later,fetched,feed,loaded,same,textBuf,writePos,readPos⟩ :=
    loadFlags_spec decoding.feed decoding.loaded some
  have covers := decoding.covers
  rw [same] at covers
  have stored : Stored T R d1 := ⟨textBuf ▸ decoding.stored.cells,writePos.trans decoding.stored.writePos⟩
  obtain ⟨d2,decoded,feed2,stored2,flags,kept⟩ := decodeUnit_spec feed loaded stored covers.1
  have positive := Token.Says.positive covers.1
  have short : token.length < N := by
    have size := N_eq
    have most := F_eq
    cases token with
    | letter byte =>
      show 1 < N
      omega
    | pair position length =>
      have bound := covers.1.2.1
      show length < N
      omega
  refine ⟨R+token.length,d2,rest,later,by rw [fetched]; exact decoded,Nat.lt_add_of_pos_right positive,feed2,?_,stored2,?_,
    Nat.le_add_right _ _,Nat.add_lt_add_left short R,covers.2⟩
  · rw [flags]
    exact loaded.next
  · rw [kept,readPos,decoding.readPos]

theorem Decoding.step (decoding : Decoding T R W E d now groups) (more : R < E) :
    ∃ W' d' now' groups', decompressGetByte d = some (T R,d') ∧ Decoding T (R+1) W' E d' now' groups' := by
  rw [decompressGetByte]
  by_cases ready : R < W
  · have apart : d.readPos ≠ d.writePos := by
      rw [decoding.readPos,decoding.stored.writePos]
      exact CircularBuffer.position_ne ready decoding.near
    obtain ⟨byte,next⟩ := decoding.read ready
    simp only [if_neg apart,Option.bind_eq_bind,Option.bind_some,byte]
    exact ⟨_,_,_,_,rfl,next⟩
  · have equal : W = R := Nat.le_antisymm (Nat.le_of_not_lt ready) decoding.behind
    subst equal
    obtain ⟨W',d1,now',groups',filled,ready',decoding'⟩ := decoding.refill more
    obtain ⟨byte,next⟩ := decoding'.read ready'
    rw [if_pos (by rw [decoding.readPos,decoding.stored.writePos]),filled]
    simp only [Option.bind_eq_bind,Option.bind_some,byte]
    exact ⟨_,_,_,_,rfl,next⟩

theorem Decoding.run (count : Nat) (decoding : Decoding T R W E d now groups) (inside : R+count ≤ E) :
    ∃ W' d' now' groups', decompress count d = some ((List.range count).map (fun i => T (R+i)),d') ∧
      Decoding T (R+count) W' E d' now' groups' := by
  induction count generalizing R W d now groups with
  | zero => exact ⟨W,d,now,groups,rfl,decoding⟩
  | succ count ih =>
    obtain ⟨W1,d1,now1,groups1,byte,decoding1⟩ := decoding.step (by omega)
    obtain ⟨W',d',now',groups',rest,decoding'⟩ := ih decoding1 (by omega)
    refine ⟨W',d',now',groups',?_,?_⟩
    · simp only [decompress,byte,rest,Option.bind_eq_bind,Option.bind_some,List.range_succ_eq_map,List.map_cons,List.map_map]
      congr 4
      funext i
      congr 1
      omega
    · rwa [show R+1+count = R+(count+1) by omega] at decoding'

theorem Decoding.ends (decoding : Decoding T E W E d now groups) : d.uart = [] := by
  have equal : W = E := decoding.covers.le.antisymm decoding.behind
  subst equal
  have nothing := decoding.covers.ends
  have stream := decoding.feed.stream
  have shape := decoding.feed.shape
  obtain ⟨rfl,flat⟩ := List.append_eq_nil_iff.mp nothing
  cases groups with
  | nil => exact stream
  | cons group rest => exact absurd (List.append_eq_nil_iff.mp flat).1 shape.1

theorem decompressInit_decoding (textBuf : Nat → Byte) (blank : ∀ a < N-F, T a = 0x20) (shape : Groups groups)
    (covers : Covers T (N-F) groups.flatten E) :
    Decoding T (N-F) (N-F) E (decompressInit textBuf (groups.flatMap pack)) [] groups where
  feed := ⟨rfl,shape⟩
  loaded := {
    letter := fun i inside => absurd inside (not_lt_zero i)
    more := fun i inside => absurd inside (not_lt_zero i)
    last := fun _ => by
      show ((0 : BitVec 32) >>> (1 : Nat)).getLsbD 8 = false
      decide }
  stored := {
    cells := fun a _ below => by
      have inside : a % N = a := mod_eq_of_lt (by omega)
      show (if a % N < N-F then (0x20 : Byte) else textBuf (a % N)) = T a
      rw [inside,if_pos below,blank a below]
    writePos := by
      have size := N_eq
      have short := F_eq
      show N-F = (N-F) % N
      exact (mod_eq_of_lt (by omega)).symm }
  readPos := by
    have size := N_eq
    have short := F_eq
    show N-F = (N-F) % N
    exact (mod_eq_of_lt (by omega)).symm
  behind := le_rfl
  near := Nat.lt_add_of_pos_right N_pos
  covers := covers

theorem lzss_round_trip (x : List Byte) (textBuf : Nat → Byte) :
    ∃ stream, compress x = some stream ∧
      ∃ d, decompress x.length (decompressInit textBuf stream) = some (x,d) ∧ d.uart = [] := by
  obtain ⟨groups,compressed,shape,covers⟩ := compress_spec x
  refine ⟨_,compressed,?_⟩
  have start := decompressInit_decoding (T := text x) textBuf (fun a below => if_pos below) shape covers
  obtain ⟨W,d,now,later,decoded,decoding⟩ := start.run x.length le_rfl
  refine ⟨d,?_,decoding.ends⟩
  rw [decoded]
  congr 2
  apply List.ext_getElem
  · rw [List.length_map,List.length_range]
  · intro i left right
    rw [List.getElem_map,List.getElem_range,text_getElem x right]
end Patmos.Lzss
