import Mathlib.Data.BitVec
import Mathlib.Data.List.Range
namespace Patmos.Fat
open List

inductive Access where
  | buffer (offset : Nat)
  | longName16 (index : Nat)
  | longName8 (index : Nat)

-- FAT_MAX_LONG_NAME is 255.
def Access.Inside : Access → Prop
  | .buffer offset => offset < 512
  | .longName16 index | .longName8 index => index < 255

instance : DecidablePred Access.Inside
  | .buffer _ | .longName16 _ | .longName8 _ => inferInstanceAs (Decidable (_ < _))

-- The bytes of each sector of the cluster, and whether it can be read.
structure Cluster where
  sectorsPerCluster : Nat
  sector : Nat → Nat → BitVec 8
  readable : Nat → Bool

-- The position is that of idx on return.
structure Outcome where
  success : Bool
  sector : Nat
  index : Nat
  accesses : List Access

def Outcome.after (accesses : List Access) (o : Outcome) : Outcome := {o with accesses := accesses ++ o.accesses}

def chunk (edx pmin count : Nat) : List Access :=
  (range count).flatMap fun i => [.buffer (edx+2*i),.longName16 ((pmin+i)%2^32)]

section
variable (d : Cluster)

-- The attribute byte, the characters of the name and the ordinal byte of an entry.
def entry (index pmin : Nat) : List Access :=
  .buffer (32*index+11) :: chunk (32*index+1) pmin 5 ++ chunk (32*index+14) (pmin+5) 6 ++
    chunk (32*index+28) (pmin+11) 2 ++ [.buffer (32*index)]

def first (sector index : Nat) : BitVec 8 := d.sector sector (32*index)
def attrib (sector index : Nat) : BitVec 8 := d.sector sector (32*index+11)

def lastEntry (sector index : Nat) : Bool :=
  (if first d sector index &&& 0x40 ≠ 0 then first d sector index ^^^ 0x40 else first d sector index) = 1

-- The cap of the name is written behind the last entry.
def touched (pmax sector index pmin : Nat) : List Access :=
  entry index pmin ++ if lastEntry d sector index then [.longName16 (min 255 pmax)] else []

-- Whether the cluster goes on and its next sector can be read, and idx then.
def increment (sector index : Nat) : Bool × Nat × Nat :=
  if index+1 < 16 then (true,sector,index+1)
  else if d.sectorsPerCluster-1 ≤ sector then (false,sector,index+1)
  else (d.readable (sector+1),sector+1,0)

-- Both loops, one entry for each unit of fuel. As c is 13 at the end of the outer one, only success ends it.
def collect (pmax : Nat) : Nat → Nat → Nat → Nat → Option Outcome
  | 0,_,_,_ => none
  | fuel+1,sector,index,pmin =>
    if attrib d sector index ≠ 0x0F then some ⟨false,sector,index,[.buffer (32*index+11)]⟩
    else
      let pmin := (pmin+2^32-13)%2^32
      let accesses := touched d pmax sector index pmin
      let next := increment d sector index
      if !next.1 || lastEntry d sector index then some ⟨next.1,next.2.1,next.2.2,accesses⟩
      else (collect pmax fuel next.2.1 next.2.2 pmin).map (.after accesses)

def empty (sector index : Nat) : Prop := first d sector index = 0xE5 ∨ first d sector index = 0
def hasLongName (sector index : Nat) : Prop := attrib d sector index = 0x0F ∧ first d sector index &&& 0x40 ≠ 0

instance : Decidable (empty d sector index) := inferInstanceAs (Decidable (_ ∨ _))
instance : Decidable (hasLongName d sector index) := inferInstanceAs (Decidable (_ ∧ _))

def order (sector index : Nat) : Nat := (first d sector index ^^^ 0x40).toNat

def fatGetLongNameUint16 (sector index : Nat) : Option Outcome :=
  let checks := [.buffer (32*index),.buffer (32*index+11)]
  if empty d sector index then some ⟨false,sector,index,[.buffer (32*index)]⟩
  else if ¬hasLongName d sector index then some ⟨false,sector,index,checks⟩
  else (collect d (13*order d sector index) (16*d.sectorsPerCluster) sector index (13*order d sector index)).map (.after checks)

def length (sector offset count : Nat) : Nat :=
  ((range count).takeWhile fun i => d.sector sector (offset+i) ≠ 0x20).length

-- The characters of the short name without the blanks.
def shortLength (sector index : Nat) : Nat :=
  length d sector (32*index) 8 +
    if d.sector sector (32*index+8) ≠ 0x20 then 1+length d sector (32*index+8) 3 else 0

def fatGetLongNameUint8 (sector index : Nat) : Option Outcome :=
  let checks := [.buffer (32*index),.buffer (32*index+11)]
  if empty d sector index then some ⟨false,sector,index,[.buffer (32*index)]⟩
  else if hasLongName d sector index then
    (fatGetLongNameUint16 d sector index).map fun o => .after checks {o with
      accesses := o.accesses ++ if o.success then (range 256).flatMap fun i => [.longName16 i,.longName8 i] else []}
  else some ⟨true,sector,index,checks ++ (range 11).map (.buffer <| 32*index + ·) ++
    (range (shortLength d sector index+1)).map .longName8⟩

-- The chain is over behind at most n of 19 entries, with the whole name only if that is allowed.
def Ends (whole : Prop) : Nat → Nat → Nat → Prop
  | 0,sector,index => attrib d sector index ≠ 0x0F
  | n+1,sector,index => attrib d sector index ≠ 0x0F ∨ n < 19 ∧ ((increment d sector index).1 = true →
      if lastEntry d sector index then whole
      else Ends whole n (increment d sector index).2.1 (increment d sector index).2.2)

def Tame (whole : Prop) (sector index : Nat) : Prop :=
  ¬empty d sector index → hasLongName d sector index → Ends d whole (order d sector index) sector index

def Safe : Option Outcome → Prop
  | none => False
  | some o => ∀ a ∈ o.accesses,a.Inside

instance : DecidablePred Safe
  | none => inferInstanceAs (Decidable False)
  | some o => inferInstanceAs (Decidable (∀ a ∈ o.accesses,a.Inside))
end

section
variable {d : Cluster}

theorem chunk_inside :
    (∀ a ∈ chunk edx pmin n,a.Inside) ↔ ∀ i < n,edx+2*i < 512 ∧ (pmin+i)%2^32 < 255 := by
  simp only [chunk,forall_mem_flatMap,mem_range,forall_mem_cons,Access.Inside,not_mem_nil,false_implies,implies_true,and_true]

theorem entry_inside (inside : index < 16) (high : pmin+12 < 2^32) : (∀ a ∈ entry index pmin,a.Inside) ↔ pmin+13 ≤ 255 := by
  simp only [entry,cons_append,forall_mem_cons,forall_mem_append,chunk_inside]
  simp only [Access.Inside]
  constructor
  · rintro ⟨-,⟨-,chars⟩,-⟩
    have last := (chars 1 (by decide)).2
    omega
  · intro low
    refine ⟨?_,⟨⟨fun i few => ?_,fun i few => ?_⟩,fun i few => ?_⟩,?_,nofun⟩ <;> omega

-- An ordinal of 0 counts down to the end of the 32 bits.
theorem touched_inside (short : n ≤ 19 → pmax < 255) (small : n < 2^8) (inside : index < 16) :
    (∀ a ∈ touched d pmax sector index ((13*n+2^32-13)%2^32),a.Inside) ↔ 0 < n ∧ n ≤ 19 := by
  have back : (13*n+2^32-13)%2^32 = if n = 0 then 2^32-13 else 13*n-13 := by split <;> omega
  rw [touched,forall_mem_append,back,entry_inside inside (by split <;> omega)]
  constructor
  · rintro ⟨low,-⟩
    split at low <;> omega
  · intro few
    refine ⟨by rw [if_neg few.1.ne']; omega,?_⟩
    split
    · exact forall_mem_singleton.mpr (show min 255 pmax < 255 by omega)
    · exact nofun

def Ending (whole : Prop) (r : Option Outcome) : Prop := Safe r ∧ ∀ o ∈ r,o.success = true → whole

theorem ending_some : Ending whole (some ⟨success,sector,index,accesses⟩) ↔
    (∀ a ∈ accesses,a.Inside) ∧ (success = true → whole) := by
  simp [Ending,Safe]

theorem ending_after {r : Option Outcome} : Ending whole (r.map (.after before)) ↔ (∀ a ∈ before,a.Inside) ∧ Ending whole r := by
  cases r with
  | none => simp [Ending,Safe]
  | some o => simp only [Ending,Safe,Option.map_some,Outcome.after,forall_mem_append,and_assoc,Option.mem_some_iff,forall_eq']

theorem increment_closer (goes : (increment d sector index).1 = true) (inside : index < 16) :
    (increment d sector index).2.2 < 16 ∧ 16*(d.sectorsPerCluster-1-(increment d sector index).2.1)+index <
      16*(d.sectorsPerCluster-1-sector)+(increment d sector index).2.2 := by
  unfold increment at goes ⊢
  by_cases more : index+1 < 16
  · rw [if_pos more]
    exact ⟨more,Nat.lt_succ_self _⟩
  · rw [if_neg more] at goes ⊢
    split at goes
    · cases goes
    next left =>
      rw [if_neg left]
      dsimp only
      omega

-- By induction on the fuel. The entries left of the chain are not fewer than those before its end.
theorem collect_ends (short : n ≤ 19 → pmax < 255) (small : n < 2^8) (inside : index < 16)
    (enough : 16*(d.sectorsPerCluster-1-sector)+16 ≤ fuel+index) :
    Ending whole (collect d pmax fuel sector index (13*n)) ↔ Ends d whole n sector index := by
  induction fuel generalizing n sector index with
  | zero => omega
  | succ fuel ih =>
    by_cases named : attrib d sector index = 0x0F
    · have step : Ending whole (collect d pmax (fuel+1) sector index (13*n)) ↔
          (∀ a ∈ touched d pmax sector index ((13*n+2^32-13)%2^32),a.Inside) ∧ ((increment d sector index).1 = true →
            if lastEntry d sector index then whole else Ending whole (collect d pmax fuel (increment d sector index).2.1
              (increment d sector index).2.2 ((13*n+2^32-13)%2^32))) := by
        rw [collect,if_neg (not_not.mpr named)]
        dsimp only
        cases (increment d sector index).1 <;> cases lastEntry d sector index <;> simp [ending_some,ending_after]
      rw [step,touched_inside short small inside]
      cases n with
      | zero => exact iff_of_false (fun ending => absurd ending.1.1 (by decide)) (not_not.mpr named)
      | succ n =>
        rw [Ends,or_iff_right (not_not.mpr named),show (13*(n+1)+2^32-13)%2^32 = 13*n by omega,
          show 0 < n+1 ∧ n+1 ≤ 19 ↔ n < 19 by omega]
        refine and_congr_right fun few => imp_congr_right fun goes => ?_
        obtain ⟨low,closer⟩ := increment_closer goes inside
        rw [ih (fun _ => short few) (by omega) low (by omega)]
    · rw [collect,if_pos named,ending_some]
      refine iff_of_true ⟨forall_mem_singleton.mpr (show 32*index+11 < 512 by omega),nofun⟩ ?_
      cases n with
      | zero => exact named
      | succ n => exact .inl named

theorem length_le (d : Cluster) (sector offset count : Nat) : length d sector offset count ≤ count :=
  (takeWhile_sublist _).length_le.trans_eq length_range

section
variable (inside : index < 16)
include inside

theorem buffer_inside (few : k < 32) : (Access.buffer (32*index+k)).Inside := show 32*index+k < 512 by omega

theorem checks_inside : ∀ a ∈ [Access.buffer (32*index),.buffer (32*index+11)],a.Inside := by
  simpa using ⟨buffer_inside inside (k := 0) (by decide),buffer_inside inside (k := 11) (by decide)⟩

theorem uint16_ending (sectors : 1 ≤ d.sectorsPerCluster) :
    Ending whole (fatGetLongNameUint16 d sector index) ↔ Tame d whole sector index := by
  have checks := checks_inside inside
  unfold fatGetLongNameUint16 Tame
  split
  case isTrue none => exact iff_of_true (ending_some.mpr ⟨fun a member => checks a (by simp_all),nofun⟩) (absurd none)
  case isFalse used =>
    rw [imp_iff_right used]
    split
    case isTrue other => exact iff_of_true (ending_some.mpr ⟨checks,nofun⟩) fun named => absurd named other
    case isFalse named =>
      rw [imp_iff_right (not_not.mp named),ending_after,and_iff_right checks]
      exact collect_ends (by omega) (first d sector index ^^^ 0x40).isLt inside (by omega)
end
end

theorem long_name_safe (d : Cluster) (sector index : Nat) (inside : index < 16) (sectors : 1 ≤ d.sectorsPerCluster) :
    (Safe (fatGetLongNameUint16 d sector index) ↔ Tame d True sector index) ∧
      (Safe (fatGetLongNameUint8 d sector index) ↔ Tame d False sector index) := by
  have checks := checks_inside inside
  constructor
  · rw [← uint16_ending inside sectors]
    simp [Ending]
  unfold fatGetLongNameUint8
  split
  case isTrue none => exact iff_of_true (fun a member => checks a (by simp_all)) (absurd none)
  case isFalse used =>
    split
    case isTrue named =>
      rw [← uint16_ending inside sectors]
      cases fatGetLongNameUint16 d sector index with
      | none => simp [Safe,Ending]
      | some o =>
        obtain ⟨success,s,i,accesses⟩ := o
        rw [ending_some]
        cases success with
        | false => simp only [Safe,Option.map_some,Outcome.after,forall_mem_append,and_iff_right checks]; simp
        | true =>
          -- The copy has an element more than the array.
          refine iff_of_false (fun safe => ?_) fun ending => ending.2 rfl
          have copied := (forall_mem_append.mp (forall_mem_append.mp safe).2).2
          exact absurd (copied (.longName8 255) (mem_flatMap.mpr ⟨255,by decide,by simp⟩)) (by decide)
    case isFalse other =>
      have eight := length_le d sector (32*index) 8
      have three := length_le d sector (32*index+8) 3
      refine iff_of_true (forall_mem_append.mpr ⟨forall_mem_append.mpr ⟨checks,?_⟩,?_⟩) fun _ named => absurd named other
      · simp only [mem_map,mem_range]
        rintro a ⟨k,few,rfl⟩
        exact buffer_inside inside (few.trans (by decide))
      · simp only [mem_map,mem_range,shortLength]
        rintro a ⟨k,few,rfl⟩
        show k < 255
        split at few <;> omega

-- A sector with a name of one entry, or of as many as it has.
def named (ordinal : BitVec 8) : Cluster := ⟨1,fun _ offset => if offset = 0 then ordinal else 0x0F,fun _ => true⟩

theorem long_name_safe_one : Safe (fatGetLongNameUint16 (named 0x41) 0 0) :=
  (long_name_safe (named 0x41) 0 0 (by decide) (by decide)).1.mpr fun _ _ => .inr ⟨by decide,fun _ => trivial⟩

-- The ordinal 0 counts down from 0, and the copy of a name is one character too long.
theorem long_name_outside :
    ¬Safe (fatGetLongNameUint16 (named 0x40) 0 0) ∧ ¬Safe (fatGetLongNameUint8 (named 0x41) 0 0) := by
  constructor <;> decide +kernel
end Patmos.Fat
