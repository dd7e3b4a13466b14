import Mathlib.Data.List.DropRight
import Mathlib.Data.List.Pairwise
namespace Patmos.S4noc
open List Function

inductive Port where
  | NORTH
  | EAST
  | SOUTH
  | WEST
  | LOCAL
  deriving DecidableEq, Repr

abbrev Entries := Nat → Port → Port

structure Schedule where
  length : Nat
  entries : Entries
  valid : Nat → Bool

namespace Schedule
def port : Char → Option Port
  | 'n' => some .NORTH
  | 'e' => some .EAST
  | 's' => some .SOUTH
  | 'w' => some .WEST
  | 'l' => some .LOCAL
  | ' ' => some .NORTH
  | _ => none

def nextFrom : Char → Option Char
  | 'n' => some 's'
  | 'e' => some 'w'
  | 's' => some 'n'
  | 'w' => some 'e'
  | 'l' => some 'x'
  | ' ' => some 'l'
  | _ => none

-- Empty strings at the end are dropped; a text without separator stays whole.
def split (s : List Char) : List (List Char) :=
  if '|' ∈ s then (s.splitOn '|').rdropWhile isEmpty else [s]

def longer (a b : List Char) : List Char := if a.length > b.length then a else b

def len : List (List Char) → Option Nat
  | [] => none
  | first :: rest => some (rest.foldl longer first).length

-- A new array holds zeros, and 0 is NORTH.
def blank : Entries := fun _ _ => .NORTH

def enter (entries : Entries) (j : Nat) (target source : Port) : Entries :=
  update entries j (update (entries j) target source)

def row : List Char → Nat → Char → Entries → Option Entries
  | [],_,_,entries => some entries
  | target :: rest,j,source,entries =>
    if target ≠ ' ' then do
      let next ← nextFrom target
      row rest (j+1) next (enter entries j (← port target) (← port source))
    else row rest (j+1) source entries

-- The remaining passes of the loop over i, which ends before the last slot.
def validLoop (split : List (List Char)) : Nat → Nat → Nat → (Nat → Bool) → Option (Nat → Bool)
  | 0,_,_,valid => some valid
  | passes+1,i,line,valid =>
    match split[line]? with
    | none => validLoop split passes (i+1) line valid
    | some here => do
        let c ← here[i]?
        let begins := c != ' '
        validLoop split passes (i+1) (if begins then line+1 else line) (update valid i begins)

def getSchedule (s : List Char) : Option Schedule := do
  let split := split s
  let len ← len split
  let entries ← split.foldlM (fun entries line => row line 0 'l' entries) blank
  let valid ← validLoop split (len-1) 0 0 fun _ => false
  return ⟨len,entries,valid⟩
end Schedule

inductive Hop where
  | north
  | east
  | south
  | west
  deriving DecidableEq, Repr

namespace Hop
def letter : Hop → Char
  | north => 'n'
  | east => 'e'
  | south => 's'
  | west => 'w'

def exit : Hop → Port
  | north => .NORTH
  | east => .EAST
  | south => .SOUTH
  | west => .WEST

-- The port at which the next router receives what left on a hop.
def entry : Hop → Port
  | north => .SOUTH
  | east => .WEST
  | south => .NORTH
  | west => .EAST

theorem entry_injective (same : entry g = entry h) : g = h := by
  cases g <;> cases h <;> first | rfl | cases same
end Hop

structure Path where
  start : Nat
  hops : List Hop
  deriving DecidableEq, Repr

-- The outputs used from the first slot on, each with the input it copies.
def moves : List Hop → Port → List (Port × Port)
  | [],source => [(.LOCAL,source)]
  | h :: rest,source => (h.exit,source) :: moves rest h.entry

namespace Path
def exit (p : Path) : Nat := p.start+p.hops.length

def text (p : Path) : List Char := replicate p.start ' ' ++ (p.hops.map Hop.letter ++ ['l'])

def move (p : Path) (slot : Nat) : Option (Port × Port) :=
  if p.start ≤ slot then (moves p.hops .LOCAL)[slot-p.start]? else none

def output (p : Path) (slot : Nat) : Option Port := (p.move slot).map Prod.fst

-- No output of a router is used by both paths in one slot.
def Apart (p q : Path) : Prop := ∀ slot o, p.output slot = some o → q.output slot ≠ some o
end Path

structure PathTable where
  paths : List Path
  filled : paths ≠ []
  startsDistinct : paths.Pairwise fun p q => p.start ≠ q.start
  conflictFree : paths.Pairwise Path.Apart

def PathTable.text (table : PathTable) : List Char := table.paths.flatMap fun p => p.text ++ ['|']

theorem PathTable.start_unique (table : PathTable) (left : p ∈ table.paths) (right : q ∈ table.paths)
    (same : p.start = q.start) : p = q := by
  have symmetric : Std.Symm fun p q : Path => p.start ≠ q.start := ⟨fun _ _ => Ne.symm⟩
  by_contra differ
  exact table.startsDistinct.forall left right differ same

-- Each row has its turn behind the one before it and not before its start slot. A turn before the last slot is not behind
-- the exit slot of the row.
def Turns (last : Nat) : Nat → List Path → Prop
  | _,[] => True
  | slot,p :: rest => last ≤ max slot p.start ∨ max slot p.start ≤ p.exit ∧ Turns last (max slot p.start+1) rest

-- The last slot is the one in which the last path exits.
def PathTable.InRange (table : PathTable) : Prop :=
  ∀ q ∈ table.paths, (∀ p ∈ table.paths, p.exit ≤ q.exit) → Turns q.exit 0 table.paths

-- If every slot up to the start of a path were an exit slot, each of them would start the path that exits in it.
theorem PathTable.free_slot (table : PathTable) (member : p ∈ table.paths) (hops : p.hops ≠ []) :
    ∃ slot ≤ p.start, ∀ q ∈ table.paths, q.exit ≠ slot := by
  by_contra full
  have exits : ∀ slot ≤ p.start, ∃ q ∈ table.paths, q.exit = slot := by
    simpa using full
  have empty : ∀ slot ≤ p.start, ∃ q ∈ table.paths, q.start = slot ∧ q.exit = slot := by
    intro slot
    induction slot using Nat.strong_induction_on with
    | h slot ih =>
      intro early
      obtain ⟨q,inside,rfl⟩ := exits slot early
      refine ⟨q,inside,?_,rfl⟩
      by_contra later
      have before : q.start < q.exit := lt_of_le_of_ne (Nat.le_add_right ..) later
      obtain ⟨r,other,start,exit⟩ := ih q.start before (before.le.trans early)
      rw [table.start_unique inside other start.symm] at before
      omega
  obtain ⟨q,other,start,exit⟩ := empty p.start le_rfl
  have long := length_pos_of_ne_nil hops
  rw [table.start_unique other member start] at exit
  unfold Path.exit at exit
  omega

section
variable (hops : List Hop) (source : Port)

def outputAt (m : Nat) : Port := (hops[m]?).elim .LOCAL Hop.exit

def inputAt : Nat → Port
  | 0 => source
  | m+1 => (hops[m]?).elim source Hop.entry

theorem moves_at (within : m ≤ hops.length) : (moves hops source)[m]? = some (outputAt hops m,inputAt hops source m) := by
  induction hops generalizing source m with
  | nil =>
    cases Nat.le_zero.mp within
    rfl
  | cons h rest ih =>
    cases m with
    | zero => rfl
    | succ m =>
      have later := ih h.entry (Nat.le_of_succ_le_succ within)
      rw [moves,getElem?_cons_succ,later]
      cases m with
      | zero => rfl
      | succ m =>
        have more : m < rest.length := Nat.le_of_succ_le_succ within
        simp [outputAt,inputAt,more]

theorem moves_length : (moves hops source).length = hops.length+1 := by
  induction hops generalizing source with
  | nil => rfl
  | cons h rest ih => rw [moves,length_cons,ih,length_cons]
end

namespace Schedule
theorem splitOn_lines (lines : List (List Char)) (apart : ∀ line ∈ lines, '|' ∉ line) :
    (lines.flatMap fun line => line ++ ['|']).splitOn '|' = lines ++ [[]] := by
  induction lines with
  | nil => rfl
  | cons line rest ih =>
    have here : ∀ c ∈ line, (c == '|') = false := by
      intro c member
      apply beq_false_of_ne
      rintro rfl
      exact apart line mem_cons_self member
    rw [flatMap_cons,append_assoc,singleton_append,splitOn,
      splitOnP_append_cons_of_forall_mem here '|' (beq_self_eq_true '|')]
    exact congrArg (line :: ·) (ih fun other member => apart other (mem_cons_of_mem line member))

theorem split_lines (lines : List (List Char)) (some : lines ≠ []) (apart : ∀ line ∈ lines, '|' ∉ line)
    (filled : ∀ line ∈ lines, line ≠ []) : split (lines.flatMap fun line => line ++ ['|']) = lines := by
  have bar : '|' ∈ lines.flatMap fun line => line ++ ['|'] := by
    obtain ⟨line,rest,rfl⟩ := exists_cons_of_ne_nil some
    simp
  rw [split,if_pos bar,splitOn_lines lines apart,rdropWhile_concat_pos _ _ _ rfl]
  apply rdropWhile_eq_self_iff.mpr
  intro _ empty
  exact filled _ (getLast_mem some) (isEmpty_iff.mp empty)

theorem row_blanks (rest : List Char) (k j : Nat) (source : Char) (entries : Entries) :
    row (replicate k ' ' ++ rest) j source entries = row rest (j+k) source entries := by
  induction k generalizing j with
  | zero => rfl
  | succ k ih =>
    rw [replicate_succ,cons_append,row,ih (j+1),Nat.add_right_comm]
    rfl

def place : List (Port × Port) → Nat → Entries → Entries
  | [],_,entries => entries
  | (target,source) :: rest,j,entries => place rest (j+1) (enter entries j target source)

theorem row_hops (hops : List Hop) (read : port c = some source) (j : Nat) (entries : Entries) :
    row (hops.map Hop.letter ++ ['l']) j c entries = some (place (moves hops source) j entries) := by
  induction hops generalizing c source j entries with
  | nil =>
    rw [map_nil,nil_append,row]
    simp only [read]
    rfl
  | cons h rest ih =>
    obtain ⟨next,left,heard⟩ : ∃ next, nextFrom h.letter = some next ∧ port next = some h.entry := by
      cases h <;> exact ⟨_,rfl,rfl⟩
    have sent : port h.letter = some h.exit := by cases h <;> rfl
    have filled : h.letter ≠ ' ' := by cases h <;> decide
    rw [map_cons,cons_append,row,if_pos filled]
    simp only [left,sent,read]
    exact ih heard (j+1) _

theorem place_before (steps : List (Port × Port)) (entries : Entries) (early : slot < j) :
    place steps j entries slot = entries slot := by
  induction steps generalizing j entries with
  | nil => rfl
  | cons step rest ih =>
    rw [place,ih _ (Nat.lt_succ_of_lt early),enter,update_of_ne early.ne]

theorem place_used {steps : List (Port × Port)} (entries : Entries) (used : steps[k]? = some (target,source)) :
    place steps j entries (j+k) target = source := by
  induction steps generalizing j k entries with
  | nil => cases used
  | cons step rest ih =>
    cases k with
    | zero =>
      cases used
      have kept := place_before rest (enter entries j target source) (Nat.lt_succ_self j)
      exact (congrFun kept target).trans (by simp [enter])
    | succ k =>
      rw [← Nat.add_assoc,Nat.add_right_comm]
      exact ih _ used

theorem place_kept {steps : List (Port × Port)} (entries : Entries) (free : ∀ k source, slot = j+k → steps[k]? ≠ some (target,source)) :
    place steps j entries slot target = entries slot target := by
  induction steps generalizing j entries with
  | nil => rfl
  | cons step rest ih =>
    rw [place,ih]
    · by_cases here : slot = j
      · subst here
        have other : target ≠ step.1 := by
          rintro rfl
          exact free 0 step.2 rfl rfl
        rw [enter,update_self,update_of_ne other]
      · rw [enter,update_of_ne here]
    · intro k source later
      exact free (k+1) source (by omega)
end Schedule

namespace Path
theorem text_length (p : Path) : p.text.length = p.exit+1 := by
  simp [text,exit,Nat.add_assoc]

theorem text_apart (p : Path) : '|' ∉ p.text := by
  intro member
  simp only [text,mem_append,mem_replicate,mem_map,mem_singleton] at member
  rcases member with ⟨_,blank⟩ | ⟨h,_,letter⟩ | last
  · cases blank
  · cases h <;> cases letter
  · cases last

theorem text_filled (p : Path) : p.text ≠ [] := by
  intro empty
  have := p.text_length
  rw [empty] at this
  cases this

theorem text_blank (p : Path) (early : i < p.start) : p.text[i]? = some ' ' := by
  rw [text,getElem?_append_left (by simpa using early)]
  simp [early]

theorem text_letter (p : Path) (begun : p.start ≤ i) (within : i ≤ p.exit) : ∃ c, p.text[i]? = some c ∧ c ≠ ' ' := by
  obtain ⟨m,rfl⟩ := Nat.exists_eq_add_of_le begun
  have blanks : (replicate p.start ' ').length ≤ p.start+m := by simp
  rw [text,getElem?_append_right blanks,length_replicate,Nat.add_sub_cancel_left]
  have inside : m < (p.hops.map Hop.letter ++ ['l']).length := by
    rw [length_append,length_map]
    exact Nat.lt_succ_of_le (Nat.le_of_add_le_add_left within)
  have filled : ∀ c ∈ p.hops.map Hop.letter ++ ['l'], c ≠ ' ' := by
    simp only [mem_append,mem_map,mem_singleton]
    rintro c (⟨h,_,rfl⟩ | rfl)
    · cases h <;> decide
    · decide
  exact ⟨_,getElem?_eq_getElem inside,filled _ (getElem_mem inside)⟩

theorem move_at (p : Path) (within : m ≤ p.hops.length) :
    p.move (p.start+m) = some (outputAt p.hops m,inputAt p.hops .LOCAL m) := by
  rw [move,if_pos (Nat.le_add_right p.start m),Nat.add_sub_cancel_left]
  exact moves_at p.hops .LOCAL within

theorem output_some (p : Path) (used : p.output slot = some target) :
    ∃ m ≤ p.hops.length, slot = p.start+m ∧ target = outputAt p.hops m := by
  unfold output move at used
  split at used
  · rename_i begun
    obtain ⟨⟨_,source⟩,found,rfl⟩ := Option.map_eq_some_iff.mp used
    obtain ⟨within,_⟩ := List.getElem?_eq_some_iff.mp found
    rw [moves_length] at within
    have inside := Nat.le_of_lt_succ within
    rw [moves_at p.hops .LOCAL inside] at found
    exact ⟨slot-p.start,inside,(Nat.add_sub_of_le begun).symm,congrArg Prod.fst (Option.some.inj found).symm⟩
  · cases used

theorem output_local (p : Path) (used : p.output slot = some .LOCAL) : slot = p.exit := by
  obtain ⟨m,within,rfl,here⟩ := p.output_some used
  unfold outputAt at here
  cases next : p.hops[m]? with
  | none => rw [exit,within.antisymm (getElem?_eq_none_iff.mp next)]
  | some h =>
    rw [next] at here
    cases h <;> cases here

theorem output_south (p : Path) (used : p.output slot = some .SOUTH) : .south ∈ p.hops := by
  obtain ⟨m,_,_,here⟩ := p.output_some used
  unfold outputAt at here
  cases next : p.hops[m]? with
  | none =>
    rw [next] at here
    cases here
  | some h =>
    rw [next] at here
    cases h <;> cases here
    exact mem_of_getElem? next

instance decidableApart (p q : Path) : Decidable (p.Apart q) :=
  decidable_of_iff (∀ slot < p.exit+1, p.output slot = none ∨ p.output slot ≠ q.output slot) <| by
    constructor
    · rintro apart slot o used other
      obtain ⟨m,within,rfl,_⟩ := p.output_some used
      rcases apart (p.start+m) (by unfold exit; omega) with none | differ
      · rw [used] at none
        cases none
      · exact differ (used.trans other.symm)
    · intro apart slot _
      cases used : p.output slot with
      | none => exact .inl rfl
      | some o => exact .inr fun other => apart slot o used other.symm

def place (p : Path) (entries : Entries) : Entries := Schedule.place (moves p.hops .LOCAL) p.start entries

theorem row_text (p : Path) (entries : Entries) : Schedule.row p.text 0 'l' entries = some (p.place entries) := by
  rw [text,Schedule.row_blanks,Nat.zero_add]
  exact Schedule.row_hops p.hops rfl p.start entries

theorem place_used (p : Path) (entries : Entries) (used : p.move slot = some (target,source)) :
    p.place entries slot target = source := by
  unfold move at used
  split at used
  · rename_i begun
    rw [← Nat.add_sub_of_le begun]
    exact Schedule.place_used entries used
  · cases used

theorem place_kept (p : Path) (entries : Entries) (free : p.output slot ≠ some target) :
    p.place entries slot target = entries slot target := by
  apply Schedule.place_kept
  rintro k source rfl used
  apply free
  rw [output,move,if_pos (Nat.le_add_right p.start k),Nat.add_sub_cancel_left,used]
  rfl
end Path

namespace Schedule
def placeAll (paths : List Path) (entries : Entries) : Entries := paths.foldl (fun entries p => p.place entries) entries

theorem rows_text (paths : List Path) (entries : Entries) :
    (paths.map Path.text).foldlM (fun entries line => row line 0 'l' entries) entries = some (placeAll paths entries) := by
  induction paths generalizing entries with
  | nil => rfl
  | cons p rest ih =>
    rw [map_cons,foldlM_cons,p.row_text]
    exact ih _

theorem placeAll_kept (paths : List Path) (entries : Entries) (free : ∀ p ∈ paths, p.output slot ≠ some target) :
    placeAll paths entries slot target = entries slot target := by
  induction paths generalizing entries with
  | nil => rfl
  | cons p rest ih =>
    calc placeAll rest (p.place entries) slot target
        = p.place entries slot target := ih _ fun q member => free q (mem_cons_of_mem p member)
      _ = entries slot target := p.place_kept entries (free p mem_cons_self)

theorem placeAll_used (paths : List Path) (entries : Entries)
    (conflictFree : paths.Pairwise Path.Apart)
    (member : p ∈ paths) (used : p.move slot = some (target,source)) :
    placeAll paths entries slot target = source := by
  induction paths generalizing entries with
  | nil => cases member
  | cons q rest ih =>
    obtain ⟨apart,conflictFree⟩ := pairwise_cons.mp conflictFree
    rcases mem_cons.mp member with rfl | later
    · have output : p.output slot = some target := by rw [Path.output,used]; rfl
      calc placeAll rest (p.place entries) slot target
          = p.place entries slot target := placeAll_kept rest _ fun q later => apart q later slot target output
        _ = source := p.place_used entries used
    · exact ih _ conflictFree later

theorem foldl_longer (lines : List (List Char)) (first : List Char) : lines.foldl longer first ∈ first :: lines ∧
    ∀ line ∈ first :: lines, line.length ≤ (lines.foldl longer first).length := by
  induction lines generalizing first with
  | nil => simp
  | cons next rest ih =>
    obtain ⟨member,longest⟩ := ih (longer first next)
    have grown := longest _ mem_cons_self
    rw [foldl_cons]
    constructor
    · rcases mem_cons.mp member with here | later
      · rw [here]
        unfold longer
        split <;> simp
      · exact mem_cons_of_mem _ (mem_cons_of_mem _ later)
    · have both : first.length ≤ (longer first next).length ∧ next.length ≤ (longer first next).length := by
        unfold longer
        split <;> omega
      simp only [forall_mem_cons] at longest ⊢
      exact ⟨both.1.trans grown,both.2.trans grown,longest.2⟩

theorem len_spec (found : len lines = some n) : (∃ line ∈ lines, line.length = n) ∧ ∀ line ∈ lines, line.length ≤ n := by
  cases lines with
  | nil => cases found
  | cons first rest =>
    cases found
    obtain ⟨member,longest⟩ := foldl_longer rest first
    exact ⟨⟨_,member,rfl⟩,longest⟩

-- With ordered rows the loop never looks behind the first letter of a row.
theorem validLoop_returns (paths : List Path) (ordered : paths.Pairwise fun p q => p.start < q.start) (passes : Nat)
    (valid : Nat → Bool) (unset : ∀ j ≥ i, valid j = false) (ahead : ∀ p ∈ paths.drop line, i ≤ p.start) :
    ∃ result, validLoop (paths.map Path.text) passes i line valid = some result ∧
      ∀ j, result j = true ↔ valid j = true ∨ j < i+passes ∧ ∃ p ∈ paths.drop line, p.start = j := by
  induction passes generalizing i line valid with
  | zero =>
    refine ⟨valid,rfl,fun j => ⟨.inl,?_⟩⟩
    rintro (set | ⟨early,p,member,rfl⟩)
    · exact set
    · exact absurd (ahead p member) early.not_ge
  | succ passes ih =>
    have later : ∀ j ≥ i+1, valid j = false := fun j above => unset j (Nat.le_of_succ_le above)
    rw [validLoop,getElem?_map,← head?_drop]
    cases here : paths.drop line with
    | nil =>
      obtain ⟨result,returned,marks⟩ := @ih (i+1) line valid later (by simp [here])
      exact ⟨result,returned,by simpa [here] using marks⟩
    | cons p rest =>
      rw [here] at ahead
      have follow : ∀ q ∈ rest, p.start < q.start := (pairwise_cons.mp (here ▸ ordered.drop)).1
      simp only [head?_cons,Option.map_some]
      rcases Nat.lt_or_eq_of_le (ahead p mem_cons_self) with before | first
      · have blank := p.text_blank before
        have kept : update valid i false = valid := by rw [← unset i le_rfl,update_eq_self]
        obtain ⟨result,returned,marks⟩ := @ih (i+1) line valid later (by
          rw [here]
          exact forall_mem_cons.mpr ⟨before,fun q member => before.trans (follow q member)⟩)
        refine ⟨result,by simpa [blank,kept] using returned,fun j => ?_⟩
        rw [marks,here,Nat.add_right_comm,Nat.add_assoc]
      · obtain ⟨c,letter,filled⟩ := p.text_letter first.ge (first ▸ Nat.le_add_right ..)
        have next : paths.drop (line+1) = rest := by rw [← tail_drop,here,tail_cons]
        obtain ⟨result,returned,marks⟩ := @ih (i+1) (line+1) (update valid i true)
          (fun j above => (update_of_ne (by omega) _ _).trans (later j above)) (by
            rw [next,first]
            exact follow)
        have begins : (c != ' ') = true := bne_iff_ne.mpr filled
        refine ⟨result,by simpa [letter,begins,filled] using returned,fun j => ?_⟩
        rw [marks,next]
        by_cases same : j = i
        · simp [same,first]
        · rw [update_of_ne same]
          simp [← first,Ne.symm same,Nat.add_right_comm,Nat.add_assoc]

-- Without an order the loop ends as long as the turns of the rows are in range.
theorem validLoop_isSome (paths : List Path) (passes i line : Nat) (valid : Nat → Bool) :
    (validLoop (paths.map Path.text) passes i line valid).isSome ↔ Turns (i+passes) i (paths.drop line) := by
  induction passes generalizing i line valid with
  | zero =>
    cases paths.drop line with
    | nil => exact iff_of_true rfl trivial
    | cons p rest => exact iff_of_true rfl (.inl (le_max_left ..))
  | succ passes ih =>
    rw [validLoop,getElem?_map,← head?_drop,show i+(passes+1) = i+1+passes by omega]
    cases here : paths.drop line with
    | nil => exact (ih (i+1) line valid).trans (by rw [here]; rfl)
    | cons p rest =>
      simp only [head?_cons,Option.map_some,Turns]
      rcases lt_or_ge i p.start with before | begun
      · rw [p.text_blank before,max_eq_right before.le]
        refine (ih (i+1) line _).trans ?_
        rw [here,Turns,max_eq_right before]
      · rw [max_eq_left begun,or_iff_right (by omega)]
        rcases le_or_gt i p.exit with within | past
        · obtain ⟨c,letter,filled⟩ := p.text_letter begun within
          have next : paths.drop (line+1) = rest := by rw [← tail_drop,here,tail_cons]
          rw [letter,and_iff_right within,← next,← ih (i+1) (line+1) (update valid i (c != ' '))]
          simp [filled]
        · rw [getElem?_eq_none (by rw [p.text_length]; exact past)]
          exact iff_of_false nofun fun turn => absurd turn.1 past.not_ge

theorem getSchedule_paths (paths : List Path) (filled : paths ≠ []) : ∃ n, len (paths.map Path.text) = some n ∧
    getSchedule (paths.flatMap fun p => p.text ++ ['|']) =
      (validLoop (paths.map Path.text) (n-1) 0 0 fun _ => false).map (Schedule.mk n (placeAll paths blank)) := by
  have lines : split (paths.flatMap fun p => p.text ++ ['|']) = paths.map Path.text := by
    have some : paths.map Path.text ≠ [] := by simpa using filled
    rw [← split_lines (paths.map Path.text) some,flatMap_map]
    · intro line member
      obtain ⟨p,_,rfl⟩ := mem_map.mp member
      exact p.text_apart
    · intro line member
      obtain ⟨p,_,rfl⟩ := mem_map.mp member
      exact p.text_filled
  obtain ⟨n,found⟩ : ∃ n, len (paths.map Path.text) = some n := by
    obtain ⟨p,rest,rfl⟩ := exists_cons_of_ne_nil filled
    exact ⟨_,rfl⟩
  refine ⟨n,found,?_⟩
  simp only [getSchedule,lines,found,rows_text,Option.bind_eq_bind,Option.bind_some,Option.pure_def]
  cases validLoop (paths.map Path.text) (n-1) 0 0 fun _ => false <;> rfl

theorem exit_lt_len {paths : List Path} (found : len (paths.map Path.text) = some n) (member : p ∈ paths) : p.exit < n := by
  have short := (len_spec found).2 _ (mem_map_of_mem member)
  rw [p.text_length] at short
  exact short

theorem valid_starts (paths : List Path) (hops : ∀ p ∈ paths, p.hops ≠ [])
    (ordered : paths.Pairwise fun p q => p.start < q.start) :
    ∃ schedule, getSchedule (paths.flatMap fun p => p.text ++ ['|']) = some schedule ∧ (∀ p ∈ paths, p.exit < schedule.length) ∧
      ∀ i < schedule.length, schedule.valid i = true ↔ ∃ p ∈ paths, p.start = i := by
  rcases eq_or_ne paths [] with rfl | filled
  · exact ⟨_,rfl,nofun,nofun⟩
  obtain ⟨n,found,returned⟩ := getSchedule_paths paths filled
  obtain ⟨valid,ended,marks⟩ := @validLoop_returns 0 0 paths ordered (n-1) (fun _ => false) (fun _ _ => rfl)
    fun p _ => Nat.zero_le p.start
  rw [ended] at returned
  refine ⟨_,returned,fun _ => exit_lt_len found,fun i _ => (marks i).trans ?_⟩
  simp only [Bool.false_eq_true,false_or,drop_zero,Nat.zero_add]
  apply and_iff_right_of_imp
  rintro ⟨p,member,rfl⟩
  have short := exit_lt_len found member
  have hop := length_pos_of_ne_nil (hops p member)
  unfold Path.exit at short
  omega

theorem valid_starts_two : ∃ schedule, getSchedule "nl| el|".toList = some schedule ∧
    (∀ p ∈ [⟨0,[.north]⟩,(⟨1,[.east]⟩ : Path)], p.exit < schedule.length) ∧
    ∀ i < schedule.length, schedule.valid i = true ↔ ∃ p ∈ [⟨0,[.north]⟩,(⟨1,[.east]⟩ : Path)], p.start = i :=
  valid_starts [⟨0,[.north]⟩,⟨1,[.east]⟩] (by decide) (by decide)

structure Realises (schedule : Schedule) (table : PathTable) : Prop where
  used : ∀ {p slot target source}, p ∈ table.paths → p.move slot = some (target,source) →
    schedule.entries slot target = source
  free : ∀ {slot target}, (∀ p ∈ table.paths, p.output slot ≠ some target) → schedule.entries slot target = .NORTH
  long : ∀ p ∈ table.paths, p.exit < schedule.length

theorem getSchedule_realises (table : PathTable) (returned : getSchedule table.text = some schedule) : Realises schedule table := by
  obtain ⟨n,found,computed⟩ := getSchedule_paths table.paths table.filled
  obtain ⟨valid,-,rfl⟩ := Option.map_eq_some_iff.mp (computed.symm.trans returned)
  exact ⟨placeAll_used table.paths blank table.conflictFree,placeAll_kept table.paths blank,fun p => exit_lt_len found⟩

theorem getSchedule_returns (table : PathTable) : (getSchedule table.text).isSome ↔ table.InRange := by
  obtain ⟨n,found,computed⟩ := getSchedule_paths table.paths table.filled
  obtain ⟨line,member,length⟩ := (len_spec found).1
  obtain ⟨p,inside,rfl⟩ := mem_map.mp member
  rw [p.text_length] at length
  have last (q) (member : q ∈ table.paths) : q.exit ≤ p.exit := by
    have short := exit_lt_len found member
    omega
  rw [PathTable.text,computed,Option.isSome_map,validLoop_isSome,drop_zero,Nat.zero_add,show n-1 = p.exit by omega]
  refine ⟨fun turns q member latest => ?_,fun ranged => ranged p inside last⟩
  rwa [(last q member).antisymm (latest p inside)]
end Schedule
end Patmos.S4noc
