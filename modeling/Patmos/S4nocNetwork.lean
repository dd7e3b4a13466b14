import Patmos.RegisterFlow
import Patmos.RegisterWidth
import Patmos.S4nocSchedule
import Patmos.TransitionSystem
namespace Patmos.S4noc
open Transition List Nat RegisterFlow

structure SingleChannel (α : Type) where
  data : α
  valid : Bool
  deriving DecidableEq, Repr

structure S4Router (α : Type) where
  regCounter : Nat
  regDelay : Nat
  out : Port → SingleChannel α

def S4Router.next (schedule : Schedule) (r : S4Router α) (inputs : Port → SingleChannel α) : S4Router α where
  regCounter := if r.regCounter = schedule.length-1 then 0 else (r.regCounter+1)%2^Register.log2Up schedule.length
  regDelay := r.regCounter
  out j := inputs (schedule.entries r.regDelay j)

abbrev Link := (Nat × Port) × (Nat × Port)

def connect (r1 : Nat) (p1 : Port) (r2 : Nat) (p2 : Port) : List Link := [((r1,p1),(r2,p2)),((r2,p2),(r1,p1))]

def connections (n : Nat) : List Link :=
  (range n).flatMap fun i =>
    (range n).flatMap fun j =>
      let r := i*n+j
      connect r .EAST (i*n+(j+1)%n) .WEST ++ connect r .SOUTH ((i+1)%n*n+j) .NORTH

abbrev Network (α : Type) := Nat → S4Router α

-- The inputs without a connection are the local ones.
def driver (n r : Nat) (p : Port) : (Nat × Port) ⊕ Nat :=
  match (connections n).lookup (r,p) with
  | some link => .inl link
  | none => .inr r

def input (n : Nat) (net : Network α) (inject : Nat → SingleChannel α) (r : Nat) (p : Port) : SingleChannel α :=
  (driver n r p).elim (fun link => (net link.1).out link.2) inject

-- The source assumes that no output is valid on reset.
def network (n : Nat) (schedule : Schedule) : System (Network α) (Nat → SingleChannel α) where
  start net := ∀ r, (net r).regCounter = 0 ∧ (net r).regDelay = 0 ∧ ∀ p, ((net r).out p).valid = false
  admits _ _ := True
  next net inject r := (net r).next schedule (input n net inject r)

structure Node (n : Nat) where
  row : Fin n
  column : Fin n

def after (i : Fin n) : Fin n := ⟨(i+1)%n,mod_lt _ (zero_lt_of_lt i.isLt)⟩
def before (i : Fin n) : Fin n := ⟨(i+(n-1))%n,mod_lt _ (zero_lt_of_lt i.isLt)⟩

theorem before_after (i : Fin n) : before (after i) = i := by
  apply Fin.ext
  have small := i.isLt
  have whole : i.val+1+(n-1) = i.val+n := by omega
  show ((i.val+1)%n+(n-1))%n = i.val
  rw [mod_add_mod,whole,add_mod_right,mod_eq_of_lt small]

theorem after_before (i : Fin n) : after (before i) = i := by
  apply Fin.ext
  have small := i.isLt
  have whole : i.val+(n-1)+1 = i.val+n := by omega
  show ((i.val+(n-1))%n+1)%n = i.val
  rw [mod_add_mod,whole,add_mod_right,mod_eq_of_lt small]

namespace Node
def index (v : Node n) : Nat := v.row*n+v.column

def move (v : Node n) : Hop → Node n
  | .north => ⟨before v.row,v.column⟩
  | .east => ⟨v.row,after v.column⟩
  | .south => ⟨after v.row,v.column⟩
  | .west => ⟨v.row,before v.column⟩

def along (v : Node n) (hops : List Hop) : Node n := hops.foldl move v

theorem index_injective {v w : Node n} (same : v.index = w.index) : v = w := by
  obtain ⟨i,j⟩ := v
  obtain ⟨i',j'⟩ := w
  have positive := zero_lt_of_lt j.isLt
  have rows := congrArg (· / n) same
  have columns := congrArg (· % n) same
  simp only [index,mul_comm _ n,mul_add_div positive,mul_add_mod,div_eq_of_lt j.isLt,
    div_eq_of_lt j'.isLt,mod_eq_of_lt j.isLt,mod_eq_of_lt j'.isLt] at rows columns
  rw [Fin.ext rows,Fin.ext columns]
end Node

def Hop.back : Hop → Hop
  | north => south
  | east => west
  | south => north
  | west => east

theorem Hop.back_back (h : Hop) : h.back.back = h := by
  cases h <;> rfl

theorem Node.move_back (v : Node n) (h : Hop) : (v.move h).move h.back = v := by
  cases h with
  | north => exact congrArg (Node.mk · v.column) (after_before v.row)
  | east => exact congrArg (Node.mk v.row) (before_after v.column)
  | south => exact congrArg (Node.mk · v.column) (before_after v.row)
  | west => exact congrArg (Node.mk v.row) (after_before v.column)

theorem Node.along_surjective (w : Node n) (hops : List Hop) : ∃ v : Node n, v.along hops = w := by
  induction hops with
  | nil => exact ⟨w,rfl⟩
  | cons h rest ih =>
    obtain ⟨v,reached⟩ := ih
    have moved := v.move_back h.back
    rw [h.back_back] at moved
    refine ⟨v.move h.back,?_⟩
    rw [Node.along,foldl_cons,moved]
    exact reached

theorem Node.along_next (v : Node n) (hops : List Hop) (next : hops[m]? = some h) :
    v.along (hops.take (m+1)) = (v.along (hops.take m)).move h := by
  rw [take_add_one,next,Node.along,foldl_append]
  rfl

def Node.link (v : Node n) (h : Hop) : Link := (((v.move h).index,h.entry),(v.index,h.exit))

def Node.links (v : Node n) : List Link :=
  connect v.index .EAST (v.move .east).index .WEST ++ connect v.index .SOUTH (v.move .south).index .NORTH

theorem mem_connections : link ∈ connections n ↔ ∃ v : Node n, link ∈ v.links := by
  constructor
  · intro member
    obtain ⟨i,row,member⟩ := mem_flatMap.mp member
    obtain ⟨j,column,member⟩ := mem_flatMap.mp member
    exact ⟨⟨⟨i,mem_range.mp row⟩,⟨j,mem_range.mp column⟩⟩,member⟩
  · rintro ⟨⟨i,j⟩,member⟩
    exact mem_flatMap.mpr ⟨i,mem_range.mpr i.isLt,mem_flatMap.mpr ⟨j,mem_range.mpr j.isLt,member⟩⟩

theorem mem_links (v : Node n) :
    link ∈ v.links ↔ link = (v.move .east).link .west ∨ link = v.link .east ∨
      link = (v.move .south).link .north ∨ link = v.link .south := by
  have west : (v.move .east).move .west = v := v.move_back .east
  have north : (v.move .south).move .north = v := v.move_back .south
  simp only [Node.link,west,north,Node.links,connect,mem_append,mem_cons,not_mem_nil,or_false,or_assoc]
  rfl

theorem link_connected (v : Node n) (h : Hop) : v.link h ∈ connections n := by
  apply mem_connections.mpr
  have back := v.move_back h
  cases h with
  | north => exact ⟨v.move .north,(mem_links _).mpr (.inr (.inr (.inl (congrArg (Node.link · .north) back.symm))))⟩
  | east => exact ⟨v,(mem_links v).mpr (.inr (.inl rfl))⟩
  | south => exact ⟨v,(mem_links v).mpr (.inr (.inr (.inr rfl)))⟩
  | west => exact ⟨v.move .west,(mem_links _).mpr (.inl (congrArg (Node.link · .west) back.symm))⟩

theorem connected_link (member : link ∈ connections n) : ∃ (v : Node n) (h : Hop), link = v.link h := by
  obtain ⟨v,member⟩ := mem_connections.mp member
  rcases (mem_links v).mp member with here | here | here | here
  · exact ⟨_,_,here⟩
  · exact ⟨_,_,here⟩
  · exact ⟨_,_,here⟩
  · exact ⟨_,_,here⟩

theorem lookup_only [BEq κ] [LawfulBEq κ] {pairs : List (κ × β)} (member : (k,b) ∈ pairs)
    (only : ∀ c, (k,c) ∈ pairs → c = b) : pairs.lookup k = some b := by
  induction pairs with
  | nil => cases member
  | cons pair rest ih =>
    obtain ⟨key,value⟩ := pair
    by_cases here : k = key
    · subst here
      rw [lookup_cons_self,only value mem_cons_self]
    · rw [lookup_cons,beq_false_of_ne here]
      have later : (k,b) ∈ rest := by
        rcases mem_cons.mp member with first | later
        · exact absurd (congrArg Prod.fst first) here
        · exact later
      exact ih later fun c found => only c (mem_cons_of_mem _ found)

theorem driver_hop (v : Node n) (h : Hop) : driver n (v.move h).index h.entry = .inl (v.index,h.exit) := by
  have found : (connections n).lookup ((v.move h).index,h.entry) = some (v.index,h.exit) := by
    apply lookup_only (link_connected v h)
    intro other member
    obtain ⟨w,g,same⟩ := connected_link member
    obtain rfl := Hop.entry_injective (congrArg (fun l : Link => l.1.2) same)
    have moved := Node.index_injective (congrArg (fun l : Link => l.1.1) same)
    have node : v = w := by rw [← v.move_back h,← w.move_back h,moved]
    rw [node]
    exact congrArg Prod.snd same
  rw [driver,found]

theorem driver_local (v : Node n) : driver n v.index .LOCAL = .inr v.index := by
  have missing : (connections n).lookup (v.index,.LOCAL) = none := by
    apply lookup_eq_none_iff.mpr
    intro link member
    obtain ⟨w,h,rfl⟩ := connected_link member
    apply bne_iff_ne.mpr
    intro same
    cases h <;> cases congrArg Prod.snd same
  rw [driver,missing]

structure Run (α : Type) (n : Nat) (schedule : Schedule) where
  reset : Network α
  inject : Nat → Nat → SingleChannel α
  begun : (network n schedule).start reset

namespace Run
section
variable {n : Nat} {schedule : Schedule} (x : Run α n schedule)

def state (t : Nat) : Network α := (network n schedule).states x.reset x.inject t

def slot (t r : Nat) : Nat := (x.state t r).regDelay

def copied (t : Nat) (register : Nat × Port) : (Nat × Port) ⊕ Nat :=
  driver n register.1 (schedule.entries (x.slot t register.1) register.2)

-- The content that router w presents locally after cycle t is what node v was given in cycle k.
def Presents (w : Node n) (t : Nat) (v : Node n) (k : Nat) : Prop := origin x.copied (t+1) (w.index,.LOCAL) = .inr (k,v.index)
end

variable {n : Nat} {schedule : Schedule} {x : Run α n schedule}

theorem out_origin (t r : Nat) (p : Port) :
    (x.state t r).out p =
      (origin x.copied t (r,p)).elim (fun y => (x.reset y.1).out y.2) fun word => x.inject word.1 word.2 := by
  rw [← values_origin _ fun y : Nat × Port => (x.reset y.1).out y.2]
  induction t generalizing r p with
  | zero => rfl
  | succ t ih =>
    have step : (x.state (t+1) r).out p =
        (x.copied t (r,p)).elim (fun link => (x.state t link.1).out link.2) (x.inject t) := rfl
    rw [step,values]
    cases x.copied t (r,p) with
    | inl link => exact ih link.1 link.2
    | inr r => rfl

section
variable (positive : 0 < schedule.length)
include positive

theorem regCounter_at (t r : Nat) : (x.state t r).regCounter = t % schedule.length := by
  induction t with
  | zero => exact (x.begun r).1.trans (zero_mod _).symm
  | succ t ih =>
    have step : (x.state (t+1) r).regCounter =
        if (x.state t r).regCounter = schedule.length-1 then 0
        else ((x.state t r).regCounter+1) % 2^Register.log2Up schedule.length := rfl
    rw [step,ih]
    exact Register.counter_next positive t

theorem slot_at (t r : Nat) : x.slot t r = (t-1) % schedule.length := by
  cases t with
  | zero => exact (x.begun r).2.1.trans (zero_mod _).symm
  | succ t => exact regCounter_at positive t r

theorem slot_after (slot : x.slot (k+1) r = s) (more : s+m < schedule.length) (r' : Nat) : x.slot (k+1+m) r' = s+m := by
  rw [slot_at positive,Nat.add_sub_cancel] at slot
  rw [slot_at positive,Nat.add_right_comm,Nat.add_sub_cancel,← Nat.mod_add_mod,slot,Nat.mod_eq_of_lt more]

theorem slot_back (slot : x.slot t r = s+m) (r' : Nat) : ∃ u, t = u+m ∧ x.slot u r' = s := by
  rw [slot_at positive] at slot
  have whole := mod_add_div (t-1) schedule.length
  have below := mod_lt (t-1) positive
  rw [slot] at whole below
  refine ⟨t-m,by omega,?_⟩
  rw [slot_at positive,show t-m-1 = s+schedule.length*((t-1)/schedule.length) by omega,add_mul_mod_self_left,
    mod_eq_of_lt (by omega)]
end

variable {table : PathTable} (realises : schedule.Realises table)
include realises

-- An output that no path uses copies the input from the north.
theorem unused_copies {v : Node n} (free : ∀ p ∈ table.paths, p.output (x.slot t v.index) ≠ some target) :
    x.copied t (v.index,target) = .inl ((v.move .north).index,.SOUTH) := by
  have moved : (v.move .north).move .south = v := v.move_back .north
  have crossed := driver_hop (v.move .north) .south
  rw [moved] at crossed
  rw [copied,realises.free free]
  exact crossed

-- Without southward hops the outputs to the south hand down what they held on reset.
theorem south_quiet (none : ∀ p ∈ table.paths, .south ∉ p.hops) (v : Node n) (t : Nat) :
    ∃ y, origin x.copied t (v.index,.SOUTH) = .inl y := by
  induction t generalizing v with
  | zero => exact ⟨_,rfl⟩
  | succ t ih =>
    rw [origin_moved (unused_copies realises fun p member used => none p member (p.output_south used))]
    exact ih _

theorem carried (member : p ∈ table.paths) (v : Node n) (within : m ≤ p.hops.length)
    (slot : x.slot t (v.along (p.hops.take m)).index = p.start+m) :
    ∃ k, t = k+m ∧ x.slot k v.index = p.start ∧
      origin x.copied (t+1) ((v.along (p.hops.take m)).index,outputAt p.hops m) = .inr (k,v.index) := by
  have positive := zero_lt_of_lt (realises.long p member)
  induction m generalizing t with
  | zero =>
    refine ⟨t,rfl,slot,origin_taken ?_⟩
    rw [copied,slot,realises.used member (p.move_at within)]
    exact driver_local v
  | succ m ih =>
    obtain ⟨h,next⟩ : ∃ h, p.hops[m]? = some h := ⟨_,getElem?_eq_getElem within⟩
    have moved := v.along_next p.hops next
    obtain ⟨u,rfl,before⟩ := slot_back (s := p.start+m) (m := 1) positive slot (v.along (p.hops.take m)).index
    obtain ⟨k,rfl,started,origin⟩ := ih (le_of_succ_le within) before
    refine ⟨k,rfl,started,?_⟩
    have crossed : x.copied (k+m+1) ((v.along (p.hops.take (m+1))).index,outputAt p.hops (m+1)) =
        .inl ((v.along (p.hops.take m)).index,outputAt p.hops m) := by
      rw [copied,slot,realises.used member (p.move_at within),moved]
      simp only [inputAt,outputAt,next]
      exact driver_hop _ h
    rw [origin_moved crossed]
    exact origin

theorem exit_presents (member : p ∈ table.paths) (v : Node n) (slot : x.slot t (v.along p.hops).index = p.exit) :
    ∃ k, t = k+p.hops.length ∧ x.slot k v.index = p.start ∧ x.Presents (v.along p.hops) t v k := by
  have whole : p.hops.take p.hops.length = p.hops := take_length
  have last : outputAt p.hops p.hops.length = .LOCAL := by simp [outputAt]
  have ended := @carried _ _ _ x _ realises p p.hops.length t member v le_rfl
  rw [whole,last] at ended
  exact ended slot

theorem presented_path (none : ∀ p ∈ table.paths, .south ∉ p.hops) (w : Node n) (t : Nat) :
    (∃ y, origin x.copied (t+1) (w.index,.LOCAL) = .inl y) ∨
      ∃ p ∈ table.paths, ∃ v k, t = k+p.hops.length ∧ w = v.along p.hops ∧ x.slot t w.index = p.exit ∧
        x.slot k v.index = p.start ∧ x.Presents w t v k := by
  by_cases exits : ∃ p ∈ table.paths, x.slot t w.index = p.exit
  · obtain ⟨p,member,slot⟩ := exits
    obtain ⟨v,rfl⟩ := w.along_surjective p.hops
    obtain ⟨k,late,started,presents⟩ := exit_presents realises member v slot
    exact .inr ⟨p,member,v,k,late,rfl,slot,started,presents⟩
  · left
    rw [origin_moved (unused_copies realises fun p member used => exits ⟨p,member,p.output_local used⟩)]
    exact south_quiet realises none _ t

-- The word in an output that a path uses was given in the start slot of the path, in another cycle than the first.
theorem used_given (member : p ∈ table.paths) (w : Node n) (used : p.output (x.slot (t+1) w.index) = some target) :
    ∃ q ∈ table.paths, ∃ (v : Node n) (k : Nat), x.slot (k+1) v.index = q.start ∧
      origin x.copied (t+2) (w.index,target) = .inr (k+1,v.index) := by
  obtain ⟨m,within,slot,rfl⟩ := p.output_some used
  obtain ⟨v,rfl⟩ := w.along_surjective (p.hops.take m)
  obtain ⟨k,late,started,came⟩ := carried realises member v within slot
  have past := mod_le t schedule.length
  rw [slot_at (zero_lt_of_lt (realises.long p member)),Nat.add_sub_cancel] at slot
  obtain ⟨i,rfl⟩ : ∃ i, k = i+1 := ⟨k-1,by omega⟩
  exact ⟨p,member,v,i,started,came⟩

-- Once a path has gone south, the outputs to the south hold such words for ever.
theorem south_given (member : p ∈ table.paths) (south : .south ∈ p.hops) (late : p.exit ≤ t) (w : Node n) :
    ∃ q ∈ table.paths, ∃ (v : Node n) (k : Nat), x.slot (k+1) v.index = q.start ∧
      origin x.copied (t+2) (w.index,.SOUTH) = .inr (k+1,v.index) := by
  have long := realises.long p member
  obtain ⟨m,hop⟩ := getElem?_of_mem south
  obtain ⟨short,-⟩ := List.getElem?_eq_some_iff.mp hop
  unfold Path.exit at late long
  have early : p.start+m ≤ t := by omega
  clear late
  induction t, early using le_induction generalizing w with
  | base =>
    refine used_given realises member w ?_
    rw [slot_at (zero_lt_of_lt long),Nat.add_sub_cancel,mod_eq_of_lt (by omega),Path.output,p.move_at short.le,outputAt,hop]
    rfl
  | succ t _ ih =>
    by_cases used : ∃ q ∈ table.paths, q.output (x.slot (t+2) w.index) = some .SOUTH
    · obtain ⟨q,inside,used⟩ := used
      exact used_given realises inside w used
    · rw [origin_moved (unused_copies realises fun q inside now => used ⟨q,inside,now⟩)]
      exact ih _

-- In a slot without an exit such a word is presented, wherever its path leads.
theorem south_repeats (member : p ∈ table.paths) (south : .south ∈ p.hops) (w : Node n) :
    ∃ q ∈ table.paths, ∃ (v : Node n) (k t : Nat), x.slot (k+1) v.index = q.start ∧ x.Presents w t v (k+1) ∧
      x.slot t w.index ≠ q.exit := by
  have long := realises.long p member
  have positive := zero_lt_of_lt long
  obtain ⟨slot,early,free⟩ := table.free_slot member (ne_nil_of_mem south)
  have rounds : p.exit+1 ≤ schedule.length*(p.exit+1) := Nat.le_mul_of_pos_left _ positive
  obtain ⟨t,late⟩ : ∃ t, schedule.length*(p.exit+1)+slot = t+1 := ⟨_,(Nat.sub_add_cancel (by omega)).symm⟩
  have now : x.slot (t+2) w.index = slot := by
    unfold Path.exit at long
    rw [slot_at positive,show t+2-1 = t+1 from rfl,← late,mul_add_mod,mod_eq_of_lt (by omega)]
  obtain ⟨q,inside,v,k,started,came⟩ := south_given realises member south (show p.exit ≤ t by omega) (w.move .north)
  refine ⟨q,inside,v,k,t+2,started,?_,now ▸ (free q inside).symm⟩
  rw [Presents,origin_moved (unused_copies realises fun q other used => free q other ((q.output_local used).symm.trans now))]
  exact came
end Run

-- The word given to node v in the start slot of a path is presented once: in the exit slot, at the end of the path.
-- Nothing else is presented.
def Delivers (n : Nat) (table : PathTable) : Prop :=
  ∃ schedule, Schedule.getSchedule table.text = some schedule ∧ ∀ (α : Type) (x : Run α n schedule),
    (∀ p ∈ table.paths, ∀ (v : Node n) (k : Nat), x.slot (k+1) v.index = p.start → (x.inject (k+1) v.index).valid = true →
      x.slot (k+1+p.hops.length) (v.along p.hops).index = p.exit ∧
      (x.state (k+1+p.hops.length+1) (v.along p.hops).index).out .LOCAL = x.inject (k+1) v.index ∧
      ∀ (w : Node n) (t : Nat), x.Presents w t v (k+1) ↔ w = v.along p.hops ∧ t = k+1+p.hops.length) ∧
    ∀ (w : Node n) (t : Nat), ((x.state (t+1) w.index).out .LOCAL).valid = true →
      ∃ p ∈ table.paths, ∃ (v : Node n) (k : Nat), t = k+p.hops.length ∧ w = v.along p.hops ∧ x.slot t w.index = p.exit ∧
        x.slot k v.index = p.start ∧ (x.state (t+1) w.index).out .LOCAL = x.inject k v.index

theorem delivers_without_south (n : Nat) {table : PathTable} (ranged : table.InRange)
    (none : ∀ p ∈ table.paths, .south ∉ p.hops) : Delivers n table := by
  obtain ⟨schedule,returned⟩ := Option.isSome_iff_exists.mp ((Schedule.getSchedule_returns table).mpr ranged)
  have realises := Schedule.getSchedule_realises table returned
  refine ⟨schedule,returned,fun α x => ⟨fun p member v k started _ => ?_,fun w t valid => ?_⟩⟩
  · have long := realises.long p member
    have slot := Run.slot_after (zero_lt_of_lt long) started long (v.along p.hops).index
    obtain ⟨first,late,-,presents⟩ := Run.exit_presents realises member v slot
    obtain rfl : first = k+1 := (add_right_cancel late).symm
    refine ⟨slot,?_,fun w t => ⟨fun presented => ?_,?_⟩⟩
    · rw [Run.out_origin,presents]
      rfl
    · rcases Run.presented_path realises none w t with ⟨y,still⟩ | ⟨q,other,u,i,rfl,rfl,_,began,came⟩
      · cases presented.symm.trans still
      · obtain ⟨rfl,node⟩ := Prod.mk.inj (Sum.inr.inj (presented.symm.trans came))
        obtain rfl := Node.index_injective node
        obtain rfl := table.start_unique member other (started.symm.trans began)
        exact ⟨rfl,rfl⟩
    · rintro ⟨rfl,rfl⟩
      exact presents
  · rcases Run.presented_path realises none w t with ⟨y,still⟩ | ⟨p,member,v,k,late,last,slot,started,presents⟩
    · rw [Run.out_origin,still] at valid
      cases (x.begun y.1).2.2 y.2 ▸ valid
    · refine ⟨p,member,v,k,late,last,slot,started,?_⟩
      rw [Run.out_origin,presents]
      rfl

theorem s4noc_delivers (table : PathTable) (n : Nat) (nodes : 0 < n) :
    Delivers n table ↔ table.InRange ∧ ∀ p ∈ table.paths, .south ∉ p.hops := by
  constructor
  · rintro ⟨schedule,returned,delivers⟩
    refine ⟨(Schedule.getSchedule_returns table).mp (returned ▸ rfl),fun p member south => ?_⟩
    let x : Run Unit n schedule := ⟨fun _ => ⟨0,0,fun _ => ⟨(),false⟩⟩,fun _ _ => ⟨(),true⟩,fun _ => ⟨rfl,rfl,fun _ => rfl⟩⟩
    obtain ⟨q,other,v,k,t,started,presents,elsewhere⟩ := x.south_repeats (Schedule.getSchedule_realises table returned)
      member south ⟨⟨0,nodes⟩,⟨0,nodes⟩⟩
    obtain ⟨slot,-,once⟩ := (delivers Unit x).1 q other v k started rfl
    obtain ⟨node,rfl⟩ := (once _ t).mp presents
    exact elsewhere (node ▸ slot)
  · rintro ⟨ranged,none⟩
    exact delivers_without_south n ranged none

-- The schedules of the 2x2 and the 3x3 network.
def fourNodes : PathTable where
  paths := [⟨0,[.north,.east]⟩,⟨2,[.north]⟩,⟨3,[.east]⟩]
  filled := by decide
  startsDistinct := by decide
  conflictFree := by decide

def nineNodes : PathTable where
  paths := [⟨0,[.north,.east]⟩,⟨1,[.north,.west]⟩,⟨2,[.east,.south]⟩,⟨3,[.west,.south]⟩,⟨5,[.north]⟩,⟨6,[.east]⟩,
    ⟨7,[.south]⟩,⟨8,[.west]⟩]
  filled := by decide
  startsDistinct := by decide
  conflictFree := by decide

example : fourNodes.text = "nel|  nl|   el|".toList := by decide
example : nineNodes.text = "nel| nwl|  esl|   wsl|     nl|      el|       sl|        wl|".toList := by decide

-- One word is injected.
def single (n : Nat) (schedule : Schedule) (k v word : Nat) : Run Nat n schedule where
  reset _ := ⟨0,0,fun _ => ⟨0,false⟩⟩
  inject t r := ⟨word,t = k ∧ r = v⟩
  begun _ := ⟨rfl,rfl,fun _ => rfl⟩

theorem s4noc_delivers_four :
    ∃ schedule, Schedule.getSchedule fourNodes.text = some schedule ∧ ((single 2 schedule 1 0 7).state 4 3).out .LOCAL = ⟨7,true⟩ := by
  obtain ⟨schedule,returned,delivers⟩ := (s4noc_delivers fourNodes 2 (by decide)).mpr
    ⟨by simp [PathTable.InRange,Turns,fourNodes,Path.exit],by decide⟩
  obtain ⟨_,word,_⟩ := (delivers Nat (single 2 schedule 1 0 7)).1 ⟨0,[.north,.east]⟩ (by decide) ⟨0,0⟩ 0 rfl rfl
  exact ⟨schedule,returned,word⟩

-- In the 3x3 network a word that leaves node 0 for its southern neighbour is also presented at node 0. A word given in
-- the first cycle of all meets slot 0 twice and is not passed on.
theorem nine_duplicates :
    (Schedule.getSchedule nineNodes.text).map (fun schedule => ((single 3 schedule 8 0 7).slot 8 0,
        ((single 3 schedule 8 0 7).state 10 3).out .LOCAL,((single 3 schedule 8 0 7).state 12 0).out .LOCAL)) =
          some (7,⟨7,true⟩,⟨7,true⟩) ∧
      (Schedule.getSchedule fourNodes.text).map (fun schedule => ((single 2 schedule 0 0 7).slot 0 0,
        (((single 2 schedule 0 0 7).state 3 3).out .LOCAL).valid)) = some (0,false) := by
  decide +kernel
end Patmos.S4noc
