import Mathlib.Algebra.Order.Ring.Nat
import Mathlib.Data.BitVec
namespace Patmos.Noc
open BitVec Function List Nat

section
variable (k : Nat)

-- A memory of 2^k words. Its addresses wrap.
def store (m : Nat → BitVec 32) (i : Nat) (value : BitVec 32) : Nat → BitVec 32 := update m (i%2^k) value

def mark : BitVec 32 := 0xFFEEDDCC

-- One pass of the loop for each of the rounds left. In the last case i has been shifted before the word goes back.
def probe (failure : Int) (init : BitVec 32) : Nat → Nat → (Nat → BitVec 32) → Int × (Nat → BitVec 32)
  | 0,_,m => (-1,store k m 0 init)
  | rounds+1,i,m =>
    let tmp := m (i%2^k)
    let w := store k m i 0
    if w 0 = 0 then (i*4,store k (store k w i tmp) 0 init)
    else if w 0 ≠ mark then (failure,store k (store k w (i <<< 1) tmp) 0 init)
    else probe failure init rounds (i <<< 1) (store k w (i <<< 1) tmp)

def memSize (failure : Int) (m : Nat → BitVec 32) : Int × (Nat → BitVec 32) :=
  probe k failure (m 0) 28 2 (store k m 0 mark)

def findMemSize := memSize k (-1)
def testSpmSize := memSize k (-2)

def Probes (size : (Nat → BitVec 32) → Int × (Nat → BitVec 32)) (m : Nat → BitVec 32) : Prop :=
  (size m).1 = 4*2^k ∧ ∀ a < 2^k,(size m).2 a = m a

-- The words at the addresses that the probe clears.
def Blank (m : Nat → BitVec 32) : Prop := ∀ j,0 < j → j < k → m (2^j) = 0
end

-- The words at 2, 4 and so on as far as 2^j are cleared.
def cleared (m : Nat → BitVec 32) : Nat → Nat → BitVec 32
  | 0 => m
  | j+1 => update (cleared m j) (2^(j+1)) 0

theorem cleared_power (low : 0 < j) (high : j ≤ n) : cleared m n (2^j) = 0 := by
  induction n with
  | zero => omega
  | succ n ih =>
    rcases lt_or_eq_of_le high with below | rfl
    · rw [cleared,update_apply,ih (Nat.lt_succ_iff.mp below),ite_self]
    · exact update_self ..

theorem cleared_blank (blank : Blank (n+1) m) : cleared m n = m := by
  induction n with
  | zero => rfl
  | succ n ih =>
    rw [cleared,ih fun j low high => blank j low (Nat.lt_succ_of_lt high),← blank (n+1) n.succ_pos (Nat.lt_succ_self _)]
    exact update_eq_self ..

theorem probe_ends (failure : Int) (init : BitVec 32) (rounds : Nat) {m w : Nat → BitVec 32}
    (kept : ∀ a < 2^(n+1),a ≠ 0 → a ≠ 2^(j+1) → w a = cleared m j a) (inside : j ≤ n) (enough : n < j+rounds)
    (marked : j < n → w 0 = mark) :
    (probe (n+1) failure init rounds (2^(j+1)) w).1 = 4*2^(n+1) ∧
      ∀ a < 2^(n+1),(probe (n+1) failure init rounds (2^(j+1)) w).2 a = if a = 0 then init else cleared m n a := by
  induction rounds generalizing j w with
  | zero => omega
  | succ rounds ih =>
    unfold probe
    rcases lt_or_eq_of_le inside with below | rfl
    · have small : 2^(j+1) < 2^(n+1) := Nat.pow_lt_pow_right (by decide) (by omega)
      have index : 2^(j+1)%2^(n+1) = 2^(j+1) := mod_eq_of_lt small
      have first : store (n+1) w (2^(j+1)) 0 0 = mark := by
        rw [store,index,update_of_ne (Nat.two_pow_pos _).ne,marked below]
      have next : 2^(j+2)%2^(n+1) = if j+1 < n then 2^(j+2) else 0 := by
        split
        · exact Nat.mod_eq_of_lt (Nat.pow_lt_pow_right (by decide) (by omega))
        · rw [show n+1 = j+2 by omega,mod_self]
      dsimp only
      rw [first,if_neg (by decide),if_neg (not_not.mpr rfl),Nat.shiftLeft_eq,← Nat.pow_succ,index]
      refine ih (fun a bound nonzero other => ?_) below (by omega) fun more => ?_
      · rw [store,next,update_of_ne (by split <;> assumption),store,index,cleared,update_apply,update_apply]
        split
        · rfl
        case isFalse apart => exact kept a bound nonzero apart
      · rw [store,next,if_pos more,update_of_ne (Nat.two_pow_pos _).ne,first]
    · have first : store (j+1) w (2^(j+1)) 0 0 = 0 := by
        rw [store,mod_self,update_self]
      rw [if_pos first]
      refine ⟨by push_cast; exact mul_comm _ _,fun a bound => ?_⟩
      simp only [store,mod_self,zero_mod,update_apply]
      split
      · rfl
      case isFalse nonzero => exact kept a bound nonzero bound.ne

theorem probe_size (failure : Int) (m : Nat → BitVec 32) (most : n < 28) :
    (memSize (n+1) failure m).1 = 4*2^(n+1) ∧
      ∀ a < 2^(n+1),(memSize (n+1) failure m).2 a = if a = 0 then m 0 else cleared m n a :=
  probe_ends (j := 0) failure (m 0) 28 (fun _ _ nonzero _ => update_of_ne nonzero _ m) n.zero_le (by omega)
    fun _ => by rw [store,zero_mod,update_self]

theorem probes_iff (failure : Int) (m : Nat → BitVec 32) (most : n < 28) :
    Probes (n+1) (memSize (n+1) failure) m ↔ Blank (n+1) m := by
  obtain ⟨size,words⟩ := probe_size failure m most
  constructor
  · intro ⟨_,kept⟩ j low high
    have bound : 2^j < 2^(n+1) := Nat.pow_lt_pow_right (by decide) high
    have word := words _ bound
    rwa [kept _ bound,if_neg (Nat.two_pow_pos j).ne',cleared_power low (Nat.lt_succ_iff.mp high)] at word
  · refine fun blank => ⟨size,fun a bound => (words a bound).trans ?_⟩
    rw [cleared_blank blank]
    split
    case isTrue first => rw [first]
    · rfl

theorem sizes_probed (k : Nat) (m : Nat → BitVec 32) (some : 1 ≤ k) (most : k ≤ 28) :
    (Probes k (findMemSize k) m ↔ Blank k m) ∧ (Probes k (testSpmSize k) m ↔ Blank k m) := by
  obtain ⟨n,rfl⟩ := Nat.exists_eq_add_of_le' some
  exact ⟨probes_iff (-1) m most,probes_iff (-2) m most⟩

theorem sizes_probed_blank : Probes 4 (findMemSize 4) (fun _ => 0) :=
  (sizes_probed 4 (fun _ => 0) (by decide) (by decide)).1.mpr fun _ _ _ => rfl

theorem word_two_cleared : ¬Probes 2 (findMemSize 2) (fun _ => 1) := fun probes =>
  absurd (probes.2 2 (by decide)) (by decide)

-- What noc_init_array has for this core in one configuration.
structure Schedule where
  header : BitVec 32
  entry : Nat → BitVec 32

-- The words written to the schedule table, by index, and the pointers of each configuration.
structure Loaded where
  words : List (Nat × BitVec 32)
  pointers : List (BitVec 32)

-- schedule_entries is an unsigned short.
def Schedule.entries (c : Schedule) : Nat := (c.header.setWidth 16).toNat

def Schedule.words (c : Schedule) (base : Nat) : List (Nat × BitVec 32) :=
  (range c.entries).map fun i => (base+i,c.entry i)

def load (size : Nat) : Nat → List Schedule → Bool × Loaded
  | _,[] => (true,⟨[],[]⟩)
  | base,c :: rest =>
    if size ≤ base+c.entries then (false,⟨[],[]⟩)
    else
      let r := load size (base+c.entries) rest
      (r.1,⟨c.words base ++ r.2.words,(.ofNat 32 ((c.entries+base) <<< 16) ||| .ofNat 32 base) :: r.2.pointers⟩)

def kNocSchedLoad (k : Nat) (table : Nat → BitVec 32) (configs : List Schedule) : Bool × Loaded :=
  load (BitVec.ofInt 32 (findMemSize k table).1).toNat 0 configs

-- The lower half of a pointer is the first index, the upper half the one behind the last.
def Delimits : Nat → List Schedule → Loaded → Prop
  | _,[],t => t = ⟨[],[]⟩
  | base,c :: rest,t => ∃ words p pointers,t = ⟨c.words base ++ words,p :: pointers⟩ ∧ p.toNat%2^16 = base ∧
      p.toNat/2^16 = base+c.entries ∧ Delimits (base+c.entries) rest ⟨words,pointers⟩

def total (configs : List Schedule) : Nat := (configs.map Schedule.entries).sum

structure Contained (k : Nat) (configs : List Schedule) (r : Bool × Loaded) : Prop where
  distinct : r.1 = true → (r.2.words.map Prod.fst).Nodup
  delimits : r.1 = true → Delimits 0 configs r.2
  refused : 2^k ≤ total configs → r.1 = false
  inside : ∀ w ∈ r.2.words,w.1 < 2^k

-- Either all are taken and the table and the pointers have room for them, or those before the one that is refused fit.
def Fits (k : Nat) : Nat → List Schedule → Prop
  | base,[] => base < 2^k ∧ base < 2^16
  | base,c :: rest => if 4*2^k ≤ base+c.entries then base ≤ 2^k else Fits k (base+c.entries) rest

theorem pointer_halves (low : base < 2^16) (high : top < 2^16) :
    (BitVec.ofNat 32 (top <<< 16) ||| BitVec.ofNat 32 base).toNat%2^16 = base ∧
      (BitVec.ofNat 32 (top <<< 16) ||| BitVec.ofNat 32 base).toNat/2^16 = top := by
  have number : (BitVec.ofNat 32 (top <<< 16) ||| BitVec.ofNat 32 base).toNat = top*2^16+base := by
    rw [toNat_or,toNat_ofNat,toNat_ofNat,Nat.shiftLeft_eq,Nat.mod_eq_of_lt (show top*2^16 < 2^32 by omega),
      Nat.mod_eq_of_lt (show base < 2^32 by omega),← Nat.shiftLeft_eq,← Nat.shiftLeft_add_eq_or_of_lt low]
  omega

theorem load_spec (configs : List Schedule) (base : Nat) :
    ∃ n,(load (4*2^k) base configs).2.words.map Prod.fst = List.range' base n ∧
      ((load (4*2^k) base configs).1 = true → n = total configs ∧
        (base < 2^16 → (Delimits base configs (load (4*2^k) base configs).2 ↔ base+n < 2^16))) ∧
      (Fits k base configs ↔ base+n ≤ 2^k ∧ ((load (4*2^k) base configs).1 = true → base+n < 2^k ∧ base+n < 2^16)) := by
  induction configs generalizing base with
  | nil => exact ⟨0,rfl,fun _ => ⟨rfl,iff_of_true rfl⟩,⟨fun fits => ⟨fits.1.le,fun _ => fits⟩,fun held => held.2 rfl⟩⟩
  | cons c rest ih =>
    unfold load Fits
    split
    · exact ⟨0,rfl,nofun,⟨fun within => ⟨within,nofun⟩,And.left⟩⟩
    · obtain ⟨n,indices,complete,fits⟩ := ih (base+c.entries)
      refine ⟨c.entries+n,?_,fun done => ?_,by rwa [← add_assoc]⟩
      · rw [List.map_append,indices,Schedule.words,List.map_map,← List.range'_append_1,List.range'_eq_map_range (s := base)]
        rfl
      · obtain ⟨rfl,delimits⟩ := complete done
        refine ⟨rfl,fun low => ?_⟩
        rw [← add_assoc]
        constructor
        · rintro ⟨words,p,pointers,same,-,last,follow⟩
          obtain ⟨inside,here⟩ := Loaded.mk.inj same
          obtain ⟨-,rfl⟩ := List.cons.inj here
          obtain rfl := List.append_cancel_left inside
          exact (delimits (by omega)).mp follow
        · intro short
          obtain ⟨first,last⟩ := pointer_halves low (show c.entries+base < 2^16 by omega)
          exact ⟨_,_,_,rfl,first,last.trans (add_comm _ _),(delimits (by omega)).mpr short⟩

theorem schedules_contained (k : Nat) (table : Nat → BitVec 32) (configs : List Schedule) (some : 1 ≤ k) (most : k ≤ 28) :
    Contained k configs (kNocSchedLoad k table configs) ↔ Fits k 0 configs := by
  obtain ⟨n,rfl⟩ := Nat.exists_eq_add_of_le' some
  have bound : 2^(n+1) ≤ 2^28 := Nat.pow_le_pow_right (by decide) most
  have size : (BitVec.ofInt 32 (findMemSize (n+1) table).1).toNat = 4*2^(n+1) := by
    rw [findMemSize,(probe_size (-1) table most).1]
    norm_cast
    rw [BitVec.ofInt_natCast,BitVec.toNat_ofNat]
    omega
  obtain ⟨words,indices,complete,fits⟩ := load_spec (k := n+1) configs 0
  rw [Nat.zero_add] at complete fits
  rw [kNocSchedLoad,size,fits]
  constructor
  · refine fun contained => ⟨?_,fun done => ?_⟩
    · by_contra more
      obtain ⟨w,member,last⟩ := List.mem_map.mp (indices ▸ List.mem_range'_1.mpr ⟨Nat.zero_le (2^(n+1)),by omega⟩)
      exact (contained.inside w member).ne last
    · obtain ⟨rfl,delimits⟩ := complete done
      refine ⟨lt_of_not_ge fun needed => ?_,(delimits (by decide)).mp (contained.delimits done)⟩
      rw [contained.refused needed] at done
      cases done
  · refine fun ⟨within,whole⟩ => ⟨fun _ => indices ▸ List.nodup_range',
      fun done => ((complete done).2 (by decide)).mpr (whole done).2,fun needed => ?_,fun w member => ?_⟩
    · by_contra accepted
      have done := eq_true_of_ne_false accepted
      rw [← (complete done).1] at needed
      exact (whole done).1.not_ge needed
    · have index := List.mem_range'_1.mp (indices ▸ List.mem_map_of_mem (f := Prod.fst) member)
      omega

theorem schedules_contained_two : Contained 3 [⟨2,fun _ => 0⟩,⟨3,fun _ => 0⟩]
    (kNocSchedLoad 3 (fun _ => 0) [⟨2,fun _ => 0⟩,⟨3,fun _ => 0⟩]) :=
  (schedules_contained 3 (fun _ => 0) [⟨2,fun _ => 0⟩,⟨3,fun _ => 0⟩] (by decide) (by decide)).mpr (by simp [Fits,Schedule.entries])

-- Two words are all there is, and the size is taken for eight.
theorem schedule_overflows : ¬Contained 1 [⟨3,fun _ => 0⟩] (kNocSchedLoad 1 (fun _ => 0) [⟨3,fun _ => 0⟩]) :=
  fun contained => absurd (contained.refused (by decide)) (by decide)
end Patmos.Noc
