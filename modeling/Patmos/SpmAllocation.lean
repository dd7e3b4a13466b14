import Mathlib.Data.List.Pairwise
import Patmos.TransitionSystem
namespace Patmos.SpmAllocation
open Transition

-- NOC_SPM_BASE and the size in bytes that test_spm_size has found.
structure Spm where
  base : Nat
  size : Nat

structure State where
  ptr : Nat
  results : List (Nat × Nat)

def walign (size : Nat) : Nat := (size+3)%2^32/4*4

section
variable (m : Spm)

-- The size is added to a pointer to words.
def limit : Nat := (m.base+4*m.size)%2^32

-- The new pointer, unless it returns NULL.
def mpAlloc (memPtr size : Nat) : Option Nat :=
  let newAddr := (memPtr+walign size)%2^32
  if newAddr < m.base then none else if limit m < newAddr then none else some newAddr

def next (s : State) (size : Nat) : State :=
  match mpAlloc m s.ptr size with
  | none => s
  | some newAddr => ⟨newAddr,(s.ptr,size) :: s.results⟩

-- mp_init allocates a barrier of one word first.
def system : System State Nat where
  start s := s = next m ⟨m.base,[]⟩ 4
  admits _ size := size < 2^32
  next s size := next m s size

-- Each result is with the size that was asked for.
structure Sound (s : State) : Prop where
  aligned : ∀ r ∈ s.results,r.1%4 = 0
  inside : ∀ r ∈ s.results,m.base ≤ r.1 ∧ r.1+r.2 ≤ m.base+m.size
  disjoint : s.results.Pairwise fun r q => r.1+r.2 ≤ q.1 ∨ q.1+q.2 ≤ r.1
  failed : ∀ size,mpAlloc m s.ptr size = none → next m s size = s

structure Placed : Prop where
  base : m.base%4 = 0
  size : m.size%4 = 0
  barrier : 4 ≤ m.size
  room : m.base+4*m.size < 2^32

-- The words fit in what is left, or not even in four times the memory.
def Modest (s : State) (size : Nat) : Prop :=
  size+3 < 2^32 ∧ (s.ptr+walign size ≤ m.base+m.size ∨
    m.base+4*m.size < s.ptr+walign size ∧ s.ptr+walign size < 2^32+m.base)

structure Valid (s : State) : Prop where
  aligned : s.ptr%4 = 0
  low : m.base ≤ s.ptr
  high : s.ptr ≤ m.base+m.size
  results : ∀ r ∈ s.results,r.1%4 = 0 ∧ m.base ≤ r.1 ∧ r.1+r.2 ≤ s.ptr
  disjoint : s.results.Pairwise fun r q => r.1+r.2 ≤ q.1 ∨ q.1+q.2 ≤ r.1
end

theorem alloc_exact {m : Spm} (placed : Placed m) (modest : Modest m s size)
    (granted : mpAlloc m s.ptr size = some newAddr) :
    newAddr = s.ptr+walign size ∧ newAddr ≤ m.base+m.size ∧ size ≤ walign size ∧ walign size%4 = 0 := by
  obtain ⟨short,left⟩ := modest
  have bound : limit m = m.base+4*m.size := Nat.mod_eq_of_lt placed.room
  have room := placed.room
  have rounded : walign size = (size+3)/4*4 := by rw [walign,Nat.mod_eq_of_lt short]
  unfold mpAlloc at granted
  dsimp only at granted
  split at granted
  · cases granted
  · split at granted
    · cases granted
    · cases granted
      omega

theorem alloc_valid {m : Spm} (placed : Placed m) (valid : Valid m s) (modest : Modest m s size) :
    Valid m (next m s size) := by
  unfold next
  split
  · exact valid
  case h_2 newAddr granted =>
    obtain ⟨rfl,inside,least,whole⟩ := alloc_exact placed modest granted
    obtain ⟨aligned,low,high,results,disjoint⟩ := valid
    refine ⟨?_,Nat.le_add_right_of_le low,inside,?_,?_⟩
    · rw [Nat.add_mod,aligned,whole]
    · rw [List.forall_mem_cons]
      refine ⟨⟨aligned,low,Nat.add_le_add_left least _⟩,fun r member => ?_⟩
      obtain ⟨word,first,last⟩ := results r member
      exact ⟨word,first,Nat.le_add_right_of_le last⟩
    · exact List.pairwise_cons.mpr ⟨fun r member => .inr (results r member).2.2,disjoint⟩

theorem allocations_sound (m : Spm) (placed : Placed m) (s : State)
    (path : Reached ((system m).restrict (Modest m)) s) : Sound m s := by
  have valid : Valid m s := by
    refine path.invariant (fun s start => ?_) fun s size valid admitted => alloc_valid placed valid admitted.2
    have begun : Valid m ⟨m.base,[]⟩ := ⟨placed.base,Nat.le_refl _,Nat.le_add_right _ _,nofun,.nil⟩
    subst start
    exact alloc_valid placed begun ⟨by decide,.inl (Nat.add_le_add_left placed.barrier _)⟩
  refine ⟨fun r member => (valid.results r member).1,fun r member => ?_,valid.disjoint,fun size failed => ?_⟩
  · obtain ⟨-,low,high⟩ := valid.results r member
    exact ⟨low,Nat.le_trans high valid.high⟩
  · rw [next,failed]

def spm : Spm := ⟨0xE8000000,4096⟩

theorem allocations_sound_twelve : Sound spm ⟨0xE8000010,[(0xE8000004,10),(0xE8000000,4)]⟩ :=
  allocations_sound spm ⟨by decide,by decide,by decide,by decide⟩ _
    (.step (m := (system spm).restrict (Modest spm)) (i := 10) (.start rfl)
      ⟨show 10 < 2^32 by decide,by decide,.inl (by decide)⟩)

theorem allocation_overruns : ¬∀ s,Reached (system spm) s → Sound spm s := fun sound =>
  absurd ((sound _ (.step (m := system spm) (i := 8192) (.start rfl) (show 8192 < 2^32 by decide))).inside (0xE8000004,8192) (by decide)).2 (by decide)
end Patmos.SpmAllocation
