import Patmos.MemBlock
import Patmos.CacheLines
namespace Patmos
open Geometry BurstMemory

-- The tag memory, the valid bits and the byte-wide data memories that every data cache has once for each way.
structure Way where
  tagMem : MemBlock Nat
  tagVMem : Nat → Bool
  tagV : Bool
  mem : Fin 4 → MemBlock (BitVec 8)

namespace Way
-- One cycle at the memories of a way: the address looked up, the cell read, the write port, and what happens to the
-- valid bits. Of these, a fill error overrides an allocation and an invalidation overrides both.
structure Port where
  lookup : Nat
  rdAddr : Nat
  wrEna : ByteEn 4
  wrAddr : Nat
  wrData : Word 4
  addr : Nat
  allocate : Bool
  drop : Bool
  invalidate : Bool

section
variable (g : Geometry) (w : Way) (p : Port) (ram : Nat → Word 4)

def tagValid (addr : Nat) : Bool := w.tagV && w.tagMem.rdData == g.tag addr
def rdData (w : Way) : Word 4 := fun i => (w.mem i).rdData
def content (cell : Nat) : Word 4 := fun i => (w.mem i).mem cell

def next (g : Geometry) (w : Way) (p : Port) : Way where
  tagMem := w.tagMem.next (g.index p.lookup) p.allocate (g.index p.addr) (g.tag p.addr)
  tagVMem idx :=
    if p.invalidate then false
    else if idx = g.index p.addr ∧ p.drop then false
    else if idx = g.index p.addr ∧ p.allocate then true else w.tagVMem idx
  tagV := w.tagVMem (g.index p.lookup)
  mem i := (w.mem i).next p.rdAddr (p.wrEna i) p.wrAddr (p.wrData i)

theorem content_next (cell : Nat) : (w.next g p).content cell =
      if cell = p.wrAddr then merge (w.content cell) p.wrData p.wrEna else w.content cell := by
  funext i
  simp only [content,next,MemBlock.mem_next]
  by_cases here : cell = p.wrAddr
  · simp [here,merge,content]
  · simp [here,content]

theorem content_kept {g : Geometry} {w : Way} {p : Port} (quiet : ∀ i, p.wrEna i = false) : (w.next g p).content = w.content := by
  funext cell
  rw [content_next]
  have same : merge (w.content cell) p.wrData p.wrEna = w.content cell := by
    funext i
    simp [merge,quiet i]
  rw [same,ite_self]

theorem rdData_next : (w.next g p).rdData = (w.next g p).content p.rdAddr := by
  funext i
  exact MemBlock.rdData_next _ _ _ _ _

theorem tag_next (idx : Nat) : (w.next g p).tagMem.mem idx =
    if p.allocate ∧ idx = g.index p.addr then g.tag p.addr else w.tagMem.mem idx :=
  MemBlock.mem_next _ _ _ _ _ _

theorem valid_before {g : Geometry} {w : Way} {p : Port} (other : ¬(p.allocate = true ∧ idx = g.index p.addr))
    (valid : (w.next g p).tagVMem idx = true) : w.tagVMem idx = true := by
  simp only [next] at valid
  split at valid
  · cases valid
  · split at valid
    · cases valid
    · split at valid
      · rename_i allocated
        exact absurd allocated.symm other
      · exact valid

theorem valid_kept {g : Geometry} {w : Way} {p : Port} (still : p.allocate = false) (valid : (w.next g p).tagVMem idx = true) :
    w.tagVMem idx = true :=
  valid_before (fun both => by simp [still] at both) valid

def Coherent (g : Geometry) (w : Way) (content : Nat → Word 4) (ram : Nat → Word 4) : Prop :=
  g.Coherent w.tagVMem w.tagMem.mem content ram

-- What the registered outputs of a way say about the address looked up.
structure Lookup (addr : Nat) : Prop where
  seen : w.tagVMem (g.index addr) = true → w.tagV = true
  line : w.tagV = true → g.Line w.content (w.tagMem.mem (g.index addr)) ram (g.index addr)
  tag : w.tagMem.rdData = w.tagMem.mem (g.index addr)
  word : w.rdData = w.content (g.cell addr)

theorem Lookup.hit {g : Geometry} {w : Way} {ram : Nat → Word 4} (lookup : Lookup g w ram addr) :
    w.tagValid g addr = true ↔ w.tagV = true ∧ w.tagMem.mem (g.index addr) = g.tag addr := by
  simp [tagValid,lookup.tag]

theorem Lookup.data {g : Geometry} {w : Way} {ram : Nat → Word 4} (lookup : Lookup g w ram addr)
    (hit : w.tagValid g addr = true) : w.rdData = ram (addr/4) := by
  obtain ⟨valid,tag⟩ := lookup.hit.1 hit
  rw [lookup.word]
  exact line_read (lookup.line valid) tag

def Survives : Prop :=
  ∀ idx < g.lines, w.tagVMem idx = true → g.Line (w.next g p).content ((w.next g p).tagMem.mem idx) ram idx
end

section
variable {g : Geometry} {w : Way} {p : Port} {ram : Nat → Word 4} (still : p.allocate = false)
include still

theorem survives_coherent (survives : Survives g w p ram) : Coherent g (w.next g p) (w.next g p).content ram :=
  fun idx inside valid => survives idx inside (valid_kept still valid)

theorem survives_lookup (reads : p.rdAddr = g.cell p.lookup) (survives : Survives g w p ram) : Lookup g (w.next g p) ram p.lookup where
  seen valid := valid_kept still valid
  line valid := survives _ (g.index_lt _) valid
  tag := MemBlock.rdData_next _ _ _ _ _
  word := by rw [rdData_next,reads]

theorem survives_quiet (quiet : ∀ i, p.wrEna i = false) (coherent : Coherent g w w.content ram) : Survives g w p ram := by
  intro idx inside valid
  rw [content_kept quiet,tag_next,still]
  simpa using coherent idx inside valid

theorem survives_store (coherent : Coherent g w w.content ram) (lookup : Lookup g w ram addr) (byteEn : ByteEn 4)
    (target : p.wrAddr = g.cell addr) (enabled : p.wrEna = fun i => w.tagValid g addr && byteEn i) :
    Survives g w p (store ram addr p.wrData byteEn) := by
  intro idx inside valid
  rw [tag_next,still]
  have stored : (w.next g p).content = fun cell =>
      if cell = g.cell addr then merge (w.content cell) p.wrData p.wrEna else w.content cell := by
    funext cell
    rw [content_next,target]
  rw [stored]
  have line := coherent idx inside valid
  refine line_store inside line p.wrData byteEn p.wrEna addr (fun here same => ?_) (fun here other i => ?_)
  · subst here
    have hit := lookup.hit.2 ⟨lookup.seen valid,same⟩
    simp [enabled,hit]
  · subst here
    have miss : w.tagValid g addr = false := by
      by_contra hit
      exact other (lookup.hit.1 (by simpa using hit)).2
    simp [enabled,miss]
end

theorem content_overlay {g : Geometry} {w : Way} {p : Port} (whole : ∀ i, p.wrEna i = ena) :
    (w.next g p).content = overlay w.content ena p.wrAddr p.wrData := by
  funext cell
  rw [content_next,show p.wrEna = fun _ => ena from funext whole]
  cases ena <;> simp [overlay]

def Filling (g : Geometry) (w : Way) (content : Nat → Word 4) (addr : Nat) (ram : Nat → Word 4) (beats : Nat) : Prop :=
  g.Filling w.tagVMem w.tagMem.mem content addr ram beats

section Filling
variable {g : Geometry} {w : Way} {p : Port} {content ram : Nat → Word 4}

theorem tags_kept (still : p.allocate = false) : (w.next g p).tagMem.mem = w.tagMem.mem := by
  funext idx
  rw [tag_next,still]
  simp

theorem filling_begins (coherent : Coherent g w content ram) (allocates : p.allocate = true) :
    Filling g (w.next g p) content p.addr ram 0 := by
  refine Geometry.filling_begins coherent (fun idx other => ⟨valid_before fun both => other both.2,?_⟩) ?_
  · rw [tag_next,if_neg fun both => other both.2]
  · rw [tag_next,if_pos ⟨allocates,rfl⟩]

theorem filling_next (filling : Filling g w content p.addr ram beats) (still : p.allocate = false) (arrives : Bool)
    (data : Word 4) (inside : arrives = true → beats < g.words)
    (good : arrives = true → p.drop = true ∨ data = ram (g.base p.addr + beats)) :
    Filling g (w.next g p) (overlay content arrives (g.index p.addr*g.words+beats) data) p.addr ram
      (if arrives then beats+1 else beats) := by
  unfold Filling
  rw [tags_kept still]
  refine Geometry.filling_next filling (fun _ => valid_kept still) arrives data inside fun arrived held => ?_
  refine (good arrived).resolve_left fun dropped => ?_
  simp [next,dropped] at held

theorem filling_done (filling : Filling g w content addr ram g.words) (still : p.allocate = false)
    (written : (w.next g p).content = content) : Survives g w p ram := by
  intro idx inside held
  rw [written,tags_kept still]
  exact Geometry.filling_done filling idx inside held
end Filling
end Way
end Patmos
