import Patmos.BurstMemory
import Patmos.CacheGeometry
namespace Patmos.Geometry
open BurstMemory

section
variable (g : Geometry) (valid : Nat → Bool) (tags : Nat → Nat) (content : Nat → Word 4) (ram : Nat → Word 4)

-- A line of a cache is that part of the main memory its tag names.
def Line (tag : Nat) (ram : Nat → Word 4) (idx : Nat) : Prop :=
  ∀ off < g.words, content (idx*g.words+off) = ram (g.block tag idx + off)

def Coherent : Prop := ∀ idx < g.lines, valid idx = true → g.Line content (tags idx) ram idx

theorem line_read {g : Geometry} {content ram : Nat → Word 4} (line : g.Line content t ram (g.index addr))
    (match' : t = g.tag addr) : content (g.cell addr) = ram (addr/4) := by
  subst match'
  rw [g.cell_split,line _ (g.offset_lt addr),g.address_split]

theorem store_elsewhere (addr : Nat) (data : Word 4) (byteEn : ByteEn 4)
    (inside : idx < g.lines) (fits : off < g.words) (other : ¬(t = g.tag addr ∧ idx = g.index addr)) :
    store ram addr data byteEn (g.block t idx + off) = ram (g.block t idx + off) := by
  rw [store_apply,← g.address_split addr,if_neg]
  intro equal
  obtain ⟨rfl,rfl,_⟩ := g.block_injective inside (g.index_lt addr) fits (g.offset_lt addr) equal
  exact other ⟨rfl,rfl⟩

theorem line_store {g : Geometry} {content ram : Nat → Word 4} (inside : idx < g.lines) (line : g.Line content t ram idx)
    (data : Word 4) (byteEn wrEna : ByteEn 4) (addr : Nat)
    (here : idx = g.index addr → t = g.tag addr → wrEna = byteEn)
    (away : idx = g.index addr → t ≠ g.tag addr → ∀ i, wrEna i = false) :
    g.Line (fun cell => if cell = g.cell addr then merge (content cell) data wrEna else content cell) t
      (store ram addr data byteEn) idx := by
  intro off fits
  simp only
  rw [store_apply,g.cell_split,← g.address_split addr,line off fits]
  by_cases cell : idx*g.words+off = g.index addr*g.words+g.offset addr
  · obtain ⟨rfl,rfl⟩ := g.cell_injective fits (g.offset_lt addr) cell
    rw [if_pos rfl]
    by_cases same : t = g.tag addr
    · rw [here rfl same,same,if_pos rfl]
    · have other : ¬g.block t (g.index addr) + g.offset addr = g.block (g.tag addr) (g.index addr) + g.offset addr :=
        fun equal => same (g.block_injective inside inside fits fits equal).1
      rw [if_neg other]
      funext i
      simp [merge,away rfl same i]
  · have other : ¬g.block t idx + off = g.block (g.tag addr) (g.index addr) + g.offset addr := by
      intro equal
      obtain ⟨_,rfl,rfl⟩ := g.block_injective inside (g.index_lt addr) fits (g.offset_lt addr) equal
      exact cell rfl
    rw [if_neg cell,if_neg other]

-- The data memory as it will be when a pending word has been written.
def overlay (ena : Bool) (cell : Nat) (data : Word 4) : Nat → Word 4 := fun c => if ena ∧ c = cell then data else content c

theorem overlay_none (cell : Nat) (data : Word 4) : overlay content false cell data = content := by
  funext c
  simp [overlay]

-- A cache with a line of which the first beats have arrived. A beat that was an error has cleared the valid bit.
structure Filling (addr : Nat) (ram : Nat → Word 4) (beats : Nat) : Prop where
  others : ∀ idx < g.lines, idx ≠ g.index addr → valid idx = true → g.Line content (tags idx) ram idx
  tag : tags (g.index addr) = g.tag addr
  own : valid (g.index addr) = true → ∀ off < beats, content (g.index addr*g.words+off) = ram (g.base addr + off)
end

section Filling
variable {g : Geometry} {valid valid' : Nat → Bool} {tags tags' : Nat → Nat} {content ram : Nat → Word 4}

theorem filling_begins (coherent : g.Coherent valid tags content ram)
    (others : ∀ idx, idx ≠ g.index addr → (valid' idx = true → valid idx = true) ∧ tags' idx = tags idx)
    (tag : tags' (g.index addr) = g.tag addr) : g.Filling valid' tags' content addr ram 0 where
  others idx inside other held := by
    rw [(others idx other).2]
    exact coherent idx inside ((others idx other).1 held)
  tag := tag
  own _ _ early := absurd early (Nat.not_lt_zero _)

section
variable (filling : g.Filling valid tags content addr ram beats) (kept : ∀ idx, valid' idx = true → valid idx = true)
include filling kept

theorem filling_next (arrives : Bool) (data : Word 4) (inside : arrives = true → beats < g.words)
    (good : arrives = true → valid' (g.index addr) = true → data = ram (g.base addr + beats)) :
    g.Filling valid' tags (overlay content arrives (g.index addr*g.words+beats) data) addr ram
      (if arrives then beats+1 else beats) := by
  refine ⟨fun idx within other held off fits => ?_,filling.tag,fun held off early => ?_⟩
  · have elsewhere : ¬(arrives = true ∧ idx*g.words+off = g.index addr*g.words+beats) :=
      fun both => other (g.cell_injective fits (inside both.1) both.2).1
    simp only [overlay,if_neg elsewhere]
    exact filling.others idx within other (kept idx held) off fits
  · by_cases newest : arrives = true ∧ off = beats
    · obtain ⟨arrived,rfl⟩ := newest
      simpa [overlay,arrived] using good arrived held
    · have older : off < beats := by
        cases arrives with
        | false => exact early
        | true => exact Nat.lt_of_le_of_ne (Nat.le_of_lt_succ early) fun same => newest ⟨rfl,same⟩
      have elsewhere : ¬(arrives = true ∧ g.index addr*g.words+off = g.index addr*g.words+beats) :=
        fun both => newest ⟨both.1,Nat.add_left_cancel both.2⟩
      simp only [overlay,if_neg elsewhere]
      exact filling.own (kept _ held) off older

theorem filling_kept : g.Filling valid' tags content addr ram beats :=
  ⟨fun idx inside other held => filling.others idx inside other (kept idx held),filling.tag,fun held => filling.own (kept _ held)⟩
end

theorem filling_done (filling : g.Filling valid tags content addr ram g.words) : g.Coherent valid tags content ram := by
  intro idx inside held
  by_cases here : idx = g.index addr
  · subst here
    rw [filling.tag]
    intro off fits
    rw [← g.base_block]
    exact filling.own held off fits
  · exact filling.others idx inside here held
end Filling
end Patmos.Geometry
