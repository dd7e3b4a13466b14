import Mathlib.Algebra.Group.Nat.Defs
import Mathlib.Data.Nat.Basic
namespace Patmos
open Nat

-- A cache of 2^indexBits lines of 2^wordBits words. Byte addresses split into tag, index, word offset and byte.
structure Geometry where
  indexBits : Nat
  wordBits : Nat

namespace Geometry
section
variable (g : Geometry) (addr : Nat)

def lines : Nat := 2^g.indexBits
def words : Nat := 2^g.wordBits
def offset : Nat := addr/4 % g.words
def index : Nat := addr/4/g.words % g.lines
def tag : Nat := addr/4/g.words/g.lines
def cell : Nat := addr/4 % (g.words*g.lines)

-- The word address of the first word of a line, from an address in the line or from its tag and index.
def base : Nat := addr/4/g.words*g.words
def block (tag index : Nat) : Nat := (tag*g.lines+index)*g.words
end

section
variable (g : Geometry)

theorem words_pos : 0 < g.words := Nat.two_pow_pos _
theorem lines_pos : 0 < g.lines := Nat.two_pow_pos _
theorem offset_lt (addr : Nat) : g.offset addr < g.words := mod_lt _ g.words_pos
theorem index_lt (addr : Nat) : g.index addr < g.lines := mod_lt _ g.lines_pos

theorem base_block (addr : Nat) : g.base addr = g.block (g.tag addr) (g.index addr) := by
  unfold base block tag index
  rw [div_add_mod']

theorem base_split (addr : Nat) : g.base addr + g.offset addr = addr/4 := div_add_mod' _ _

theorem address_split (addr : Nat) : g.block (g.tag addr) (g.index addr) + g.offset addr = addr/4 := by
  rw [← base_block,base_split]

theorem cell_split (addr : Nat) : g.cell addr = g.index addr*g.words + g.offset addr := by
  unfold cell index offset
  rw [mod_mul,mul_comm g.words,add_comm]
end

theorem quotient_exact (high : Nat) {rest n : Nat} (small : rest < n) : (high*n+rest)/n = high := by
  rw [mul_comm,mul_add_div (zero_lt_of_lt small),div_eq_of_lt small,add_zero]

theorem cell_injective (g : Geometry) (fits : off < g.words) (fits' : off' < g.words)
    (same : idx*g.words+off = idx'*g.words+off') : idx = idx' ∧ off = off' := by
  have index := quotient_exact idx fits
  rw [same,quotient_exact idx' fits'] at index
  subst index
  exact ⟨rfl,add_left_cancel same⟩

theorem block_injective (g : Geometry) (inside : idx < g.lines) (inside' : idx' < g.lines) (fits : off < g.words)
    (fits' : off' < g.words) (same : g.block t idx + off = g.block t' idx' + off') :
    t = t' ∧ idx = idx' ∧ off = off' := by
  obtain ⟨line,offset⟩ := g.cell_injective fits fits' same
  have tag := quotient_exact t inside
  rw [line,quotient_exact t' inside'] at tag
  subst tag
  exact ⟨rfl,add_left_cancel line,offset⟩
end Geometry
end Patmos
