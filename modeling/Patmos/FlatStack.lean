import Patmos.BurstMemory
namespace Patmos
def Agrees (known : Fin 4 → Option (BitVec 8)) (data : Word 4) : Prop := ∀ i value, known i = some value → data i = value

-- A memory with a stack that grows downwards to the byte address `top`. Each byte has its value if the program may rely
-- on one.
structure FlatStack where
  top : Nat
  bytes : Nat → Fin 4 → Option (BitVec 8)

namespace FlatStack
section
variable (f : FlatStack) (size : Nat)

def forget (first last : Nat) : Nat → Fin 4 → Option (BitVec 8) := fun word i =>
  if first/4 ≤ word ∧ word < last/4 then none else f.bytes word i

def lower : FlatStack := {f with top := f.top-size}
def reserve : FlatStack := ⟨f.top-size,f.forget (f.top-size) f.top⟩
def free : FlatStack := ⟨f.top+size,f.forget f.top (f.top+size)⟩

def word (offset : Nat) : Nat := (offset+f.top)/4

def store (offset : Nat) (data : Word 4) (byteEn : ByteEn 4) : FlatStack :=
  {f with bytes := fun w i => if w = f.word offset ∧ byteEn i then some (data i) else f.bytes w i}
end

section
variable (f : FlatStack) (data : Word 4) (byteEn : ByteEn 4)

theorem reserve_fresh (above : (f.top-size)/4 ≤ w) (below : w < f.top/4) : Agrees ((f.reserve size).bytes w) data := by
  intro i value known
  simp [reserve,forget,above,below] at known

theorem reserve_kept (above : f.top/4 ≤ w) : (f.reserve size).bytes w = f.bytes w := by
  funext i
  exact if_neg fun inside => absurd inside.2 above.not_gt

theorem free_kept (above : (f.top+size)/4 ≤ w) : (f.free size).bytes w = f.bytes w := by
  funext i
  exact if_neg fun inside => absurd inside.2 above.not_gt

theorem store_kept (elsewhere : w ≠ f.word offset) : (f.store offset data byteEn).bytes w = f.bytes w := by
  funext i
  exact if_neg fun here => elsewhere here.1

theorem store_here (agrees : Agrees (f.bytes (f.word offset)) old) :
    Agrees ((f.store offset data byteEn).bytes (f.word offset)) (BurstMemory.merge old data byteEn) := by
  intro i value known
  cases enabled : byteEn i with
  | true =>
    simp only [store,enabled] at known
    simpa [BurstMemory.merge,enabled] using Option.some.inj known
  | false =>
    simp only [store,enabled] at known
    simpa [BurstMemory.merge,enabled] using agrees i value known
end
end FlatStack
end Patmos
