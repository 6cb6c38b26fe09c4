import Prgsem.Shared.CMemory

/-!
# The result matrix

`matrix.h` and `matrix.c`. The dimensions are never changed after `matrix_init`,
so they are parameters of the type; the table has as many cells as are allocated.
-/

namespace Prgsem

open CMemory
set_option autoImplicit false

structure Matrix (re im : Nat) where
  table : Fin (re * im) → Int

namespace Matrix
variable {re im : Nat}

/-- `matrix_init`: the cells hold what the allocated memory held. -/
def init (re im : Nat) (mem : Nat → Int) : Matrix re im := ⟨fun i => mem i⟩

/-- `m.table[i] = v`. -/
def store (m : Matrix re im) (i : Nat) (v : Int) : Except Fault (Matrix re im) :=
  if h : i < re * im then .ok ⟨Function.update m.table ⟨i, h⟩ v⟩ else .error .outOfBounds

theorem store_ok (m : Matrix re im) {i : Nat} (h : i < re * im) (v : Int) :
    m.store i v = .ok ⟨Function.update m.table ⟨i, h⟩ v⟩ := by
  simp [store, h]

end Matrix

end Prgsem
