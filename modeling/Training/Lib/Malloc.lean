/-
Training.Lib.Malloc — where a heap puts what is allocated.

A program is given a `Malloc` for each of its operations: an address that
is not in use, for any addresses that are. No property of a program then
depends on how the heap is managed, nor on when an address is used again.
-/
import Mathlib.Tactic.Common

namespace Training.Lib

def null : Nat := 0

structure Malloc where
  alloc : List Nat → Nat
  alloc_ne_null : ∀ live, alloc live ≠ null
  alloc_not_mem : ∀ live, alloc live ∉ live

/-- The address behind the ones in use. -/
def Malloc.next : Malloc where
  alloc live := live.foldr max 0 + 1
  alloc_ne_null _ := Nat.succ_ne_zero _
  alloc_not_mem live := by
    intro hmem
    have hle : ∀ {xs : List Nat} {n : Nat}, n ∈ xs → n ≤ xs.foldr max 0 := by
      intro xs
      induction xs with
      | nil => simp
      | cons x xs ih =>
        intro n hn
        rcases List.mem_cons.mp hn with rfl | hn
        · exact Nat.le_max_left _ _
        · exact Nat.le_trans (ih hn) (Nat.le_max_right _ _)
    exact absurd (hle hmem) (Nat.not_succ_le_self _)

end Training.Lib
