/-
Training.Lib.Memory — little-endian words in a memory of bytes.

`load k mem a` is the word in the `k` bytes from the address `a` on, and
`store k mem a v` the memory after `v` has been written there. A word is
read back, and it is not disturbed by a store to other bytes.
`Apart size a b` says that the pieces of `size` bytes from `a` and from
`b` on have no byte in common.
-/
import Mathlib.Data.List.GetD
import Training.Lib.Words

namespace Training.Lib.Memory

variable {k j a b v size : Nat} {mem mem' : Nat → UInt8}

def load (k : Nat) (mem : Nat → UInt8) (a : Nat) : Nat :=
  ofBytesLE ((List.range k).map fun i => mem (a + i))

def store (k : Nat) (mem : Nat → UInt8) (a v : Nat) : Nat → UInt8 := fun b =>
  if a ≤ b ∧ b < a + k then (toBytesLE k v).getD (b - a) 0 else mem b

theorem load_congr (h : ∀ i, a ≤ i → i < a + k → mem i = mem' i) : load k mem a = load k mem' a := by
  unfold load
  congr 1
  refine List.map_congr_left fun i hi => h _ (Nat.le_add_right a i) ?_
  exact Nat.add_lt_add_left (List.mem_range.mp hi) a

theorem load_lt (k : Nat) (mem : Nat → UInt8) (a : Nat) : load k mem a < 256 ^ k := by
  have hlt := ofBytesLE_lt ((List.range k).map fun i => mem (a + i))
  rwa [List.length_map, List.length_range] at hlt

theorem load_store (h : v < 256 ^ k) : load k (store k mem a v) a = v := by
  have hbytes : ((List.range k).map fun i => store k mem a v (a + i)) = toBytesLE k v := by
    refine List.ext_getElem (by simp) fun i hi hi' => ?_
    have hlt : i < k := by simpa using hi
    have hin : a ≤ a + i ∧ a + i < a + k := ⟨Nat.le_add_right a i, Nat.add_lt_add_left hlt a⟩
    simp only [List.getElem_map, List.getElem_range, store, if_pos hin, Nat.add_sub_cancel_left]
    rw [List.getD_eq_getElem _ _ hi']
  unfold load
  rw [hbytes, ofBytesLE_toBytesLE h]

theorem store_of_ne (h : b < a ∨ a + k ≤ b) : store k mem a v b = mem b :=
  if_neg (by omega)

theorem load_store_of_apart (h : a + k ≤ b ∨ b + j ≤ a) :
    load j (store k mem a v) b = load j mem b :=
  load_congr fun i hi hi' => store_of_ne (by omega)

-- a store is never evaluated to compare two states
attribute [irreducible] load store

/-! ## Pieces of one size -/

def Apart (size a b : Nat) : Prop := a + size ≤ b ∨ b + size ≤ a

instance (size a b : Nat) : Decidable (Apart size a b) := inferInstanceAs (Decidable (_ ∨ _))

theorem Apart.symm (h : Apart size a b) : Apart size b a := Or.symm h

/-- A byte of one piece is in no other. -/
theorem Apart.byte (h : Apart size a b) {i : Nat} (hi : a ≤ i) (hi' : i < a + size) :
    i < b ∨ b + size ≤ i := by
  unfold Apart at h
  omega

end Training.Lib.Memory
