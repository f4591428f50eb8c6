/-
Training.Lib.Arrays — arrays with signed indices.

An access outside the array is `none`. `SortedUpTo n data` says that the
first `n` elements do not decrease.
-/
import Mathlib.Data.Int.Order.Basic
import Mathlib.Data.List.GetD
import Mathlib.Data.List.Perm.Basic
import Mathlib.Order.Lattice

namespace Training.Lib.Arrays

universe u

variable {α : Type u} {data data' : List α} {i j n : Nat} {x : α}

def read (data : List α) (j : Int) : Option α := if 0 ≤ j then data[j.toNat]? else none

def write (data : List α) (j : Int) (x : α) : Option (List α) :=
  if 0 ≤ j ∧ j < data.length then some (data.set j.toNat x) else none

theorem read_natCast (data : List α) (i : Nat) : read data i = data[i]? := by simp [read]

theorem read_eq (h : i < data.length) : read data i = some data[i] := by
  rw [read_natCast, List.getElem?_eq_getElem h]

theorem write_eq (h : i < data.length) (x : α) : write data i x = some (data.set i x) := by
  simp [write, h]

theorem write_eq_some (h : write data i x = some data') :
    i < data.length ∧ data' = data.set i x := by
  simpa [write, eq_comm] using h

/-- The elements as a function of the index. -/
def view [Inhabited α] (data : List α) (i : Nat) : α := data.getD i default

section View

variable [Inhabited α]

theorem view_eq (h : i < data.length) : view data i = data[i] := List.getD_eq_getElem _ _ h

theorem read_eq_view (h : i < data.length) : read data i = some (view data i) := by
  rw [read_eq h, view_eq h]

theorem getElem?_eq_view (h : i < data.length) : data[i]? = some (view data i) := by
  rw [view_eq h, List.getElem?_eq_getElem h]

theorem view_of_getElem? (h : data[i]? = some x) : i < data.length ∧ view data i = x := by
  obtain ⟨hi, rfl⟩ := List.getElem?_eq_some_iff.mp h
  exact ⟨hi, view_eq hi⟩

end View

theorem getD_set (h : i < data.length) (x d : α) (a : Nat) :
    (data.set i x).getD a d = if a = i then x else data.getD a d := by
  by_cases ha : a = i
  · subst ha
    simp [h]
  · simp [List.getElem?_set_ne (Ne.symm ha), ha]

/-- Two elements change places: `i` had `x` for a while. -/
theorem set_set_perm (hi : i < data.length) (hj : j < data.length) (hne : i ≠ j) :
    ((data.set i data[j]).set j x).Perm (data.set i x) := by
  have hi' : i < (data.set i x).length := by simpa using hi
  have hj' : j < (data.set i x).length := by simpa using hj
  have hperm := List.set_set_perm hi' hj'
  rw [List.getElem_set_self, List.getElem_set_ne hne, List.set_set] at hperm
  exact hperm

/-- Where the elements have moved to. -/
theorem exists_places_of_perm [DecidableEq α] {xs ys : List α} (h : xs.Perm ys) :
    ∃ place : Nat → Nat, (∀ i, i < xs.length → ys[place i]? = xs[i]?) ∧
      ∀ i j, i < xs.length → j < xs.length → place i = place j → i = j := by
  have hplace : ∀ i (hi : i < xs.length),
      (if hi : i < xs.length then (h.idxBij ⟨i, hi⟩ : Nat) else 0) = h.idxBij ⟨i, hi⟩ :=
    fun i hi => dif_pos hi
  refine ⟨fun i => if hi : i < xs.length then h.idxBij ⟨i, hi⟩ else 0, fun i hi => ?_,
    fun i j hi hj heq => ?_⟩
  · simp only [hplace i hi]
    rw [List.getElem?_eq_getElem (h.idxBij ⟨i, hi⟩).isLt, h.getElem_idxBij_eq_getElem,
      List.getElem?_eq_getElem hi]
  · simp only [hplace i hi, hplace j hj] at heq
    exact Fin.mk.inj (h.idxBij_injective (Fin.ext heq))

/-! ## Sorted arrays -/

section Sorted

variable [LinearOrder α] [Inhabited α]

def SortedUpTo (n : Nat) (data : List α) : Prop :=
  ∀ a b : Nat, a < b → b < n → data.getD a default ≤ data.getD b default

theorem pairwise_of_sortedUpTo (h : SortedUpTo data.length data) : data.Pairwise (· ≤ ·) := by
  rw [List.pairwise_iff_getElem]
  intro a b ha hb hab
  have hle := h a b hab hb
  rwa [List.getD_eq_getElem _ _ ha, List.getD_eq_getElem _ _ hb] at hle

end Sorted

end Training.Lib.Arrays
