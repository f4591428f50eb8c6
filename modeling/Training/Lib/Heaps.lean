/-
Training.Lib.Heaps — binary heaps in an array.

The children of the place `i` are `2 i + 1` and `2 i + 2`, and in a heap no
element is above its parent: `HeapFrom le lo n f` says so of the first `n`
elements of `f`, for the parents from `lo` on. While an element moves down
it is the only one that may be below a child of its own
(`HeapExcept`), and it changes places with the greater child until it is
not (`HeapExcept.down`, `HeapExcept.done`).
-/
import Mathlib.Tactic.Common

namespace Training.Lib.Heaps

universe u

variable {α : Type u} {le : α → α → Prop} {f : Nat → α} {lo n i j k : Nat}

def Child (i j : Nat) : Prop := j = 2 * i + 1 ∨ j = 2 * i + 2

theorem Child.lt (h : Child i j) : i < j := by
  unfold Child at h
  omega

/-- There is one parent. -/
theorem Child.unique (hi : Child i k) (hj : Child j k) : i = j := by
  unfold Child at hi hj
  omega

theorem exists_parent (h : 0 < j) : ∃ i, Child i j := by
  refine ⟨(j - 1) / 2, ?_⟩
  unfold Child
  omega

def HeapFrom (le : α → α → Prop) (lo n : Nat) (f : Nat → α) : Prop :=
  ∀ i j : Nat, lo ≤ i → Child i j → j < n → le (f j) (f i)

/-- A heap but for the element at `k`. -/
structure HeapExcept (le : α → α → Prop) (lo n k : Nat) (f : Nat → α) : Prop where
  other : ∀ i j : Nat, lo ≤ i → i ≠ k → Child i j → j < n → le (f j) (f i)
  across : ∀ i j : Nat, lo ≤ i → Child i k → Child k j → j < n → le (f j) (f i)

/-- The elements at `i` and `k` have changed places. -/
def swapped (f : Nat → α) (i k : Nat) : Nat → α := fun j =>
  if j = i then f k else if j = k then f i else f j

theorem swapped_left (f : Nat → α) (i k : Nat) : swapped f i k i = f k := if_pos rfl

theorem swapped_right (f : Nat → α) (h : k ≠ i) : swapped f i k k = f i := by
  simp [swapped, h]

theorem swapped_of_ne (f : Nat → α) (hi : j ≠ i) (hk : j ≠ k) : swapped f i k j = f j := by
  simp [swapped, hi, hk]

/-- Elements have moved among the first `n` places. -/
def Within (n : Nat) (f g : Nat → α) : Prop :=
  (∀ a, a < n → ∃ b, b < n ∧ g a = f b) ∧ ∀ a, n ≤ a → g a = f a

theorem Within.refl (n : Nat) (f : Nat → α) : Within n f f :=
  ⟨fun a ha => ⟨a, ha, rfl⟩, fun _ _ => rfl⟩

theorem Within.trans {e g : Nat → α} (h : Within n e f) (h' : Within n f g) : Within n e g := by
  constructor
  · intro a ha
    obtain ⟨b, hb, hgb⟩ := h'.1 a ha
    obtain ⟨c, hc, hfc⟩ := h.1 b hb
    exact ⟨c, hc, hgb.trans hfc⟩
  · intro a ha
    exact (h'.2 a ha).trans (h.2 a ha)

theorem within_swapped (hi : i < n) (hk : k < n) : Within n f (swapped f i k) := by
  constructor
  · intro a ha
    by_cases hai : a = i
    · exact ⟨k, hk, by simp [swapped, hai]⟩
    · by_cases hak : a = k
      · exact ⟨i, hi, by rw [swapped, if_neg hai, if_pos hak]⟩
      · exact ⟨a, ha, swapped_of_ne f hai hak⟩
  · intro a ha
    exact swapped_of_ne f (by omega) (by omega)

theorem HeapExcept.done (h : HeapExcept le lo n k f)
    (hk : ∀ j, Child k j → j < n → le (f j) (f k)) : HeapFrom le lo n f := by
  intro i j hi hchild hj
  by_cases hik : i = k
  · subst hik
    exact hk j hchild hj
  · exact h.other i j hi hik hchild hj

theorem HeapExcept.down (h : HeapExcept le lo n i f) (hi : lo ≤ i) (hk : Child i k) (hkn : k < n)
    (hup : le (f i) (f k)) (hgreat : ∀ j, Child i j → j < n → le (f j) (f k)) :
    HeapExcept le lo n k (swapped f i k) := by
  have hik := hk.lt
  constructor
  · intro p j hp hpk hchild hj
    have hpj := hchild.lt
    by_cases hpi : p = i
    · subst hpi
      rw [swapped_left]
      by_cases hjk : j = k
      · subst hjk
        rw [swapped_right _ (by omega)]
        exact hup
      · rw [swapped_of_ne _ (by omega) hjk]
        exact hgreat j hchild hj
    · have hjk : j ≠ k := by
        rintro rfl
        exact hpi (hchild.unique hk)
      rw [swapped_of_ne _ hpi hpk]
      by_cases hji : j = i
      · -- the parent of `i` is not below the greater child of `i`
        subst hji
        rw [swapped_left]
        exact h.across p k hp hchild hk hkn
      · rw [swapped_of_ne _ hji hjk]
        exact h.other p j hp hpi hchild hj
  · intro p j hp hpk hchild hj
    have hkj := hchild.lt
    obtain rfl : p = i := hpk.unique hk
    rw [swapped_left, swapped_of_ne _ (by omega) (by omega)]
    exact h.other k j (by omega) (by omega) hchild hj

/-- The heap is to be extended by one more parent. -/
theorem HeapFrom.extend (h : HeapFrom le (lo + 1) n f) : HeapExcept le lo n lo f := by
  constructor
  · intro i j hi hne hchild hj
    exact h i j (by omega) hchild hj
  · intro i j hi hchild _ _
    have hlt := hchild.lt
    omega

/-- The root has changed places with the last element, which is not in the
heap any more. -/
theorem HeapFrom.dropRoot (h : HeapFrom le 0 (n + 1) f) : HeapExcept le 0 n 0 (swapped f 0 n) := by
  constructor
  · intro i j _ hi hchild hj
    have hlt := hchild.lt
    rw [swapped_of_ne _ (by omega) (by omega), swapped_of_ne _ hi (by omega)]
    exact h i j (Nat.zero_le i) hchild (by omega)
  · intro i j _ hchild _ _
    have hlt := hchild.lt
    omega

theorem HeapFrom.root (h : HeapFrom le 0 n f) (hrefl : ∀ x, le x x)
    (htrans : ∀ x y z, le x y → le y z → le x z) (hj : j < n) : le (f j) (f 0) := by
  induction j using Nat.strongRecOn with
  | _ j ih =>
    by_cases hzero : j = 0
    · subst hzero
      exact hrefl _
    · obtain ⟨i, hchild⟩ := exists_parent (Nat.pos_of_ne_zero hzero)
      have hlt := hchild.lt
      exact htrans _ _ _ (h i j (Nat.zero_le i) hchild hj) (ih i hlt (by omega))

end Training.Lib.Heaps
