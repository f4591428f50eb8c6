/-
Training.Lib.Orbits — chains of nodes with one link each.

`follow next head n` is the node `n` links behind `head`, or nothing where
the chain has ended. A chain through finitely many nodes comes back to a
node, or to nothing, and goes round from there on (`exists_repeat`,
`follow_periodic`). Two walkers of which one is twice as fast then meet
(`exists_meet`), and where they meet in a node the chain has no end
(`endless_of_repeat`).
-/
import Mathlib.Data.Fintype.Option
import Mathlib.Data.Fintype.Pigeonhole
import Mathlib.Tactic.Ring

namespace Training.Lib.Orbits

universe u

variable {α : Type u} {next : α → Option α} {head : Option α} {i c k m n : Nat}

def follow (next : α → Option α) (head : Option α) : Nat → Option α
  | 0 => head
  | n + 1 => (follow next head n).bind next

/-- The chain never ends. -/
def Endless (next : α → Option α) (head : Option α) : Prop := ∀ n, follow next head n ≠ none

@[simp] theorem follow_zero : follow next head 0 = head := rfl

@[simp] theorem follow_succ : follow next head (n + 1) = (follow next head n).bind next := rfl

theorem follow_add (next : α → Option α) (head : Option α) (m n : Nat) :
    follow next head (m + n) = follow next (follow next head m) n := by
  induction n with
  | zero => rfl
  | succ n ih =>
    rw [follow_succ, ← ih]
    rfl

theorem follow_none (next : α → Option α) (n : Nat) : follow next none n = none := by
  induction n with
  | zero => rfl
  | succ n ih => simp [ih]

/-- What has ended stays so. -/
theorem follow_ne_none_of_le (hmn : m ≤ n) (h : follow next head n ≠ none) :
    follow next head m ≠ none := by
  intro hm
  obtain ⟨d, rfl⟩ := Nat.exists_eq_add_of_le hmn
  rw [follow_add, hm, follow_none] at h
  exact h rfl

theorem follow_shift (h : follow next head (i + c) = follow next head i) (k : Nat) :
    follow next head (i + k * c) = follow next head i := by
  induction k with
  | zero => simp
  | succ k ih =>
    rw [Nat.succ_mul, Nat.add_comm (k * c), ← Nat.add_assoc, follow_add, h, ← follow_add, ih]

theorem follow_periodic (h : follow next head (i + c) = follow next head i) (hin : i ≤ n)
    (k : Nat) : follow next head (n + k * c) = follow next head n := by
  obtain ⟨d, rfl⟩ := Nat.exists_eq_add_of_le hin
  rw [Nat.add_right_comm, follow_add, follow_shift h, ← follow_add]

theorem endless_of_repeat (hc : 0 < c) (h : follow next head (i + c) = follow next head i)
    (hi : follow next head i ≠ none) : Endless next head := by
  intro n
  have hfar : n ≤ i + n * c := by
    have hle := Nat.le_mul_of_pos_right n hc
    omega
  refine follow_ne_none_of_le hfar ?_
  rwa [follow_shift h]

theorem exists_repeat [Finite α] (next : α → Option α) (head : Option α) :
    ∃ i c, 0 < c ∧ follow next head (i + c) = follow next head i := by
  obtain ⟨i, j, hne, heq⟩ := Finite.exists_ne_map_eq_of_infinite (follow next head)
  rcases Nat.lt_or_gt_of_ne hne with hlt | hgt
  · exact ⟨i, j - i, by omega, by rw [heq]; congr 1; omega⟩
  · exact ⟨j, i - j, by omega, by rw [← heq]; congr 1; omega⟩

/-- A walker and one that is twice as fast and one link ahead. -/
theorem exists_meet [Finite α] (next : α → Option α) (head : Option α) :
    ∃ k, follow next head (2 * k + 1) = follow next head k := by
  obtain ⟨i, c, hc, hrepeat⟩ := exists_repeat next head
  have hround : 1 ≤ (i + 1) * c := Nat.mul_pos (Nat.succ_pos i) hc
  have hfar : i ≤ (i + 1) * c - 1 := by
    have hle := Nat.le_mul_of_pos_right (i + 1) hc
    omega
  refine ⟨(i + 1) * c - 1, ?_⟩
  have hsum : 2 * ((i + 1) * c - 1) + 1 = (i + 1) * c - 1 + (i + 1) * c := by omega
  rw [hsum, follow_periodic hrepeat hfar]

end Training.Lib.Orbits
