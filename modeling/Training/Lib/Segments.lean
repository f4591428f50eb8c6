/-
Training.Lib.Segments — the greatest sum of a segment of a list.

`segSum xs l r` is the sum of the elements from `l` up to `r`. The
greatest sum of the segments that end at `r` (`BestEnding`) is extended
by one element, to it or to nothing (`bestEnding_step`), and with it the
greatest sum of all the segments up to there (`best_step`).
-/
import Mathlib.Algebra.BigOperators.Group.List.Basic
import Mathlib.Algebra.Order.Monoid.Defs

namespace Training.Lib.Segments

universe u

variable {α : Type u} [AddCommMonoid α] {xs : List α} {l r : Nat} {x : α}

def segSum (xs : List α) (l r : Nat) : α := ((xs.take r).drop l).sum

theorem segSum_succ (hl : l ≤ r) (hr : r < xs.length) :
    segSum xs l (r + 1) = segSum xs l r + xs[r] := by
  unfold segSum
  have hlen : l ≤ (xs.take r).length := by
    rw [List.length_take]
    omega
  rw [List.take_succ_eq_append_getElem hr, List.drop_append_of_le_length hlen, List.sum_append,
    List.sum_singleton]

theorem segSum_self (xs : List α) (r : Nat) : segSum xs r r = 0 := by
  unfold segSum
  rw [List.drop_eq_nil_iff.mpr (List.length_take_le r xs), List.sum_nil]

theorem segSum_single (hr : r < xs.length) : segSum xs r (r + 1) = xs[r] := by
  rw [segSum_succ (Nat.le_refl r) hr, segSum_self, zero_add]

theorem segSum_cons_succ (x : α) (xs : List α) (l r : Nat) :
    segSum (x :: xs) (l + 1) (r + 1) = segSum xs l r := rfl

theorem segSum_cons_zero (x : α) (xs : List α) (r : Nat) :
    segSum (x :: xs) 0 (r + 1) = x + segSum xs 0 r := rfl

variable [LinearOrder α] {e m m' : α}

structure BestEnding (xs : List α) (r : Nat) (e : α) : Prop where
  found : ∃ l, l < r ∧ e = segSum xs l r
  greatest : ∀ l : Nat, l < r → segSum xs l r ≤ e

structure Best (xs : List α) (bound : Nat) (m : α) : Prop where
  found : ∃ l r, l < r ∧ r ≤ bound ∧ m = segSum xs l r
  greatest : ∀ l r : Nat, l < r → r ≤ bound → segSum xs l r ≤ m

theorem bestEnding_one (h : 0 < xs.length) : BestEnding xs 1 xs[0] where
  found := ⟨0, Nat.zero_lt_one, (segSum_single h).symm⟩
  greatest l hl := by
    obtain rfl : l = 0 := by omega
    exact (segSum_single h).le

theorem bestEnding_step [IsOrderedAddMonoid α] (h : BestEnding xs r e) (hr : r < xs.length) :
    BestEnding xs (r + 1) (max (e + xs[r]) xs[r]) where
  found := by
    rcases max_choice (e + xs[r]) xs[r] with hmax | hmax
    · obtain ⟨l, hl, rfl⟩ := h.found
      exact ⟨l, by omega, by rw [hmax, segSum_succ (by omega) hr]⟩
    · exact ⟨r, Nat.lt_succ_self r, by rw [hmax, segSum_single hr]⟩
  greatest l hl := by
    by_cases hlr : l < r
    · rw [segSum_succ (Nat.le_of_lt hlr) hr]
      exact (add_le_add_left (h.greatest l hlr) _).trans (le_max_left _ _)
    · obtain rfl : l = r := by omega
      rw [segSum_single hr]
      exact le_max_right _ _

theorem BestEnding.best (h : BestEnding xs 1 e) : Best xs 1 e where
  found := by
    obtain ⟨l, hl, he⟩ := h.found
    exact ⟨l, 1, hl, Nat.le_refl 1, he⟩
  greatest l r hl hr := by
    obtain rfl : r = 1 := by omega
    exact h.greatest l hl

theorem best_step (h : Best xs r m) (hending : BestEnding xs (r + 1) e) :
    Best xs (r + 1) (max m e) where
  found := by
    rcases max_choice m e with hmax | hmax
    · obtain ⟨l, b, hl, hb, rfl⟩ := h.found
      exact ⟨l, b, hl, by omega, hmax⟩
    · obtain ⟨l, hl, rfl⟩ := hending.found
      exact ⟨l, r + 1, hl, Nat.le_refl _, hmax⟩
  greatest l b hl hb := by
    by_cases hbr : b ≤ r
    · exact (h.greatest l b hl hbr).trans (le_max_left _ _)
    · obtain rfl : b = r + 1 := by omega
      exact (hending.greatest l hl).trans (le_max_right _ _)

theorem Best.unique (h : Best xs r m) (h' : Best xs r m') : m = m' := by
  obtain ⟨l, b, hl, hb, rfl⟩ := h.found
  obtain ⟨l', b', hl', hb', rfl⟩ := h'.found
  exact le_antisymm (h'.greatest l b hl hb) (h.greatest l' b' hl' hb')

end Training.Lib.Segments
