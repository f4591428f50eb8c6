/-
Training.Lib.Spans — stretches of addresses.

A span is its first address and its length. Spans that are pairwise apart
have at most as many addresses together as there are between two bounds
of them all (`sum_le_of_apart`).
-/
import Mathlib.Algebra.Ring.Nat
import Mathlib.Order.Interval.Finset.Nat

namespace Training.Lib.Spans

variable {spans : List (Nat × Nat)} {m n : Nat}

/-- The two spans have no address in common. -/
def Apart (a b : Nat × Nat) : Prop := a.1 + a.2 ≤ b.1 ∨ b.1 + b.2 ≤ a.1

theorem Apart.symm {a b : Nat × Nat} (h : Apart a b) : Apart b a := Or.symm h

/-- The addresses of the spans are as many as their lengths add up to. -/
theorem exists_addresses (h : spans.Pairwise Apart) :
    ∃ t : Finset Nat, t.card = (spans.map Prod.snd).sum ∧
      ∀ x, x ∈ t ↔ ∃ a ∈ spans, a.1 ≤ x ∧ x < a.1 + a.2 := by
  induction spans with
  | nil => exact ⟨∅, rfl, by simp⟩
  | cons a spans ih =>
    obtain ⟨hhead, htail⟩ := List.pairwise_cons.mp h
    obtain ⟨t, hcard, hmem⟩ := ih htail
    have hdisj : Disjoint (Finset.Ico a.1 (a.1 + a.2)) t := by
      refine Finset.disjoint_left.mpr fun x hx hxt => ?_
      obtain ⟨b, hb, hlo, hhi⟩ := (hmem x).mp hxt
      have hapart := hhead b hb
      have hx := Finset.mem_Ico.mp hx
      unfold Apart at hapart
      omega
    refine ⟨Finset.Ico a.1 (a.1 + a.2) ∪ t, ?_, fun x => ?_⟩
    · rw [Finset.card_union_of_disjoint hdisj, Nat.card_Ico, hcard, List.map_cons, List.sum_cons]
      omega
    · rw [Finset.mem_union, Finset.mem_Ico, hmem]
      simp only [List.mem_cons, exists_eq_or_imp]

theorem sum_le_of_apart (h : spans.Pairwise Apart) (hlo : ∀ a ∈ spans, m ≤ a.1)
    (hhi : ∀ a ∈ spans, a.1 + a.2 ≤ n) : (spans.map Prod.snd).sum ≤ n - m := by
  obtain ⟨t, hcard, hmem⟩ := exists_addresses h
  have hsub : t ⊆ Finset.Ico m n := by
    intro x hx
    obtain ⟨a, ha, hle, hlt⟩ := (hmem x).mp hx
    exact Finset.mem_Ico.mpr
      ⟨Nat.le_trans (hlo a ha) hle, Nat.lt_of_lt_of_le hlt (hhi a ha)⟩
  calc (spans.map Prod.snd).sum = t.card := hcard.symm
    _ ≤ (Finset.Ico m n).card := Finset.card_le_card hsub
    _ = n - m := Nat.card_Ico m n

end Training.Lib.Spans
