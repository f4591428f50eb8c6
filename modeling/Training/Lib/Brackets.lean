/-
Training.Lib.Brackets — words of nested brackets.

`Nested pair s`: the grammar `S → ε | o S c S` over the pairs `o c` of
brackets generates `s`. `scan opens pair st s` reads the word from left to
right with the stack `st` of the brackets that are open. It accepts from the
empty stack exactly the words of the grammar (`scan_nil_iff`); with open
brackets, the words that complete them (`Completes`).

`nested_iff_exists_replaced`: to let some characters stand for others when
they close a bracket is to replace them first.
-/
import Mathlib.Data.List.Forall2
import Mathlib.Tactic.Common

namespace Training.Lib

universe u

inductive Nested {α : Type u} (pair : α → α → Prop) : List α → Prop
  | nil : Nested pair []
  | wrap {o c : α} {u v : List α} (h : pair o c) (hu : Nested pair u) (hv : Nested pair v) :
      Nested pair (o :: (u ++ c :: v))

variable {α : Type u} {pair loose stands : α → α → Prop} {opens : α → Bool} {s st u v : List α}
  {a c o : α}

/-- `s` closes the brackets of the stack, the first of them first. -/
def Completes (pair : α → α → Prop) : List α → List α → Prop
  | [], s => Nested pair s
  | o :: st, s => ∃ u c v, s = u ++ c :: v ∧ Nested pair u ∧ pair o c ∧ Completes pair st v

def scan (opens : α → Bool) (pair : α → α → Prop) [DecidableRel pair] : List α → List α → Bool
  | st, [] => st.isEmpty
  | st, c :: s =>
      if opens c then scan opens pair (c :: st) s
      else match st with
        | [] => false
        | o :: st => decide (pair o c) && scan opens pair st s

section Scan

variable (hopen : ∀ o c, pair o c → opens o = true ∧ opens c = false)
include hopen

theorem not_nested_closing (hc : opens c = false) : ¬ Nested pair (c :: s) := by
  intro h
  cases h with
  | wrap hpair hu hv => simp [(hopen _ _ hpair).1] at hc

theorem completes_cons_opening (ho : opens o = true) :
    Completes pair st (o :: s) ↔ Completes pair (o :: st) s := by
  constructor
  · cases st with
    | nil =>
      intro h
      cases h with
      | wrap hpair hu hv => exact ⟨_, _, _, rfl, hu, hpair, hv⟩
    | cons p st =>
      rintro ⟨u, c, v, heq, hu, hpair, hrest⟩
      cases hu with
      | nil =>
        obtain ⟨rfl, rfl⟩ := List.cons.inj heq
        simp [(hopen _ _ hpair).2] at ho
      | wrap hpair' hu hv =>
        simp only [List.cons_append, List.append_assoc, List.cons.injEq] at heq
        obtain ⟨rfl, rfl⟩ := heq
        exact ⟨_, _, _, rfl, hu, hpair', _, _, _, rfl, hv, hpair, hrest⟩
  · rintro ⟨u, c, v, rfl, hu, hpair, hrest⟩
    cases st with
    | nil => exact Nested.wrap hpair hu hrest
    | cons p st =>
      obtain ⟨v, d, w, rfl, hv, hpair', hrest⟩ := hrest
      exact ⟨o :: (u ++ c :: v), d, w, by simp, Nested.wrap hpair hu hv, hpair', hrest⟩

theorem completes_cons_closing (hc : opens c = false) :
    Completes pair (o :: st) (c :: s) ↔ pair o c ∧ Completes pair st s := by
  constructor
  · rintro ⟨u, d, v, heq, hu, hpair, hrest⟩
    cases hu with
    | nil =>
      obtain ⟨rfl, rfl⟩ := List.cons.inj heq
      exact ⟨hpair, hrest⟩
    | wrap hpair' hu hv =>
      obtain ⟨rfl, -⟩ := List.cons.inj heq
      simp [(hopen _ _ hpair').1] at hc
  · rintro ⟨hpair, hrest⟩
    exact ⟨[], c, s, rfl, Nested.nil, hpair, hrest⟩

/-- A word of the grammar in front leaves the stack as it is. -/
theorem completes_append (hu : Nested pair u) :
    Completes pair st (u ++ v) ↔ Completes pair st v := by
  induction hu generalizing st v with
  | nil => rfl
  | @wrap o c u w hpair hu hw ihu ihw =>
    rw [List.cons_append, List.append_assoc, List.cons_append,
      completes_cons_opening hopen (hopen _ _ hpair).1, ihu,
      completes_cons_closing hopen (hopen _ _ hpair).2, and_iff_right hpair, ihw]

theorem nested_append_iff (hu : Nested pair u) : Nested pair (u ++ v) ↔ Nested pair v := by
  have h : Completes pair [] (u ++ v) ↔ Completes pair [] v := completes_append hopen hu
  exact h

variable [DecidableRel pair]

omit hopen in
theorem scan_cons_opening (ho : opens o = true) :
    scan opens pair st (o :: s) = scan opens pair (o :: st) s := by
  conv_lhs => unfold scan
  exact if_pos ho

theorem scan_iff_completes : scan opens pair st s = true ↔ Completes pair st s := by
  induction s generalizing st with
  | nil =>
    cases st with
    | nil => exact iff_of_true rfl Nested.nil
    | cons o st => simp [scan, Completes]
  | cons c s ih =>
    cases hc : opens c with
    | true => rw [completes_cons_opening hopen hc, ← ih, scan_cons_opening hc]
    | false =>
      cases st with
      | nil => exact iff_of_false (by simp [scan, hc]) (not_nested_closing hopen hc)
      | cons o st => simp [scan, hc, completes_cons_closing hopen hc, ih]

theorem scan_nil_iff : scan opens pair [] s = true ↔ Nested pair s := scan_iff_completes hopen

end Scan

/-- Each bracket takes two characters. -/
theorem Nested.even (h : Nested pair s) : s.length % 2 = 0 := by
  induction h with
  | nil => rfl
  | wrap _ _ _ ihu ihv =>
    simp only [List.length_cons, List.length_append]
    omega

/-- Every character of a word is one of a pair. -/
theorem Nested.mem_pair (h : Nested pair s) (ha : a ∈ s) : ∃ b, pair a b ∨ pair b a := by
  induction h with
  | nil => cases ha
  | wrap hpair _ _ ihu ihv =>
    simp only [List.mem_cons, List.mem_append] at ha
    rcases ha with rfl | ha | rfl | ha
    · exact ⟨_, Or.inl hpair⟩
    · exact ihu ha
    · exact ⟨_, Or.inr hpair⟩
    · exact ihv ha

theorem nested_iff_exists_replaced
    (hloose : ∀ o c, loose o c ↔ ∃ d, stands c d ∧ pair o d)
    (hself : ∀ o c b, pair o c → (stands b o ↔ b = o)) :
    Nested loose s ↔ ∃ w, List.Forall₂ stands s w ∧ Nested pair w := by
  constructor
  · intro h
    induction h with
    | nil => exact ⟨[], .nil, Nested.nil⟩
    | wrap hpair hu hv ihu ihv =>
      obtain ⟨wu, hwu, hu'⟩ := ihu
      obtain ⟨wv, hwv, hv'⟩ := ihv
      obtain ⟨d, hstands, hpair'⟩ := (hloose _ _).mp hpair
      exact ⟨_, .cons ((hself _ _ _ hpair').mpr rfl) (List.rel_append hwu (.cons hstands hwv)),
        Nested.wrap hpair' hu' hv'⟩
  · rintro ⟨w, hw, h⟩
    induction h generalizing s with
    | nil =>
      rw [List.forall₂_nil_right_iff.mp hw]
      exact Nested.nil
    | @wrap o c u v hpair hu hv ihu ihv =>
      obtain ⟨b, s, hb, hrest, rfl⟩ := List.forall₂_cons_right_iff.mp hw
      obtain rfl := (hself _ _ _ hpair).mp hb
      have htake := List.forall₂_take_append _ _ _ hrest
      obtain ⟨e, t, he, ht, hdrop⟩ :=
        List.forall₂_cons_right_iff.mp (List.forall₂_drop_append _ _ _ hrest)
      rw [← List.take_append_drop u.length s, hdrop]
      exact Nested.wrap ((hloose _ _).mpr ⟨c, he, hpair⟩) (ihu htake) (ihv ht)

end Training.Lib
