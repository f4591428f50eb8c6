/-
Training.Lib.Intervals — the search for a shortest or a longest interval
with two borders.

`P l r` is a property of the interval from `l` up to `r` that a larger
interval keeps. The right border goes from one end to the other. For each
right border the left one is moved as long as the interval has the
property, and the shortest interval seen is kept, the one seen first where
two are of one length. `Searched` says that the intervals of a set have
been searched: the ones that end by `r` (`Ended`), and while the left
border moves the ones that end behind it and start in front of the left
border (`Moving`).

* `searched_start`, `searched_step`, `searched_end` — the right border is
  moved, the left border is moved, the left border stays.
* `Passed` — every interval that starts in front of the left border has
  been worse than one with the property.

In the search for a longest interval the property is one that a smaller
interval keeps, and the left border is the first one from which it holds
(`FirstWith`).

* `longest_step`, `firstWith_step` — the right border is moved, and the
  left one with it.
-/
import Mathlib.Tactic.Common

namespace Training.Lib.Intervals

variable {P : Nat → Nat → Prop} {S : Nat → Nat → Prop} {unset bound len left l r : Nat}

/-- A larger interval keeps the property. -/
def Upward (P : Nat → Nat → Prop) : Prop := ∀ ⦃l l' r r'⦄, l' ≤ l → r ≤ r' → P l r → P l' r'

/-- `left` and `len` are an interval with the property inside `bound`, or
`len` is `unset`; no interval of `S` with the property is shorter than `len`,
or as long and in front of it. -/
structure Searched (P S : Nat → Nat → Prop) (unset bound len left : Nat) : Prop where
  le : len ≤ unset
  found : len < unset → left + len ≤ bound ∧ P left (left + len)
  least : ∀ l r, l ≤ r → S l r → P l r → len ≤ r - l ∧ (len = r - l → len < unset → left ≤ l)

/-- The intervals that end by `R`. -/
def Ended (R l r : Nat) : Prop := l ≤ r ∧ r ≤ R

/-- The intervals that end by `R`, and the ones that end behind it and start in
front of `L`. -/
def Moving (R L l r : Nat) : Prop := l ≤ r ∧ (r ≤ R ∨ r = R + 1 ∧ l < L)

/-- The interval that the left border left last had the property. -/
def Passed (P : Nat → Nat → Prop) (R L : Nat) : Prop :=
  0 < L → ∃ r, L - 1 ≤ r ∧ r ≤ R ∧ P (L - 1) r

/-- Behind `r`, only longer intervals start in front of the left border. -/
theorem searched_start (h : Searched P (Ended r) unset r len left) (hpassed : Passed P r l) :
    Searched P (Moving r l) unset (r + 1) len left := by
  refine ⟨h.le, fun hlt => ?_, fun a b hab hS hP => ?_⟩
  · obtain ⟨hbound, hP⟩ := h.found hlt
    exact ⟨by omega, hP⟩
  · rcases hS.2 with hb | ⟨rfl, hal⟩
    · exact h.least a b hab ⟨hab, hb⟩ hP
    · obtain ⟨e, hle, he, hPe⟩ := hpassed (by omega)
      have hlen := (h.least (l - 1) e hle ⟨hle, he⟩ hPe).1
      exact ⟨by omega, fun heq => by omega⟩

/-- The interval from the left border has the property. -/
theorem searched_step (h : Searched P (Moving r l) unset (r + 1) len left) (hP : P l (r + 1))
    (hlr : l ≤ r) :
    Searched P (Moving r (l + 1)) unset (r + 1)
      (if r - l + 1 < len then r - l + 1 else len) (if r - l + 1 < len then l else left) := by
  have hle := h.le
  have hsplit : ∀ a b, Moving r (l + 1) a b → Moving r l a b ∨ a = l ∧ b = r + 1 := by
    rintro a b ⟨hab, hb | ⟨rfl, hal⟩⟩
    · exact Or.inl ⟨hab, Or.inl hb⟩
    · rcases Nat.lt_or_ge a l with hlt | hge
      · exact Or.inl ⟨hab, Or.inr ⟨rfl, hlt⟩⟩
      · exact Or.inr ⟨by omega, rfl⟩
  split
  · rename_i hlt
    refine ⟨by omega, fun _ => ⟨by omega, ?_⟩, fun a b hab hS hPab => ?_⟩
    · rwa [show l + (r - l + 1) = r + 1 by omega]
    · rcases hsplit a b hS with hold | ⟨rfl, rfl⟩
      · have hmin := (h.least a b hab hold hPab).1
        exact ⟨by omega, fun heq => by omega⟩
      · exact ⟨by omega, fun _ _ => Nat.le_refl _⟩
  · rename_i hge
    refine ⟨hle, h.found, fun a b hab hS hPab => ?_⟩
    rcases hsplit a b hS with hold | ⟨rfl, rfl⟩
    · exact h.least a b hab hold hPab
    · refine ⟨by omega, fun heq hset => ?_⟩
      -- the one that is as long has been found before
      have hbound := (h.found hset).1
      omega

/-- The interval from the left border does not have the property. -/
theorem searched_end (hup : Upward P) (h : Searched P (Moving r l) unset (r + 1) len left)
    (hnot : ¬P l (r + 1)) : Searched P (Ended (r + 1)) unset (r + 1) len left := by
  refine ⟨h.le, h.found, fun a b hab hS hP => ?_⟩
  refine h.least a b hab ⟨hab, ?_⟩ hP
  rcases Nat.lt_or_ge r b with hlt | hge
  · have hb : b = r + 1 := by have := hS.2; omega
    refine Or.inr ⟨hb, ?_⟩
    by_contra hal
    exact hnot (hup (by omega) (by omega) hP)
  · exact Or.inl hge

/-! ## Longest intervals -/

/-- `len` is the length of a longest interval with the property inside
`bound`. -/
structure Longest (P : Nat → Nat → Prop) (bound len : Nat) : Prop where
  found : ∃ l, l + len ≤ bound ∧ P l (l + len)
  greatest : ∀ l r : Nat, l ≤ r → r ≤ bound → P l r → r - l ≤ len

/-- `l` is the first left border from which the intervals up to `r` have the
property. -/
structure FirstWith (P : Nat → Nat → Prop) (r l : Nat) : Prop where
  le : l ≤ r
  holds : P l r
  first : ∀ a : Nat, a < l → ¬P a r

theorem longest_step (h : Longest P r len) (hfirst : FirstWith P (r + 1) l) :
    Longest P (r + 1) (max len (r + 1 - l)) := by
  have hle := hfirst.le
  constructor
  · rcases Nat.le_total len (r + 1 - l) with hlen | hlen
    · rw [Nat.max_eq_right hlen]
      refine ⟨l, by omega, ?_⟩
      rw [Nat.add_sub_cancel' hle]
      exact hfirst.holds
    · rw [Nat.max_eq_left hlen]
      obtain ⟨a, ha, hP⟩ := h.found
      exact ⟨a, by omega, hP⟩
  · intro a b hab hb hP
    rcases Nat.lt_or_eq_of_le hb with hlt | rfl
    · exact Nat.le_trans (h.greatest a b hab (by omega) hP) (Nat.le_max_left ..)
    · have hal : l ≤ a := Nat.le_of_not_lt fun hlt => hfirst.first a hlt hP
      omega

/-- `cut` is the place of what an interval up to `r + 1` must not have in front of
`r`. -/
theorem firstWith_step {cut : Nat} (h : FirstWith P r l) (hdown : ∀ a, P a (r + 1) → P a r)
    (hcut : ∀ a, a < cut → ¬P a (r + 1)) (hle : max l cut ≤ r + 1) (hP : P (max l cut) (r + 1)) :
    FirstWith P (r + 1) (max l cut) where
  le := hle
  holds := hP
  first a ha hPa := by
    rcases Nat.lt_or_ge a l with hlt | hge
    · exact h.first a hlt (hdown a hPa)
    · exact hcut a (by omega) hPa

end Training.Lib.Intervals
