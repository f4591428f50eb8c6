/-
Training.SumOfThree.SweepTheorems — two borders that move towards each
other over a sorted array.

`g` are the elements, in order. The triples with the first place `i` are
looked for between two borders: each of them is either among the triples
found, by its values, or it lies between the borders (`Sweeping`). A sum
that is not 0 rules out one border (`Sweeping.less`,
`Sweeping.more`), and with a sum of 0 the borders leave all the elements
with the values found (`Sweeping.equal`), so none is found twice.
-/
import Mathlib.Data.List.Nodup
import Training.SumOfThree.ThreeSum

namespace Training.SumOfThree

variable {g : Nat → Int} {n i left right left' right' : Nat} {found : List Triple} {t : Triple}

/-- The first `n` elements do not decrease. -/
def Ascending (g : Nat → Int) (n : Nat) : Prop := ∀ p q : Nat, p ≤ q → q < n → g p ≤ g q

/-- `t` is found with its first element at `i`. -/
def Hits (g : Nat → Int) (n i : Nat) (t : Triple) : Prop :=
  ∃ q r, i < q ∧ q < r ∧ r < n ∧ t = { fst := g i, snd := g q, trd := g r } ∧ g i + g q + g r = 0

def HitsBefore (g : Nat → Int) (n i : Nat) (t : Triple) : Prop := ∃ p, p < i ∧ Hits g n p t

/-- The triples with the first element in front of `i` have been found. -/
structure FoundBefore (g : Nat → Int) (n i : Nat) (found : List Triple) : Prop where
  nodup : found.Nodup
  mem : ∀ t, t ∈ found ↔ HitsBefore g n i t

/-- So have the ones from `i` on, but for some between the borders. -/
structure Sweeping (g : Nat → Int) (n i left right : Nat) (found : List Triple) : Prop where
  left_gt : i < left
  right_lt : right < n
  nodup : found.Nodup
  sound : ∀ t ∈ found, HitsBefore g n (i + 1) t
  before : ∀ t, HitsBefore g n i t → t ∈ found
  between : ∀ q r : Nat, i < q → q < r → r < n → g i + g q + g r = 0 →
    ({ fst := g i, snd := g q, trd := g r } : Triple) ∈ found ∨ left ≤ q ∧ r ≤ right
  fresh : ∀ t ∈ found, t.fst < g i ∨ ∀ q : Nat, left ≤ q → q < right → t.snd < g q

theorem hitsBefore_succ : HitsBefore g n (i + 1) t ↔ HitsBefore g n i t ∨ Hits g n i t := by
  constructor
  · rintro ⟨p, hp, hhit⟩
    rcases Nat.lt_or_eq_of_le (Nat.le_of_lt_succ hp) with hlt | rfl
    · exact .inl ⟨p, hlt, hhit⟩
    · exact .inr hhit
  · rintro (⟨p, hp, hhit⟩ | hhit)
    · exact ⟨p, by omega, hhit⟩
    · exact ⟨i, Nat.lt_succ_self i, hhit⟩

theorem foundBefore_zero (g : Nat → Int) (n : Nat) : FoundBefore g n 0 [] where
  nodup := List.nodup_nil
  mem t := by
    refine iff_of_false List.not_mem_nil ?_
    rintro ⟨p, hp, -⟩
    exact Nat.not_lt_zero p hp

/-- The element at `i` is there once more in front of it, and so are its
triples. -/
theorem FoundBefore.skip (h : FoundBefore g n i found) (hi : 0 < i) (heq : g i = g (i - 1)) :
    FoundBefore g n (i + 1) found where
  nodup := h.nodup
  mem t := by
    rw [h.mem t, hitsBefore_succ]
    refine (or_iff_left_of_imp ?_).symm
    rintro ⟨q, r, hq, hr, hn, rfl, hsum⟩
    rw [heq] at hsum ⊢
    exact ⟨i - 1, by omega, q, r, by omega, hr, hn, rfl, hsum⟩

theorem FoundBefore.sweeping (h : FoundBefore g n i found) (hmono : Ascending g n) (hn : i < n)
    (hnew : i = 0 ∨ g i ≠ g (i - 1)) : Sweeping g n i (i + 1) (n - 1) found where
  left_gt := Nat.lt_succ_self i
  right_lt := by omega
  nodup := h.nodup
  sound t ht := hitsBefore_succ.mpr (.inl ((h.mem t).mp ht))
  before t ht := (h.mem t).mpr ht
  between q r hq hr hn _ := .inr ⟨hq, by omega⟩
  fresh t ht := by
    obtain ⟨p, hp, q, r, -, -, -, rfl, -⟩ := (h.mem t).mp ht
    have hle := hmono p (i - 1) (by omega) (by omega)
    have hle' := hmono (i - 1) i (by omega) hn
    exact .inl (by simp only; omega)

theorem Sweeping.finish (h : Sweeping g n i left right found) (hend : right ≤ left) :
    FoundBefore g n (i + 1) found where
  nodup := h.nodup
  mem t := by
    refine ⟨h.sound t, fun ht => ?_⟩
    rcases hitsBefore_succ.mp ht with hbefore | ⟨q, r, hq, hr, hn, rfl, hsum⟩
    · exact h.before t hbefore
    · refine (h.between q r hq hr hn hsum).resolve_right ?_
      omega

/-- No triple has the element at the left border. -/
theorem Sweeping.less (h : Sweeping g n i left right found) (hmono : Ascending g n)
    (hsum : g i + g left + g right < 0) : Sweeping g n i (left + 1) right found where
  left_gt := Nat.lt_succ_of_lt h.left_gt
  right_lt := h.right_lt
  nodup := h.nodup
  sound := h.sound
  before := h.before
  between q r hq hr hn hzero := by
    refine (h.between q r hq hr hn hzero).imp_right ?_
    rintro ⟨hl, hright⟩
    have hle := hmono r right hright h.right_lt
    have hne : q ≠ left := by
      rintro rfl
      omega
    exact ⟨by omega, hright⟩
  fresh t ht := (h.fresh t ht).imp_right fun hall q hl => hall q (by omega)

/-- No triple has the element at the right border. -/
theorem Sweeping.more (h : Sweeping g n i left right found) (hmono : Ascending g n)
    (hsum : 0 < g i + g left + g right) (hlt : left < right) :
    Sweeping g n i left (right - 1) found where
  left_gt := h.left_gt
  right_lt := Nat.lt_of_le_of_lt (Nat.sub_le _ _) h.right_lt
  nodup := h.nodup
  sound := h.sound
  before := h.before
  between q r hq hr hn hzero := by
    refine (h.between q r hq hr hn hzero).imp_right ?_
    rintro ⟨hl, hright⟩
    have hle := hmono left q hl (by omega)
    have hne : r ≠ right := by
      rintro rfl
      omega
    exact ⟨hl, by omega⟩
  fresh t ht := (h.fresh t ht).imp_right fun hall q hl hq => hall q hl (by omega)

/-- The elements with the values found are left behind. -/
theorem Sweeping.equal (h : Sweeping g n i left right found) (hmono : Ascending g n)
    (hsum : g i + g left + g right = 0) (hlt : left < right)
    (hl : left ≤ left') (hlr : left' ≤ right') (hr : right' ≤ right)
    (hleft : ∀ q, left ≤ q → q ≤ left' → g q = g left)
    (hright : ∀ r, right' ≤ r → r ≤ right → g r = g right)
    (hend : left' = right ∨ g left' ≠ g (left' + 1)) :
    Sweeping g n i (left' + 1) (right' - 1)
      (found ++ [{ fst := g i, snd := g left, trd := g right }]) := by
  have hgt := h.left_gt
  have hn := h.right_lt
  have hnot : ({ fst := g i, snd := g left, trd := g right } : Triple) ∉ found := by
    intro hmem
    rcases h.fresh _ hmem with hfst | hall
    · exact Int.lt_irrefl _ hfst
    · exact Int.lt_irrefl _ (hall left (Nat.le_refl left) hlt)
  refine ⟨by omega, by omega, ?_, fun t ht => ?_, fun t ht => ?_, fun q r hq hqr hrn hzero => ?_,
    fun t ht => ?_⟩
  · exact List.nodup_append'.mpr ⟨h.nodup, List.nodup_singleton _,
      List.disjoint_singleton.mpr hnot⟩
  · rcases List.mem_append.mp ht with hold | hnew
    · exact h.sound t hold
    · rw [List.mem_singleton] at hnew
      exact ⟨i, Nat.lt_succ_self i, left, right, hgt, hlt, hn, hnew, hsum⟩
  · exact List.mem_append_left _ (h.before t ht)
  · rw [List.mem_append, List.mem_singleton]
    rcases h.between q r hq hqr hrn hzero with hold | ⟨hlq, hrr⟩
    · exact .inl (.inl hold)
    · by_cases hql : q ≤ left'
      · have hgq := hleft q hlq hql
        exact .inl (.inr (by rw [hgq, show g r = g right by omega]))
      · by_cases hrr' : right' ≤ r
        · have hgr := hright r hrr' hrr
          exact .inl (.inr (by rw [hgr, show g q = g left by omega]))
        · exact .inr ⟨by omega, by omega⟩
  · rcases List.mem_append.mp ht with hold | hnew
    · exact (h.fresh t hold).imp_right fun hall q hq hqr => hall q (by omega) (by omega)
    · rw [List.mem_singleton] at hnew
      subst hnew
      refine .inr fun q hq hqr => ?_
      have hstart := hleft left' hl (Nat.le_refl left')
      have hstep := hmono left' (left' + 1) (by omega) (by omega)
      have hle := hmono (left' + 1) q hq (by omega)
      have hne := hend.resolve_left (by omega)
      simp only
      omega

end Training.SumOfThree
