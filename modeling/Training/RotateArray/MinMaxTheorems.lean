/-
Training.RotateArray.MinMaxTheorems — the smallest and the greatest
element are found in any rotation.

Two elements of a rotation fall if and only if the cliff is between them
(`Rotated.falls_iff`). The smallest element is behind the cliff and the
greatest in front of it, and each turn compares two elements to learn on
which side of the middle the cliff is. `find_max` keeps both borders, so
with two elements left a turn may change nothing: the `break` ends the
loop there, and the variant counts it as a turn.
-/
import Mathlib.Order.Bounds.Basic
import Training.RotateArray.Search
import Training.RotateArray.SearchTheorems

namespace Training.RotateArray

open Training.Lib Training.Lib.Arrays

variable {arr xs : List Int} {g : Nat → Int} {n p i j fuel : Nat}

theorem Rotated.falls_iff (h : Rotated g n p) (hij : i < j) (hj : j < n) :
    g j < g i ↔ i < p ∧ p ≤ j := by
  constructor
  · intro hfall
    by_contra hnot
    by_cases hjp : j < p
    · have hup := h.first i j hij hjp hj
      omega
    · have hup := h.second i j (by omega) hij hj
      omega
  · intro hcliff
    exact h.below i j hcliff.1 hcliff.2 hj

/-- Where the smallest element is. -/
def minPlace (n p : Nat) : Nat := if p < n then p else 0

/-- Where the greatest element is. -/
def maxPlace (n p : Nat) : Nat := if p = 0 ∨ n ≤ p then n - 1 else p - 1

theorem Rotated.min_le (h : Rotated g n p) (hi : i < n) : g (minPlace n p) ≤ g i := by
  unfold minPlace
  split
  · rename_i hp
    rcases Nat.lt_trichotomy i p with hlt | rfl | hgt
    · exact (h.below i p hlt (Nat.le_refl p) hp).le
    · exact le_refl _
    · exact (h.second p i (Nat.le_refl p) hgt hi).le
  · rename_i hp
    rcases Nat.eq_zero_or_pos i with rfl | hpos
    · exact le_refl _
    · exact (h.first 0 i hpos (by omega) hi).le

theorem Rotated.le_max (h : Rotated g n p) (hi : i < n) : g i ≤ g (maxPlace n p) := by
  unfold maxPlace
  split
  · rcases Nat.lt_or_ge i (n - 1) with hlt | hge
    · have hnot := mt (h.falls_iff hlt (by omega)).mp (by omega)
      omega
    · obtain rfl : i = n - 1 := by omega
      exact le_refl _
  · rcases Nat.lt_trichotomy i (p - 1) with hlt | rfl | hgt
    · exact (h.first i (p - 1) hlt (by omega) (by omega)).le
    · exact le_refl _
    · exact (h.below (p - 1) i (by omega) (by omega) hi).le

theorem minPlace_lt (hn : 0 < n) : minPlace n p < n := by
  unfold minPlace
  split <;> omega

theorem maxPlace_lt (hn : 0 < n) : maxPlace n p < n := by
  unfold maxPlace
  split <;> omega

theorem isLeast_view (hi : i < arr.length) (h : ∀ j, j < arr.length → view arr i ≤ view arr j) :
    IsLeast {x | x ∈ arr} (view arr i) := by
  refine ⟨view_eq hi ▸ List.getElem_mem hi, ?_⟩
  intro x hx
  obtain ⟨j, hj, rfl⟩ := List.mem_iff_getElem.mp hx
  exact view_eq hj ▸ h j hj

theorem isGreatest_view (hi : i < arr.length) (h : ∀ j, j < arr.length → view arr j ≤ view arr i) :
    IsGreatest {x | x ∈ arr} (view arr i) := by
  refine ⟨view_eq hi ▸ List.getElem_mem hi, ?_⟩
  intro x hx
  obtain ⟨j, hj, rfl⟩ := List.mem_iff_getElem.mp hx
  exact view_eq hj ▸ h j hj

/-- What a turn reads: whether the cliff is behind the middle. -/
theorem Rotated.middle {lo hi : Nat} (h : Rotated (view arr) arr.length p) (hlt : lo < hi)
    (hhi : hi < arr.length) : ∃ m : Nat, Borders.mid { left := lo, right := hi } = m ∧
      lo ≤ m ∧ m < hi ∧ (m = lo → hi = lo + 1) ∧ read arr m = some (view arr m) ∧
      read arr hi = some (view arr hi) ∧ (view arr hi < view arr m ↔ m < p ∧ p ≤ hi) := by
  refine ⟨lo + (hi - lo) / 2, ?_, by omega, by omega, by omega, read_eq_view (by omega),
    read_eq_view hhi, h.falls_iff (by omega) hhi⟩
  unfold Borders.mid
  push_cast [hlt.le]
  rfl

/-! ## The smallest element -/

/-- The smallest element is between the borders. -/
def MinInside (n p : Nat) (s : Borders) : Prop :=
  ∃ lo hi : Nat, s = { left := lo, right := hi } ∧ hi < n ∧ lo ≤ minPlace n p ∧ minPlace n p ≤ hi

theorem minTurn_spec (h : Rotated (view arr) arr.length p) {s : Borders}
    (hs : MinInside arr.length p s) : some s.apart = some false ∨
      some s.apart = some true ∧ ∃ s', minTurn arr s = some s' ∧ MinInside arr.length p s' ∧
        (s'.right - s'.left).toNat < (s.right - s.left).toNat := by
  obtain ⟨lo, hi, rfl, hhi, hlo, hle⟩ := hs
  by_cases hend : lo = hi
  · exact .inl (by simp [Borders.apart, hend])
  · refine .inr ⟨by simp [Borders.apart]; omega, ?_⟩
    obtain ⟨m, hmid, hlm, hmh, -, hreadMid, hreadRight, hfall⟩ :=
      h.middle (show lo < hi by omega) hhi
    simp only [minTurn, hmid, hreadMid, hreadRight, Option.bind_eq_bind, Option.bind_some]
    have hside : view arr hi < view arr m ↔ m < minPlace arr.length p := by
      rw [hfall]
      unfold minPlace at hle ⊢
      by_cases hp : p < arr.length
      · rw [if_pos hp] at hle ⊢
        omega
      · rw [if_neg hp]
        omega
    refine ⟨_, rfl, ?_⟩
    by_cases hcliff : view arr hi < view arr m
    · rw [if_pos hcliff]
      exact ⟨⟨m + 1, hi, rfl, hhi, hside.mp hcliff, hle⟩, by dsimp only; omega⟩
    · rw [if_neg hcliff]
      have hplace := Nat.le_of_not_lt (mt hside.mpr hcliff)
      exact ⟨⟨lo, m, rfl, by omega, hlo, hplace⟩, by dsimp only; omega⟩

theorem findMin_eq (h : Rotated (view arr) arr.length p) (hn : 0 < arr.length)
    (hfuel : arr.length ≤ fuel) : findMin fuel arr = some (view arr (minPlace arr.length p)) := by
  have hless : ((arr.length : Int) - 1 - 0).toNat < fuel := by omega
  have hstart : MinInside arr.length p { left := 0, right := arr.length - 1 } := by
    have hplace := minPlace_lt (p := p) hn
    exact ⟨0, arr.length - 1, by congr 1; omega, by omega, Nat.zero_le _, by omega⟩
  obtain ⟨s, hloop, ⟨lo, hi, rfl, hhi, hlo, hle⟩, hend⟩ :=
    loop_spec (fun s : Borders => (s.right - s.left).toNat) (fun s hs => minTurn_spec h hs)
      hstart hless
  simp only [Borders.apart, Option.some.injEq, decide_eq_false_iff_not] at hend
  obtain rfl : lo = minPlace arr.length p := by omega
  rw [findMin, if_neg (by omega), hloop]
  exact read_eq_view (by omega)

/-! ## The greatest element -/

/-- The cliff is between the borders. -/
def CliffInside (n p : Nat) (s : Halving) : Prop :=
  ∃ lo hi : Nat, s.toBorders = { left := lo, right := hi } ∧ hi < n ∧ lo < p ∧ p ≤ hi ∧
    (s.stopped = true → hi = lo + 1)

/-- The turns that are left: the `break` counts as one. -/
def Halving.turns (s : Halving) : Nat := if s.stopped then 0 else (s.right - s.left).toNat

theorem maxTurn_spec (h : Rotated (view arr) arr.length p) {s : Halving}
    (hs : CliffInside arr.length p s) : some (!s.stopped && s.apart) = some false ∨
      some (!s.stopped && s.apart) = some true ∧
        ∃ s', maxTurn arr s = some s' ∧ CliffInside arr.length p s' ∧ s'.turns < s.turns := by
  obtain ⟨⟨left, right⟩, stopped⟩ := s
  obtain ⟨lo, hi, hborders, hhi, hlo, hle, hstop⟩ := hs
  obtain ⟨rfl, rfl⟩ := Borders.mk.inj hborders
  cases stopped with
  | true => exact .inl rfl
  | false =>
    refine .inr ⟨by simp [Borders.apart]; omega, ?_⟩
    obtain ⟨m, hmid, hlm, hmh, hlast, hreadMid, hreadRight, hfall⟩ :=
      h.middle (show lo < hi by omega) hhi
    simp only [maxTurn, hmid, hreadMid, hreadRight, Option.bind_eq_bind, Option.bind_some]
    refine ⟨_, rfl, ?_⟩
    by_cases hcliff : view arr hi < view arr m
    · rw [if_pos hcliff]
      have hp := hfall.mp hcliff
      refine ⟨⟨m, hi, rfl, hhi, hp.1, hp.2, ?_⟩, ?_⟩
      · simp only [decide_eq_true_eq]
        omega
      · simp only [Halving.turns, decide_eq_true_eq, Bool.false_eq_true, if_false]
        split <;> omega
    · rw [if_neg hcliff]
      have hp := mt hfall.mpr hcliff
      refine ⟨⟨lo, m, rfl, by omega, hlo, by omega, ?_⟩, ?_⟩
      · simp only [decide_eq_true_eq]
        omega
      · simp only [Halving.turns, decide_eq_true_eq, Bool.false_eq_true, if_false]
        split <;> omega

theorem findMax_eq (h : Rotated (view arr) arr.length p) (hn : 0 < arr.length)
    (hfuel : arr.length ≤ fuel) : findMax fuel arr = some (view arr (maxPlace arr.length p)) := by
  have hlast : (arr.length : Int) - 1 = (arr.length - 1 : Nat) := by omega
  have hread : read arr 0 = some (view arr 0) := read_eq_view hn
  simp only [findMax, if_neg (show arr.length ≠ 0 by omega), hlast, hread,
    read_eq_view (show arr.length - 1 < arr.length by omega), Option.bind_eq_bind, Option.bind_some]
  by_cases hup : view arr 0 < view arr (arr.length - 1)
  · rw [if_pos hup, maxPlace, if_pos]
    · rfl
    · have hne : 0 ≠ arr.length - 1 := by
        intro heq
        rw [← heq] at hup
        exact absurd hup (lt_irrefl _)
      have hnot := mt (h.falls_iff (Nat.pos_of_ne_zero hne.symm) (by omega)).mpr (not_lt.mpr hup.le)
      omega
  · rw [if_neg hup]
    by_cases hone : arr.length = 1
    · obtain ⟨fuel, rfl⟩ : ∃ rest, fuel = rest + 1 := ⟨fuel - 1, by omega⟩
      have hplace : maxPlace arr.length p = 0 := by
        have hlt := maxPlace_lt (p := p) hn
        omega
      rw [hplace, hone]
      exact hread
    · have hcliff : 0 < p ∧ p ≤ arr.length - 1 := by
        refine (h.falls_iff (by omega) (by omega)).mp ?_
        have hdistinct := h.ne (i := 0) (j := arr.length - 1) (by omega) (by omega)
        omega
      have hstart : CliffInside arr.length p
          { left := 0, right := (arr.length - 1 : Nat), stopped := false } :=
        ⟨0, arr.length - 1, rfl, by omega, hcliff.1, hcliff.2, by simp⟩
      have hless : Halving.turns
          { left := 0, right := (arr.length - 1 : Nat), stopped := false } < fuel := by
        simp only [Halving.turns, Bool.false_eq_true, if_false]
        omega
      obtain ⟨s, hloop, ⟨lo, hi, hborders, hhi, hlo, hle, hstop⟩, hend⟩ :=
        loop_spec Halving.turns (fun s hs => maxTurn_spec h hs) hstart hless
      have hstopped : s.stopped = true := by
        simp only [Borders.apart, hborders, Option.some.injEq, Bool.and_eq_false_iff,
          Bool.not_eq_false', decide_eq_false_iff_not] at hend
        rcases hend with hstopped | hapart
        · exact hstopped
        · omega
      have hadjacent := hstop hstopped
      obtain rfl : lo = maxPlace arr.length p := by
        rw [maxPlace, if_neg (by omega)]
        omega
      rw [hloop, Option.bind_some, hborders]
      exact read_eq_view (by omega)

/-! ## Rotations -/

/-- In every rotation of a sorted array, the least and the greatest element
are found. -/
theorem findMin_findMax_rotate (hsorted : xs.Pairwise (· < ·)) (hne : xs ≠ []) (k : Nat) :
    ∃ turns, ∀ fuel, turns ≤ fuel → ∃ least greatest,
      findMin fuel (xs.rotate k) = some least ∧ IsLeast {x | x ∈ xs.rotate k} least ∧
      findMax fuel (xs.rotate k) = some greatest ∧
        IsGreatest {x | x ∈ xs.rotate k} greatest := by
  have h := rotated_rotate hsorted k
  have hn : 0 < (xs.rotate k).length := by
    rw [List.length_rotate]
    exact List.length_pos_iff.mpr hne
  exact ⟨(xs.rotate k).length, fun fuel hfuel => ⟨_, _, findMin_eq h hn hfuel,
    isLeast_view (minPlace_lt hn) fun j hj => h.min_le hj, findMax_eq h hn hfuel,
    isGreatest_view (maxPlace_lt hn) fun j hj => h.le_max hj⟩⟩

theorem findMin_findMax_rotate_five : ∃ turns, ∀ fuel, turns ≤ fuel → ∃ least greatest,
    findMin fuel ([1, 2, 3, 4, 5].rotate 3) = some least ∧
      IsLeast {x | x ∈ [1, 2, 3, 4, 5].rotate 3} least ∧
      findMax fuel ([1, 2, 3, 4, 5].rotate 3) = some greatest ∧
        IsGreatest {x | x ∈ [1, 2, 3, 4, 5].rotate 3} greatest :=
  findMin_findMax_rotate (by decide) (by decide) 3

end Training.RotateArray
