/-
Training.RotateArray.SearchTheorems — the target is found in any rotation.

A rotation of an increasing array is two increasing parts, with every
element of the second one below every element of the first
(`Rotated`). Between the borders at least one half lies in one part, and
its ends tell whether the target is in it (`Rotated.left_half`,
`Rotated.right_half`). So the target is never lost (`searchLoop_spec`).

`search2` looks at the left border after it has moved it, and before the
first turn it has not looked at it: of one element or two, the first is
never looked at (`search2_result`).
-/
import Training.RotateArray.Search

namespace Training.RotateArray

open Training.Lib Training.Lib.Arrays

variable {nums xs : List Int} {g : Nat → Int} {n p l m r t lo hi fuel : Nat} {target : Int}

/-- `g` increases on the first `p` elements and on the others, which are
below them. -/
structure Rotated (g : Nat → Int) (n p : Nat) : Prop where
  first : ∀ i j : Nat, i < j → j < p → j < n → g i < g j
  second : ∀ i j : Nat, p ≤ i → i < j → j < n → g i < g j
  below : ∀ i j : Nat, i < p → p ≤ j → j < n → g j < g i

theorem Rotated.ne {i j : Nat} (h : Rotated g n p) (hij : i < j) (hj : j < n) : g i ≠ g j := by
  by_cases hjp : j < p
  · exact (h.first i j hij hjp hj).ne
  · by_cases hip : i < p
    · exact (h.below i j hip (by omega) hj).ne'
    · exact (h.second i j (by omega) hij hj).ne

/-- The left half is in one part: the target is in it if it is between the
ends, and only then. -/
theorem Rotated.left_half (h : Rotated g n p) (hlm : l ≤ m) (hm : m < n) (hle : g l ≤ g m)
    (hlt : l ≤ t) (ht : t < n) (hne : t ≠ m) : t < m ↔ g l ≤ g t ∧ g t < g m := by
  have hsame : m < p ∨ p ≤ l := by
    by_contra hsplit
    have hbelow := h.below l m (by omega) (by omega) hm
    omega
  constructor
  · intro htm
    rcases hsame with hmp | hpl
    · have hup := h.first t m htm hmp hm
      by_cases hlt' : l < t
      · have hlow := h.first l t hlt' (by omega) ht
        omega
      · obtain rfl : l = t := by omega
        omega
    · have hup := h.second t m (by omega) htm hm
      by_cases hlt' : l < t
      · have hlow := h.second l t hpl hlt' ht
        omega
      · obtain rfl : l = t := by omega
        omega
  · rintro ⟨hlow, hup⟩
    by_contra htm
    rcases hsame with hmp | hpl
    · by_cases htp : t < p
      · have hlast := h.first m t (by omega) htp ht
        omega
      · have hbelow := h.below l t (by omega) (by omega) ht
        omega
    · have hlast := h.second m t (by omega) (by omega) ht
      omega

/-- Otherwise the right half is. -/
theorem Rotated.right_half (h : Rotated g n p) (hlm : l ≤ m) (hmr : m ≤ r) (hr : r < n)
    (hgt : g m < g l) (htr : t ≤ r) (hne : t ≠ m) :
    m < t ↔ g m < g t ∧ g t ≤ g r := by
  have hpm : l < p ∧ p ≤ m := by
    constructor
    · by_contra hpl
      have hlm' : l ≠ m := by
        rintro rfl
        omega
      have hup := h.second l m (by omega) (by omega) (by omega)
      omega
    · by_contra hmp
      have hlm' : l ≠ m := by
        rintro rfl
        omega
      have hup := h.first l m (by omega) (by omega) (by omega)
      omega
  constructor
  · intro hmt
    have hlow := h.second m t hpm.2 hmt (by omega)
    by_cases htr' : t < r
    · have hup := h.second t r (by omega) htr' hr
      omega
    · obtain rfl : t = r := by omega
      omega
  · rintro ⟨hlow, hup⟩
    by_contra hmt
    by_cases htp : t < p
    · have hbelow := h.below t r htp (by omega) hr
      omega
    · have hlast := h.second t m (by omega) (by omega) (by omega)
      omega

/-! ## The loop -/

/-- The target is nowhere but between the borders. -/
def Inside (nums : List Int) (target : Int) (lo hi : Nat) : Prop :=
  ∀ t, t < nums.length → view nums t = target → lo ≤ t ∧ t < hi

theorem isIndex_none (h : Inside nums target lo lo) : IsIndex nums target (-1) := by
  refine .inr ⟨rfl, fun hmem => ?_⟩
  obtain ⟨t, ht, heq⟩ := List.mem_iff_getElem.mp hmem
  have hin := h t ht (by rw [view_eq ht, heq])
  omega

/-- A turn finds the target, or the target stays between nearer borders. -/
theorem searchLoop_turn (h : Rotated (view nums) nums.length p) (hlt : lo < hi)
    (hhi : hi ≤ nums.length) (hin : Inside nums target lo hi) (fuel : Nat) :
    (∃ i, searchLoop nums target (fuel + 1) lo (hi - 1) = some i ∧ IsIndex nums target i) ∨
      ∃ lo' hi' : Nat, searchLoop nums target (fuel + 1) lo (hi - 1) =
          searchLoop nums target fuel lo' (hi' - 1) ∧
        Inside nums target lo' hi' ∧ lo' ≤ hi' ∧ hi' ≤ nums.length ∧ hi' - lo' < hi - lo := by
  obtain ⟨m, hm⟩ : ∃ m : Nat, m = lo + (hi - 1 - lo) / 2 := ⟨_, rfl⟩
  have hmid : (lo : Int) + ((hi : Int) - 1 - lo) / 2 = m := by omega
  have hmn : m < nums.length := by omega
  have hln : lo < nums.length := by omega
  have hright : (hi : Int) - 1 = (hi - 1 : Nat) := by omega
  rw [searchLoop, if_pos (by omega), hmid]
  simp only [read_eq_view hmn, Option.bind_eq_bind, Option.bind_some]
  by_cases hx : view nums m = target
  · rw [if_pos hx]
    exact .inl ⟨m, rfl, .inl ⟨m, rfl, by rw [getElem?_eq_view hmn, hx]⟩⟩
  · rw [if_neg hx, read_eq_view hln, Option.bind_some]
    have hne : ∀ t, view nums t = target → t ≠ m := by
      rintro t ht rfl
      exact hx ht
    refine .inr ?_
    by_cases hle : view nums lo ≤ view nums m
    · have hiff := fun t (ht : t < nums.length) (heq : view nums t = target) =>
        heq ▸ h.left_half (by omega) hmn hle (hin t ht heq).1 ht (hne t heq)
      rw [if_pos hle]
      by_cases hrange : view nums lo ≤ target ∧ target < view nums m
      · rw [if_pos hrange]
        refine ⟨lo, m, rfl, fun t ht heq => ?_, by omega, by omega, by omega⟩
        exact ⟨(hin t ht heq).1, (hiff t ht heq).mpr hrange⟩
      · rw [if_neg hrange]
        refine ⟨m + 1, hi, rfl, fun t ht heq => ?_, by omega, hhi, by omega⟩
        have hnot := mt (hiff t ht heq).mp hrange
        have htm := hne t heq
        exact ⟨by omega, (hin t ht heq).2⟩
    · have hiff := fun t (ht : t < nums.length) (heq : view nums t = target) =>
        heq ▸ h.right_half (l := lo) (m := m) (r := hi - 1) (t := t) (by omega) (by omega)
          (by omega) (by omega) (by have := hin t ht heq; omega) (hne t heq)
      have hholds : rightHolds nums (view nums m) target (hi - 1) =
          some (decide (view nums m < target ∧ target ≤ view nums (hi - 1))) := by
        rw [rightHolds, hright, read_eq_view (show hi - 1 < nums.length by omega)]
        by_cases hup : view nums m < target <;> simp [hup]
      rw [if_neg hle, hholds, Option.bind_some]
      by_cases hrange : view nums m < target ∧ target ≤ view nums (hi - 1)
      · rw [decide_eq_true hrange, if_pos rfl]
        refine ⟨m + 1, hi, rfl, fun t ht heq => ?_, by omega, hhi, by omega⟩
        exact ⟨(hiff t ht heq).mpr hrange, (hin t ht heq).2⟩
      · rw [decide_eq_false hrange, if_neg (by simp)]
        refine ⟨lo, m, rfl, fun t ht heq => ?_, by omega, by omega, by omega⟩
        have hnot := mt (hiff t ht heq).mp hrange
        have htm := hne t heq
        exact ⟨(hin t ht heq).1, by omega⟩

theorem searchLoop_spec (h : Rotated (view nums) nums.length p) (hlo : lo ≤ hi)
    (hhi : hi ≤ nums.length) (hfuel : hi - lo < fuel) (hin : Inside nums target lo hi) :
    ∃ i, searchLoop nums target fuel lo (hi - 1) = some i ∧ IsIndex nums target i := by
  induction fuel generalizing lo hi with
  | zero => omega
  | succ fuel ih =>
    rcases Nat.lt_or_eq_of_le hlo with hlt | rfl
    · rcases searchLoop_turn h hlt hhi hin fuel with
        hfound | ⟨lo', hi', hturn, hin', hle, hn, hless⟩
      · exact hfound
      · rw [hturn]
        exact ih hle hn (by omega) hin'
    · rw [searchLoop]
      exact ⟨-1, if_neg (by omega), isIndex_none hin⟩

/-! ## The loop of `search2` -/

/-- What `halve` asks of the two elements is whether the target is up to the
middle. At the left border it cannot tell if that is the middle. -/
theorem Rotated.up_to_middle (h : Rotated g n p) (hlm : l ≤ m) (hm : m < n) (hlt : l ≤ t)
    (ht : t < n) (hne : l < m ∨ l ≠ t) : t ≤ m ↔
      g l < g m ∧ (g l ≤ g t ∧ g t ≤ g m) ∨ g m < g l ∧ (g l ≤ g t ∨ g t ≤ g m) := by
  have hle : ∀ i j, i ≤ j → j < n → (j < p ∨ p ≤ i) → g i ≤ g j := by
    intro i j hij hj hsame
    rcases Nat.lt_or_eq_of_le hij with hlt' | rfl
    · rcases hsame with hjp | hpi
      · exact (h.first i j hlt' hjp hj).le
      · exact (h.second i j hpi hlt' hj).le
    · exact le_refl _
  rcases Nat.lt_or_eq_of_le hlm with hlm | rfl
  · by_cases hcliff : l < p ∧ p ≤ m
    · have hdown := h.below l m hcliff.1 hcliff.2 hm
      constructor
      · intro htm
        refine .inr ⟨hdown, ?_⟩
        by_cases htp : t < p
        · exact .inl (hle l t hlt ht (.inl htp))
        · exact .inr (hle t m htm hm (by omega))
      · intro hbetween
        by_contra htm
        have hlast := h.second m t (by omega) (by omega) ht
        have hdrop := h.below l t (by omega) (by omega) ht
        omega
    · have hup := hle l m hlm.le hm (by omega)
      have hdistinct := h.ne hlm hm
      constructor
      · intro htm
        exact .inl ⟨by omega, hle l t hlt ht (by omega), hle t m htm hm (by omega)⟩
      · intro hbetween
        by_contra htm
        by_cases hpart : m < p ∧ p ≤ t
        · have hdrop := h.below l t (by omega) hpart.2 ht
          omega
        · have hlast := hle m t (by omega) ht (by omega)
          have hdistinct' := h.ne (show m < t by omega) ht
          omega
  · constructor
    · intro htl
      omega
    · rintro (⟨hup, -⟩ | ⟨hdown, -⟩) <;> omega

theorem halve_eq (x y target left mid right : Int) : halve x y target left mid right =
    if x < y ∧ (x ≤ target ∧ target ≤ y) ∨ y < x ∧ (x ≤ target ∨ target ≤ y) then (left, mid)
    else (mid + 1, right) := by
  unfold halve
  by_cases hup : x < y ∧ (x ≤ target ∧ target ≤ y)
  · rw [if_pos hup, if_pos (.inl hup)]
  · by_cases hdown : y < x ∧ (x ≤ target ∨ target ≤ y)
    · rw [if_neg hup, if_pos hdown, if_pos (.inr hdown)]
    · rw [if_neg hup, if_neg hdown, if_neg (not_or.mpr ⟨hup, hdown⟩)]

/-- A turn finds the target, or the target stays between nearer borders and
is not at the left one. -/
theorem search2Loop_turn (h : Rotated (view nums) nums.length p) (hlt : lo < hi)
    (hhi : hi < nums.length) (hin : Inside nums target lo (hi + 1))
    (hlooked : view nums lo ≠ target) (fuel : Nat) :
    (∃ i, search2Loop nums target (fuel + 1) lo hi = some i ∧ IsIndex nums target i) ∨
      ∃ lo' hi' : Nat, search2Loop nums target (fuel + 1) lo hi =
          search2Loop nums target fuel lo' hi' ∧
        Inside nums target lo' (hi' + 1) ∧ view nums lo' ≠ target ∧ lo' ≤ hi' ∧
          hi' < nums.length ∧ hi' - lo' < hi - lo := by
  obtain ⟨m, hm⟩ : ∃ m : Nat, m = lo + (hi - lo) / 2 := ⟨_, rfl⟩
  have hmid : (lo : Int) + ((hi : Int) - lo) / 2 = m := by omega
  have hln : lo < nums.length := by omega
  have hmn : m < nums.length := by omega
  have hnext : ((m : Int) + 1) = (m + 1 : Nat) := rfl
  rw [search2Loop, if_pos (by omega), hmid]
  simp only [read_eq_view hln, read_eq_view hmn, Option.bind_eq_bind, Option.bind_some]
  have hiff := fun t (ht : t < nums.length) (heq : view nums t = target) => by
    have hne : lo ≠ t := by
      rintro rfl
      exact hlooked heq
    exact heq ▸ h.up_to_middle (l := lo) (m := m) (by omega) hmn (hin t ht heq).1 ht (.inr hne)
  rw [halve_eq]
  by_cases hkeep : view nums lo < view nums m ∧ (view nums lo ≤ target ∧ target ≤ view nums m) ∨
      view nums m < view nums lo ∧ (view nums lo ≤ target ∨ target ≤ view nums m)
  · rw [if_pos hkeep, read_eq_view hln, Option.bind_some, if_neg hlooked]
    refine .inr ⟨lo, m, rfl, fun t ht heq => ?_, hlooked, by omega, hmn, by omega⟩
    have htm := (hiff t ht heq).mpr hkeep
    exact ⟨(hin t ht heq).1, by omega⟩
  · rw [if_neg hkeep, hnext, read_eq_view (show m + 1 < nums.length by omega), Option.bind_some]
    by_cases hfound : view nums (m + 1) = target
    · rw [if_pos hfound]
      exact .inl ⟨_, rfl, .inl ⟨m + 1, rfl, by rw [getElem?_eq_view (by omega), hfound]⟩⟩
    · rw [if_neg hfound]
      refine .inr ⟨m + 1, hi, rfl, fun t ht heq => ?_, hfound, by omega, hhi, by omega⟩
      have hnot := mt (hiff t ht heq).mp hkeep
      exact ⟨by omega, (hin t ht heq).2⟩

theorem search2Loop_spec (h : Rotated (view nums) nums.length p) (hlo : lo ≤ hi)
    (hhi : hi < nums.length) (hfuel : hi - lo < fuel) (hin : Inside nums target lo (hi + 1))
    (hlooked : view nums lo ≠ target) :
    ∃ i, search2Loop nums target fuel lo hi = some i ∧ IsIndex nums target i := by
  induction fuel generalizing lo hi with
  | zero => omega
  | succ fuel ih =>
    rcases Nat.lt_or_eq_of_le hlo with hlt | rfl
    · rcases search2Loop_turn h hlt hhi hin hlooked fuel with
        hfound | ⟨lo', hi', hturn, hin', hlooked', hle, hn, hless⟩
      · exact hfound
      · rw [hturn]
        exact ih hle hn (by omega) hin' hlooked'
    · rw [search2Loop]
      refine ⟨-1, if_neg (by omega), isIndex_none (?_ : Inside nums target lo lo)⟩
      intro t ht heq
      have ht' := hin t ht heq
      obtain rfl : t = lo := by omega
      exact absurd heq hlooked

theorem search2_eq (hn : nums.length ≠ 0) :
    search2 fuel nums target = search2Loop nums target fuel (0 : Nat) (nums.length - 1 : Nat) := by
  have hlast : (nums.length : Int) - 1 = (nums.length - 1 : Nat) := by omega
  rw [search2, if_neg hn, hlast]
  rfl

/-- A target at the first of three or more elements is seen when the left
half is kept. -/
theorem search2_first (hn : 2 < nums.length) (h : Rotated (view nums) nums.length p)
    (hfirst : view nums 0 = target) (hfuel : 0 < fuel) : search2 fuel nums target = some 0 := by
  obtain ⟨fuel, rfl⟩ : ∃ rest, fuel = rest + 1 := ⟨fuel - 1, by omega⟩
  obtain ⟨m, hm⟩ : ∃ m : Nat, m = (nums.length - 1) / 2 := ⟨_, rfl⟩
  have hmid : ((0 : Nat) : Int) + (((nums.length - 1 : Nat) : Int) - (0 : Nat)) / 2 = m := by omega
  have h0 : 0 < nums.length := by omega
  have hmn : m < nums.length := by omega
  have hkeep := (h.up_to_middle (l := 0) (m := m) (t := 0) (by omega) hmn (Nat.le_refl 0) h0
    (.inl (by omega))).mp (Nat.zero_le m)
  have hborders : halve (view nums 0) (view nums m) target (0 : Nat) m (nums.length - 1 : Nat) =
      (((0 : Nat) : Int), (m : Int)) := by
    rw [halve_eq, ← hfirst, if_pos hkeep]
  rw [search2_eq (by omega), search2Loop, if_pos (by omega), hmid]
  simp only [read_eq_view h0, read_eq_view hmn, Option.bind_eq_bind, Option.bind_some, hborders]
  rw [if_pos hfirst]
  rfl

/-- One of two elements or of one is not seen there. -/
theorem search2_misses (hn : nums.length ≤ 2) (h : Rotated (view nums) nums.length p)
    (hfirst : nums[0]? = some target) (hfuel : 1 < fuel) :
    search2 fuel nums target = some (-1) := by
  obtain ⟨fuel, rfl⟩ : ∃ rest, fuel = rest + 2 := ⟨fuel - 2, by omega⟩
  obtain ⟨h0, hfirst'⟩ := view_of_getElem? hfirst
  rw [search2_eq (by omega)]
  by_cases hone : nums.length = 1
  · rw [search2Loop, if_neg (by omega)]
  · have htwo : nums.length - 1 = 1 := by omega
    have h1 : 1 < nums.length := by omega
    have hother : view nums 1 ≠ target := by
      rw [← hfirst']
      exact (h.ne Nat.zero_lt_one h1).symm
    have hhalve : halve target target target (0 : Nat) (0 : Nat) (1 : Nat) = (1, 1) := by
      simp [halve]
    have hread : read nums 1 = some (view nums 1) := read_eq_view h1
    rw [htwo, search2Loop, if_pos (by omega)]
    simp only [show ((0 : Nat) : Int) + (((1 : Nat) : Int) - (0 : Nat)) / 2 = (0 : Nat) from rfl,
      read_eq_view h0, hfirst', Option.bind_eq_bind, Option.bind_some, hhalve, hread]
    rw [if_neg hother, search2Loop, if_neg (by omega)]

theorem search2_result (h : Rotated (view nums) nums.length p) (hfuel : nums.length < fuel)
    (hlooked : 2 < nums.length ∨ nums[0]? ≠ some target) :
    ∃ i, search2 fuel nums target = some i ∧ IsIndex nums target i := by
  by_cases hn : nums.length = 0
  · refine ⟨-1, if_pos hn, .inr ⟨rfl, ?_⟩⟩
    rw [List.length_eq_zero_iff.mp hn]
    exact List.not_mem_nil
  · have h0 : 0 < nums.length := by omega
    by_cases hfirst : view nums 0 = target
    · have hget : nums[0]? = some target := by rw [getElem?_eq_view h0, hfirst]
      rcases hlooked with hlong | hother
      · exact ⟨0, search2_first hlong h hfirst (by omega), .inl ⟨0, rfl, hget⟩⟩
      · exact absurd hget hother
    · rw [search2_eq hn]
      exact search2Loop_spec h (Nat.zero_le _) (by omega) (by omega)
        (fun t ht _ => ⟨Nat.zero_le t, by omega⟩) hfirst

/-! ## Rotations -/

theorem rotated_append {ys zs : List Int} (h : (zs ++ ys).Pairwise (· < ·)) :
    Rotated (view (ys ++ zs)) (ys ++ zs).length ys.length := by
  obtain ⟨hzs, hys, hbetween⟩ := List.pairwise_append.mp h
  rw [List.pairwise_iff_getElem] at hzs hys
  have hleft : ∀ i (hi : i < ys.length), view (ys ++ zs) i = ys[i] := by
    intro i hi
    rw [view, List.getD_append _ _ _ _ hi, List.getD_eq_getElem _ _ hi]
  have hright : ∀ i (hi : i - ys.length < zs.length), ys.length ≤ i →
      view (ys ++ zs) i = zs[i - ys.length] := by
    intro i hi hle
    rw [view, List.getD_append_right _ _ _ _ hle, List.getD_eq_getElem _ _ hi]
  rw [List.length_append]
  constructor
  · intro i j hij hj _
    rw [hleft i (by omega), hleft j hj]
    exact hys i j (by omega) hj hij
  · intro i j hi hij hj
    rw [hright i (by omega) hi, hright j (by omega) (by omega)]
    exact hzs _ _ (by omega) (by omega) (by omega)
  · intro i j hi hj hjn
    rw [hleft i hi, hright j (by omega) hj]
    exact hbetween _ (List.getElem_mem _) _ (List.getElem_mem _)

theorem rotated_rotate (hsorted : xs.Pairwise (· < ·)) (k : Nat) :
    Rotated (view (xs.rotate k)) (xs.rotate k).length (xs.drop (k % xs.length)).length := by
  rw [List.rotate_eq_drop_append_take_mod]
  refine rotated_append ?_
  rwa [List.take_append_drop]

theorem search1_result (hsorted : xs.Pairwise (· < ·)) (k : Nat) (target : Int)
    (hfuel : xs.length < fuel) : ∃ i, search1 fuel (xs.rotate k) target = some i ∧
      IsIndex (xs.rotate k) target i := by
  have hin : Inside (xs.rotate k) target 0 (xs.rotate k).length :=
    fun t ht _ => ⟨Nat.zero_le t, ht⟩
  have hlen := List.length_rotate xs k
  exact searchLoop_spec (rotated_rotate hsorted k) (Nat.zero_le _) (Nat.le_refl _) (by omega) hin

/-- In every rotation of a sorted array the first search returns the index of
the target, or -1 where it is not there. -/
theorem search1_finds (hsorted : xs.Pairwise (· < ·)) (k : Nat) (target : Int) :
    ∃ turns, ∀ fuel, turns ≤ fuel → ∃ i, search1 fuel (xs.rotate k) target = some i ∧
      IsIndex (xs.rotate k) target i :=
  ⟨xs.length + 1, fun _ hfuel => search1_result hsorted k target hfuel⟩

theorem search1_finds_eight : ∃ turns, ∀ fuel, turns ≤ fuel →
    ∃ i, search1 fuel ([0, 1, 2, 3, 5, 6, 7, 9].rotate 3) 6 = some i ∧
      IsIndex ([0, 1, 2, 3, 5, 6, 7, 9].rotate 3) 6 i :=
  search1_finds (by decide) 3 6

/-! ## The two searches -/

/-- The elements are distinct. -/
theorem isIndex_unique {i j : Int} (h : Rotated (view nums) nums.length p)
    (hi : IsIndex nums target i) (hj : IsIndex nums target j) : i = j := by
  rcases hi with ⟨a, rfl, ha⟩ | ⟨rfl, hi⟩
  · rcases hj with ⟨b, rfl, hb⟩ | ⟨rfl, hj⟩
    · obtain ⟨han, hva⟩ := view_of_getElem? ha
      obtain ⟨hbn, hvb⟩ := view_of_getElem? hb
      by_contra hne
      rcases Nat.lt_or_gt_of_ne (show a ≠ b by omega) with hab | hba
      · have hdistinct := h.ne hab hbn
        omega
      · have hdistinct := h.ne hba han
        omega
    · exact absurd (List.mem_of_getElem? ha) hj
  · rcases hj with ⟨b, rfl, hb⟩ | ⟨rfl, hj⟩
    · exact absurd (List.mem_of_getElem? hb) hi
    · rfl

/-- `search2` misses the first of two elements or of one, and nothing else. -/
theorem searchesAgree_iff (hsorted : xs.Pairwise (· < ·)) (k : Nat) (target : Int) :
    SearchesAgree (xs.rotate k) target ↔ 2 < xs.length ∨ (xs.rotate k)[0]? ≠ some target := by
  have hrotated := rotated_rotate hsorted k
  have hlen := List.length_rotate xs k
  constructor
  · intro ⟨turns, hagree⟩
    by_contra hmissed
    obtain ⟨i, h2, h1⟩ := hagree (turns + xs.length + 2) (by omega)
    have hfirst : (xs.rotate k)[0]? = some target := by
      by_contra hother
      exact hmissed (.inr hother)
    rw [search2_misses (by omega) hrotated hfirst (by omega), Option.some.injEq] at h2
    have hfuel : xs.length < turns + xs.length + 2 := by omega
    obtain ⟨j, h1', hj⟩ := search1_result hsorted k target hfuel
    rw [h1, Option.some.injEq] at h1'
    obtain rfl := h1'
    rcases hj with ⟨a, ha, -⟩ | ⟨-, habsent⟩
    · omega
    · exact habsent (List.mem_of_getElem? hfirst)
  · intro hlooked
    refine ⟨xs.length + 1, fun fuel hfuel => ?_⟩
    have hless : (xs.rotate k).length < fuel := by omega
    obtain ⟨i, h2, hi⟩ := search2_result hrotated hless (by rwa [hlen])
    obtain ⟨j, h1, hj⟩ := search1_result hsorted k target hfuel
    exact ⟨i, h2, isIndex_unique hrotated hj hi ▸ h1⟩

theorem searchesAgree_iff_eight :
    SearchesAgree ([0, 1, 2, 3, 5, 6, 7, 9].rotate 3) 6 ↔
      2 < [0, 1, 2, 3, 5, 6, 7, 9].length ∨
        ([(0 : Int), 1, 2, 3, 5, 6, 7, 9].rotate 3)[0]? ≠ some 6 := by
  have hsorted : [0, 1, 2, 3, 5, 6, 7, 9].Pairwise (fun x y : Int => x < y) := by decide
  exact searchesAgree_iff hsorted 3 6

theorem not_searchesAgree_one : ¬∀ (xs : List Int) (k : Nat) (target : Int),
    xs.Pairwise (· < ·) → SearchesAgree (xs.rotate k) target := by
  intro h
  obtain ⟨turns, hagree⟩ := h [5] 0 5 (List.pairwise_singleton _ _)
  obtain ⟨i, h2, h1⟩ := hagree (turns + 1) (by omega)
  have h2' : search2 (turns + 1) ([5].rotate 0) 5 = some (-1) := rfl
  have h1' : search1 (turns + 1) ([5].rotate 0) 5 = some 0 := rfl
  rw [h2'] at h2
  rw [h1', ← h2] at h1
  exact absurd h1 (by decide)

end Training.RotateArray
