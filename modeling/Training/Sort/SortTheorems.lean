/-
Training.Sort.SortTheorems — the three sorts sort.

Each sort permutes the array. The insertion of `data[i]` with a gap keeps
the elements up to a hole (`shift_spec`); with the gap 1 it makes the
sorted part longer (`insertGapped_spec`), and 1 is the last gap of
`shell_sort` (`shellSort_spec`). A round of `bubble_sort` brings the
largest of the elements left to its place (`bubbleSort_spec`). A sorted
permutation is one array (`sorts_agree`).
-/
import Mathlib.Data.List.Sort
import Training.Sort.Sorts

namespace Training.Sort

open Training.Lib Training.Lib.Arrays

variable {data data' : List Int} {step fuel i j : Nat} {tmp : Int}

/-! ## Insertion -/

/-- The elements up to `i`, but for the hole `h`, are sorted, and the ones
behind the hole are larger than `tmp`. -/
structure Holed (i h : Nat) (tmp : Int) (data : List Int) : Prop where
  sorted : ∀ a b, a < b → b ≤ i → a ≠ h → b ≠ h → data.getD a 0 ≤ data.getD b 0
  behind : ∀ b, h < b → b ≤ i → tmp < data.getD b 0

/-- The hole moves to the element in front of it. -/
theorem holed_move (h : Holed i (j + 1) tmp data) (hj : j + 1 ≤ i) (hlt : i < data.length)
    (htmp : tmp < data.getD j 0) : Holed i j tmp (data.set (j + 1) (data.getD j 0)) := by
  have hget := getD_set (i := j + 1) (by omega : j + 1 < data.length) (data.getD j 0) 0
  refine ⟨fun a b hab hb ha hbj => ?_, fun b hjb hb => ?_⟩
  · rw [hget, hget]
    split
    · split
      · omega
      · exact h.sorted j b (by omega) hb (by omega) (by omega)
    · split
      · exact h.sorted a j (by omega) (by omega) (by omega) (by omega)
      · exact h.sorted a b hab hb (by omega) (by omega)
  · rw [hget]
    split
    · exact htmp
    · exact h.behind b (by omega) hb

/-- The hole is filled. -/
theorem sortedUpTo_of_holed {h : Nat} (hh : Holed i h tmp data) (hhi : h ≤ i)
    (hlt : i < data.length) (hfront : ∀ a, a < h → data.getD a 0 ≤ tmp) :
    SortedUpTo (i + 1) (data.set h tmp) := by
  have hget := getD_set (by omega : h < data.length) tmp 0
  intro a b hab hb
  show (data.set h tmp).getD a 0 ≤ (data.set h tmp).getD b 0
  rw [hget, hget]
  split
  · split
    · omega
    · exact le_of_lt (hh.behind b (by omega) (by omega))
  · split
    · exact hfront a (by omega)
    · exact hh.sorted a b hab (by omega) (by omega) (by omega)

/-- A state of the inner loop for `data[i]`: the hole is at `j + step`. -/
def Shifting (step i : Nat) (tmp : Int) (data : List Int) (s : Int × List Int) : Prop :=
  ∃ h : Nat, s.1 = (h : Int) - step ∧ h ≤ i ∧ s.2.length = data.length ∧
    (s.2.set h tmp).Perm (data.set i tmp) ∧ (step = 1 → Holed i h tmp s.2)

theorem shiftTurn_spec (hstep : 0 < step) (hlt : i < data.length) {s : Int × List Int}
    (hs : Shifting step i tmp data s) :
    shiftTest tmp s = some false ∨ shiftTest tmp s = some true ∧ ∃ s', shiftTurn step s = some s' ∧
      Shifting step i tmp data s' ∧ (s'.1 + 1).toNat < (s.1 + 1).toNat := by
  obtain ⟨j, data'⟩ := s
  obtain ⟨h, hj, hhi, hlen, hperm, hholed⟩ := hs
  dsimp only at hj hlen hperm hholed
  subst hj
  by_cases hneg : 0 ≤ (h : Int) - step
  · have hprev : (h : Int) - step = (h - step : Nat) := by omega
    have hback : ((h - step : Nat) : Int) + step = h := by omega
    have hread : read data' ((h - step : Nat) : Int) = some data'[h - step] := read_eq (by omega)
    rw [hprev]
    by_cases htmp : tmp < data'[h - step]
    · refine Or.inr ⟨by simp [shiftTest, hread, htmp],
        (((h - step : Nat) : Int) - step, data'.set h data'[h - step]), ?_, ?_, by simp only; omega⟩
      · simp [shiftTurn, hread, hback, write_eq (by omega : h < data'.length)]
      · refine ⟨h - step, rfl, by omega, by simpa using hlen, ?_, fun hone => ?_⟩
        · exact (set_set_perm (by omega) (by omega) (by omega)).trans hperm
        · subst hone
          have hmove := hholed rfl
          rw [show h = h - 1 + 1 by omega] at hmove
          rw [← List.getD_eq_getElem data' 0] at htmp ⊢
          have hmoved := holed_move hmove (by omega) (by omega) htmp
          rwa [show h - 1 + 1 = h by omega] at hmoved
    · exact Or.inl (by simp [shiftTest, hread, htmp])
  · exact Or.inl (if_neg hneg)

/-- The inner loop ends with the hole at the place of `tmp`. -/
theorem shift_spec (hstep : 0 < step) (hlt : i < data.length) (hfuel : i < fuel)
    (hsorted : step = 1 → SortedUpTo i data) :
    ∃ (h : Nat) (data' : List Int),
      loop (shiftTest tmp) (shiftTurn step) fuel ((i : Int) - step, data) = some ((h : Int) - step, data') ∧
      h ≤ i ∧ data'.length = data.length ∧ (data'.set h tmp).Perm (data.set i tmp) ∧
      (step = 1 → SortedUpTo (i + 1) (data'.set h tmp)) := by
  have h0 : Shifting step i tmp data ((i : Int) - step, data) := by
    refine ⟨i, rfl, Nat.le_refl i, rfl, List.Perm.refl _, fun hone => ⟨fun a b hab hb _ hbi => ?_,
      fun b hib hb => by omega⟩⟩
    exact hsorted hone a b hab (by omega)
  obtain ⟨⟨j, data'⟩, hloop, ⟨h, hj, hhi, hlen, hperm, hholed⟩, hend⟩ :=
    loop_spec (fun s : Int × List Int => (s.1 + 1).toNat) (fun s hs => shiftTurn_spec hstep hlt hs) h0
      (show ((i : Int) - step + 1).toNat < fuel by omega)
  dsimp only at hj hlen hperm hholed
  subst hj
  refine ⟨h, data', hloop, hhi, hlen, hperm, fun hone => ?_⟩
  refine sortedUpTo_of_holed (hholed hone) hhi (by omega) fun a ha => ?_
  -- the test has failed at the element in front of the hole
  subst hone
  have hprev : (h : Int) - (1 : Nat) = (h - 1 : Nat) := by omega
  have hread : read data' ((h - 1 : Nat) : Int) = some data'[h - 1] := read_eq (by omega)
  rw [hprev, shiftTest, if_pos (Int.natCast_nonneg _), hread, Option.map_some, Option.some.injEq,
    decide_eq_false_iff_not, not_lt] at hend
  rw [← List.getD_eq_getElem _ 0] at hend
  by_cases hfirst : a = h - 1
  · exact hfirst ▸ hend
  · exact le_trans ((hholed rfl).sorted a (h - 1) (by omega) (by omega) (by omega) (by omega)) hend

theorem insertGapped_spec (hstep : 0 < step) (hlt : i < data.length)
    (hfuel : i < fuel) (hsorted : step = 1 → SortedUpTo i data) :
    ∃ data', insertGapped step fuel i data = some data' ∧ data'.Perm data ∧
      (step = 1 → SortedUpTo (i + 1) data') := by
  obtain ⟨h, data', hshift, hhi, hlen, hperm, hsorted'⟩ :=
    @shift_spec data step fuel i data[i] hstep hlt hfuel hsorted
  refine ⟨data'.set h data[i], ?_, ?_, hsorted'⟩
  · have hback : (h : Int) - step + step = h := by omega
    simp [insertGapped, read_eq hlt, hshift, hback, write_eq (by omega : h < data'.length)]
  · rwa [List.set_getElem_self] at hperm

/-- The loop over `i`. -/
theorem insertGapped_loop (hstep : 0 < step) (hfuel : data.length ≤ fuel) :
    ∃ data', forLoop (insertGapped step fuel) step (data.length - step) data = some data' ∧
      data'.Perm data ∧ (step = 1 → SortedUpTo data.length data') := by
  have h0 : step = 1 → SortedUpTo step data := by
    rintro rfl a b hab hb
    omega
  have hturn : ∀ k d, step ≤ k → k < step + (data.length - step) →
      d.Perm data ∧ (step = 1 → SortedUpTo k d) →
      ∃ d', insertGapped step fuel k d = some d' ∧
        d'.Perm data ∧ (step = 1 → SortedUpTo (k + 1) d') := by
    rintro k d hk hlt ⟨hperm, hsorted⟩
    have hlen := hperm.length_eq
    obtain ⟨d', hinsert, hperm', hsorted'⟩ :=
      insertGapped_spec hstep (by omega) (by omega : k < fuel) hsorted
    exact ⟨d', hinsert, hperm'.trans hperm, hsorted'⟩
  obtain ⟨data', hloop, hperm, hsorted⟩ := forLoop_spec hturn ⟨List.Perm.refl _, h0⟩
  exact ⟨data', hloop, hperm, fun hone a b hab hb => hsorted hone a b hab (by omega)⟩

theorem insertSort_spec (hfuel : data.length ≤ fuel) :
    ∃ data', insertSort fuel data data.length = some data' ∧ data'.Perm data ∧
      data'.Pairwise (· ≤ ·) := by
  obtain ⟨data', hloop, hperm, hsorted⟩ := insertGapped_loop Nat.one_pos hfuel
  refine ⟨data', hloop, hperm, pairwise_of_sortedUpTo ?_⟩
  rw [hperm.length_eq]
  exact hsorted rfl

/-- The array after the turns of the loop over `step`. -/
def Gapped (data : List Int) (s : Nat × List Int) : Prop :=
  s.2.Perm data ∧ (s.1 = 0 → SortedUpTo data.length s.2)

theorem shellTurn_spec (hfuel : data.length ≤ fuel) {s : Nat × List Int} (hs : Gapped data s)
    (hpos : 0 < s.1) :
    ∃ s', shellTurn fuel data.length s = some s' ∧ Gapped data s' ∧ s'.1 < s.1 := by
  obtain ⟨step, d⟩ := s
  obtain ⟨hperm, -⟩ := hs
  dsimp only at hperm hpos
  have hlen := hperm.length_eq
  obtain ⟨d', hloop, hperm', hsorted⟩ := insertGapped_loop hpos (by omega : d.length ≤ fuel)
  rw [hlen] at hloop hsorted
  refine ⟨(step / 2, d'), by simp [shellTurn, hloop], ⟨hperm'.trans hperm, fun hzero => ?_⟩,
    Nat.div_lt_self hpos (by decide)⟩
  dsimp only at hzero
  exact hsorted (by omega)

/-- After the gap 1 the array is sorted. -/
theorem shellSort_spec (hfuel : data.length < fuel) :
    ∃ data', shellSort fuel data data.length = some data' ∧ data'.Perm data ∧
      data'.Pairwise (· ≤ ·) := by
  have h0 : Gapped data (data.length / 2, data) :=
    ⟨List.Perm.refl _, fun hzero a b hab hb => by dsimp only at hzero; omega⟩
  have hturn : ∀ s, Gapped data s → some (decide (s.1 > 0)) = some false ∨
      some (decide (s.1 > 0)) = some true ∧
        ∃ s', shellTurn fuel data.length s = some s' ∧ Gapped data s' ∧ s'.1 < s.1 := by
    intro s hs
    rcases Nat.eq_zero_or_pos s.1 with hzero | hpos
    · exact Or.inl (by simp [hzero])
    · exact Or.inr ⟨by simp [hpos], shellTurn_spec (by omega) hs hpos⟩
  obtain ⟨s, hloop, ⟨hperm, hsorted⟩, hend⟩ :=
    loop_spec Prod.fst hturn h0 (by dsimp only; omega : (data.length / 2, data).1 < fuel)
  refine ⟨s.2, by simp [shellSort, hloop], hperm, pairwise_of_sortedUpTo ?_⟩
  rw [hperm.length_eq]
  exact hsorted (by simpa using hend)

/-! ## Exchanges -/

/-- The larger one of two neighbours comes last. -/
theorem compareSwap_spec (hj : j + 1 < data.length) :
    ∃ data', compareSwap j data = some data' ∧ data'.Perm data ∧
      ((∀ a, data'.getD a 0 = data.getD (if a = j then j + 1 else if a = j + 1 then j else a) 0) ∧
          data.getD (j + 1) 0 < data.getD j 0 ∨
        data' = data ∧ data.getD j 0 ≤ data.getD (j + 1) 0) := by
  have hlt : j < data.length := by omega
  have hx : read data j = some data[j] := read_eq hlt
  have hy : read data ((j : Int) + 1) = some data[j + 1] := by exact_mod_cast read_eq hj
  rw [List.getD_eq_getElem data 0 hj, List.getD_eq_getElem data 0 hlt]
  by_cases hgt : data[j] > data[j + 1]
  · have hwrite : write (data.set j data[j + 1]) ((j : Int) + 1) data[j] =
        some ((data.set j data[j + 1]).set (j + 1) data[j]) := by
      exact_mod_cast write_eq (by simpa using hj) _
    refine ⟨(data.set j data[j + 1]).set (j + 1) data[j], ?_, List.set_set_perm hlt hj,
      Or.inl ⟨fun a => ?_, hgt⟩⟩
    · simp [compareSwap, hx, hy, hgt, write_eq hlt, hwrite]
    · rw [getD_set (by simpa using hj), getD_set hlt]
      by_cases ha : a = j
      · rw [if_neg (by omega), if_pos ha, if_pos ha, List.getD_eq_getElem data 0 hj]
      · rw [if_neg ha, if_neg ha]
        split
        · rw [List.getD_eq_getElem data 0 hlt]
        · rfl
  · exact ⟨data, by simp [compareSwap, hx, hy, hgt], List.Perm.refl _, Or.inr ⟨rfl, not_lt.mp hgt⟩⟩

/-- The last `i` elements are in their places. -/
def TopSorted (n i : Nat) (data : List Int) : Prop :=
  ∀ a b, a < b → n - i ≤ b → b < n → data.getD a 0 ≤ data.getD b 0

/-- An array in the inner loop: the largest of the first elements is at `j`. -/
def Bubbling (data : List Int) (i j : Nat) (d : List Int) : Prop :=
  d.Perm data ∧ TopSorted data.length i d ∧ ∀ a, a ≤ j → d.getD a 0 ≤ d.getD j 0

theorem bubbling_step (hj : j + 1 < data.length - i) {d : List Int} (h : Bubbling data i j d) :
    ∃ d', compareSwap j d = some d' ∧ Bubbling data i (j + 1) d' := by
  obtain ⟨hperm, htop, hmax⟩ := h
  have hlen := hperm.length_eq
  obtain ⟨d', hswap, hperm', hget | ⟨rfl, hle⟩⟩ := compareSwap_spec (by omega : j + 1 < d.length)
  · obtain ⟨hget, hgt⟩ := hget
    refine ⟨d', hswap, hperm'.trans hperm, fun a b hab hb hlt => ?_, fun a ha => ?_⟩
    · rw [hget, hget, if_neg (by omega : b ≠ j), if_neg (by omega : b ≠ j + 1)]
      split
      · exact htop (j + 1) b (by omega) hb hlt
      · split
        · exact htop j b (by omega) hb hlt
        · exact htop a b hab hb hlt
    · rw [hget, hget, if_neg (by omega : j + 1 ≠ j), if_pos rfl]
      split
      · exact le_of_lt hgt
      · split
        · exact le_refl _
        · exact hmax a (by omega)
  · refine ⟨d', hswap, hperm, htop, fun a ha => ?_⟩
    by_cases hlast : a = j + 1
    · rw [hlast]
    · exact le_trans (hmax a (by omega)) hle

/-- The largest element in front of the last `i` moves to the end of them. -/
theorem bubbleTurn_spec (hi : i + 1 < data.length) {d : List Int} (hperm : d.Perm data)
    (htop : TopSorted data.length i d) :
    ∃ d', bubbleTurn data.length i d = some d' ∧ d'.Perm data ∧
      TopSorted data.length (i + 1) d' := by
  have h0 : Bubbling data i 0 d := ⟨hperm, htop, fun a ha => by rw [Nat.le_zero.mp ha]⟩
  have hturn : ∀ j d, 0 ≤ j → j < 0 + (data.length - 1 - i) → Bubbling data i j d →
      ∃ d', compareSwap j d = some d' ∧ Bubbling data i (j + 1) d' :=
    fun j d _ hlt h => bubbling_step (by omega) h
  obtain ⟨d', hloop, hperm', htop', hmax⟩ := forLoop_spec hturn h0
  refine ⟨d', hloop, hperm', fun a b hab hb hlt => ?_⟩
  by_cases hfirst : b = data.length - (i + 1)
  · have hle := hmax a (by omega)
    rwa [show 0 + (data.length - 1 - i) = b by omega] at hle
  · exact htop' a b hab (by omega) hlt

theorem bubbleSort_spec (data : List Int) :
    ∃ data', bubbleSort data data.length = some data' ∧ data'.Perm data ∧
      data'.Pairwise (· ≤ ·) := by
  have hturn : ∀ i d, 0 ≤ i → i < 0 + (data.length - 1) →
      d.Perm data ∧ TopSorted data.length i d →
      ∃ d', bubbleTurn data.length i d = some d' ∧
        d'.Perm data ∧ TopSorted data.length (i + 1) d' :=
    fun i d _ hlt h => bubbleTurn_spec (by omega) h.1 h.2
  have h0 : TopSorted data.length 0 data := fun a b _ hb hlt => by omega
  obtain ⟨data', hloop, hperm, htop⟩ := forLoop_spec hturn ⟨List.Perm.refl data, h0⟩
  refine ⟨data', hloop, hperm, pairwise_of_sortedUpTo fun a b hab hb => ?_⟩
  rw [hperm.length_eq] at hb
  exact htop a b hab (by omega) hb

/-! ## One result -/

/-- Insertion, shell and bubble sort end, stay inside the array and leave the
same sorted permutation of it. -/
theorem sorts_agree (data : List Int) :
    ∃ sorted, sorted.Perm data ∧ sorted.Pairwise (· ≤ ·) ∧ ∃ turns, ∀ fuel, turns ≤ fuel →
      insertSort fuel data data.length = some sorted ∧
      shellSort fuel data data.length = some sorted ∧
      bubbleSort data data.length = some sorted := by
  obtain ⟨sorted, hbubble, hperm, hpair⟩ := bubbleSort_spec data
  have hunique : ∀ data', data'.Perm data → data'.Pairwise (· ≤ ·) → data' = sorted :=
    fun data' hp hs => (hp.trans hperm.symm).eq_of_pairwise (fun _ _ _ _ => le_antisymm) hs hpair
  refine ⟨sorted, hperm, hpair, data.length + 1, fun fuel hfuel => ⟨?_, ?_, hbubble⟩⟩
  · have hlen : data.length ≤ fuel := by omega
    obtain ⟨data', hinsert, hp, hs⟩ := insertSort_spec hlen
    rw [hinsert, hunique data' hp hs]
  · obtain ⟨data', hshell, hp, hs⟩ := shellSort_spec hfuel
    rw [hshell, hunique data' hp hs]

example : insertSort 5 [3, 1, 2, 1] 4 = some [1, 1, 2, 3] := by decide

end Training.Sort
