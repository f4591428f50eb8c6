/-
Training.TopK.FrequenciesTheorems — when the most frequent elements are
printed.

The loops up to the sort come to the numbers of the array with their
frequencies (`present_spec`), so what the sort leaves is all of them in
order (`IsTop.take`). The last loop prints `m` of them without a look at
how many there are.
-/
import Training.HeapSort.SortTheorems
import Training.TopK.Frequencies

namespace Training.TopK

open Training.Lib Training.Lib.Arrays
open Training.HeapSort (intMax heapifySortWith_spec Orders NotAbove)

variable {arr freq : List Int} {top out : List NumFreq} {m k fuel : Nat} {a b : NumFreq}

/-! ## The loops -/

theorem count_spec (hvals : ∀ x ∈ arr, 0 ≤ x ∧ x < maxNum) (hlen : arr.length ≤ intMax) :
    ∃ freq, forLoop (countTurn arr) 0 arr.length (List.replicate maxNum 0) = some freq ∧
      freq.length = maxNum ∧ ∀ v : Nat, v < maxNum → freq.getD v 0 = arr.count (v : Int) := by
  have hturn : ∀ (k : Nat) (freq : List Int), 0 ≤ k → k < 0 + arr.length →
      (freq.length = maxNum ∧
        ∀ v : Nat, v < maxNum → freq.getD v 0 = (arr.take k).count (v : Int)) →
      ∃ freq', countTurn arr k freq = some freq' ∧ freq'.length = maxNum ∧
        ∀ v : Nat, v < maxNum → freq'.getD v 0 = (arr.take (k + 1)).count (v : Int) := by
    rintro k freq - hk ⟨hlenf, hcount⟩
    have hk' : k < arr.length := by omega
    obtain ⟨hx0, hx⟩ := hvals arr[k] (List.getElem_mem hk')
    obtain ⟨x, hxeq⟩ := Int.eq_ofNat_of_zero_le hx0
    have hxlt : x < freq.length := by omega
    have hbound : freq[x] < intMax := by
      have hle : (arr.take k).count (x : Int) ≤ (arr.take k).length := List.count_le_length
      have heq := hcount x (by omega)
      rw [List.getD_eq_getElem _ _ hxlt] at heq
      rw [List.length_take] at hle
      omega
    refine ⟨freq.set x (freq[x] + 1), ?_, by simpa using hlenf, fun v hv => ?_⟩
    · simp [countTurn, read_eq hk', hxeq, read_eq hxlt, hbound, write_eq hxlt]
    · rw [getD_set hxlt, List.take_succ_eq_append_getElem hk', List.count_append, hxeq]
      by_cases hvx : v = x
      · subst hvx
        rw [if_pos rfl, ← List.getD_eq_getElem _ 0 hxlt, hcount v hv]
        simp
      · rw [if_neg hvx, hcount v hv, List.count_singleton, if_neg]
        · simp
        · simp
          omega
  have hspec := forLoop_spec
    (I := fun k (freq : List Int) => freq.length = maxNum ∧
      ∀ v : Nat, v < maxNum → freq.getD v 0 = (arr.take k).count (v : Int))
    (s := List.replicate maxNum 0) hturn (by simp)
  simpa using hspec

/-- The records of the numbers below `k`. -/
def present (freq : List Int) (k : Nat) : List NumFreq :=
  ((List.range k).filter fun i => freq.getD i 0 > 0).map fun i : Nat =>
    { val := i, freq := freq.getD i 0 }

theorem present_succ (freq : List Int) (k : Nat) :
    present freq (k + 1) = present freq k ++
      if freq.getD k 0 > 0 then [{ val := (k : Int), freq := freq.getD k 0 }] else [] := by
  unfold present
  rw [List.range_succ, List.filter_append, List.map_append]
  congr 1
  rw [List.filter_cons, List.filter_nil]
  by_cases hk : freq.getD k 0 > 0
  · rw [if_pos hk, if_pos (decide_eq_true hk)]
    rfl
  · rw [if_neg hk, if_neg (by simpa using hk)]
    rfl

theorem num_spec (hlen : freq.length = maxNum) :
    forLoop (numTurn freq) 0 maxNum 0 = some (present freq maxNum).length := by
  have hturn : ∀ k num, 0 ≤ k → k < 0 + maxNum → num = (present freq k).length →
      ∃ num', numTurn freq k num = some num' ∧ num' = (present freq (k + 1)).length := by
    rintro k num - hk rfl
    have hk' : k < freq.length := by omega
    refine ⟨_, by simp only [numTurn, read_eq hk']; rfl, ?_⟩
    rw [present_succ, List.getD_eq_getElem _ _ hk', List.length_append]
    split <;> rfl
  obtain ⟨num, hloop, hnum⟩ := forLoop_spec (I := fun k num => num = (present freq k).length)
    (s := 0) hturn (by simp [present])
  rw [hloop, hnum, Nat.zero_add]

theorem present_le (freq : List Int) (h : k ≤ m) :
    (present freq k).length ≤ (present freq m).length := by
  induction m with
  | zero =>
    obtain rfl : k = 0 := by omega
    exact Nat.le_refl _
  | succ m ih =>
    by_cases hkm : k = m + 1
    · exact Nat.le_of_eq (by rw [hkm])
    · rw [present_succ, List.length_append]
      exact Nat.le_add_right_of_le (ih (by omega))

/-- The index and the records after `k` turns. -/
def filled (freq : List Int) (num k : Nat) : Nat × List NumFreq :=
  ((present freq k).length,
    present freq k ++ List.replicate (num - (present freq k).length) { val := 0, freq := 0 })

theorem fill_spec {num : Nat} (hlen : freq.length = maxNum)
    (hnum : (present freq maxNum).length = num) :
    ∃ idx, forLoop (fillTurn freq) 0 maxNum (0, List.replicate num { val := 0, freq := 0 }) =
      some (idx, present freq maxNum) := by
  have hturn : ∀ k s, 0 ≤ k → k < 0 + maxNum → s = filled freq num k →
      ∃ s', fillTurn freq k s = some s' ∧ s' = filled freq num (k + 1) := by
    rintro k s - hk rfl
    have hk' : k < freq.length := by omega
    have hroom := present_le freq (show k + 1 ≤ maxNum by omega)
    rw [hnum, present_succ, List.getD_eq_getElem _ _ hk'] at hroom
    unfold filled
    rw [present_succ, List.getD_eq_getElem _ _ hk']
    by_cases hpos : freq[k] > 0
    · rw [if_pos hpos] at hroom ⊢
      rw [List.length_append, List.length_singleton] at hroom ⊢
      -- the record goes to the first place that is free
      obtain ⟨room, hnumRoom⟩ := Nat.exists_eq_add_of_le hroom
      have hfree : num - (present freq k).length = room + 1 := by omega
      have hfree' : num - ((present freq k).length + 1) = room := by omega
      rw [hfree, hfree']
      refine ⟨_, ?_, rfl⟩
      simp [fillTurn, read_eq hk', hpos, write_eq, List.replicate_succ]
    · exact ⟨_, by simp only [fillTurn, read_eq hk']; simp [hpos]; rfl, by simp [hpos]⟩
  obtain ⟨s, hloop, hs⟩ := forLoop_spec (I := fun k s => s = filled freq num k)
    (s := (0, List.replicate num { val := 0, freq := 0 })) hturn (by simp [filled, present])
  unfold filled at hs
  rw [Nat.zero_add, hnum, Nat.sub_self, List.replicate_zero, List.append_nil] at hs
  exact ⟨num, by rw [hloop, hs]⟩

theorem print_spec (hm : m ≤ top.length) :
    forLoop (printTurn top) 0 m [] = some (top.take m) := by
  have hturn : ∀ k out, 0 ≤ k → k < 0 + m → out = top.take k →
      ∃ out', printTurn top k out = some out' ∧ out' = top.take (k + 1) := by
    rintro k out - hk rfl
    have hk' : k < top.length := by omega
    refine ⟨_, by simp only [printTurn, read_eq hk']; rfl, ?_⟩
    rw [List.take_succ_eq_append_getElem hk']
  obtain ⟨out, hloop, hout⟩ := forLoop_spec (I := fun k out => out = top.take k) (s := []) hturn rfl
  rw [hloop, hout, Nat.zero_add]

/-- The loop reads behind the records. -/
theorem print_none (hk : k ≤ top.length) (hm : top.length < k + m) (out : List NumFreq) :
    forLoop (printTurn top) k m out = none := by
  induction m generalizing k out with
  | zero => omega
  | succ m ih =>
    by_cases hlt : k < top.length
    · simp only [forLoop, printTurn, read_eq hlt]
      exact ih (by omega) (by omega) _
    · have hread : read top k = none := by
        rw [read_natCast, List.getElem?_eq_none (by omega)]
      simp [forLoop, printTurn, hread]

/-! ## The records in order -/

theorem camp_pos_iff : camp a b > 0 ↔ Ranked b a := by
  unfold camp Ranked
  split <;> omega

theorem orders_camp : Orders (fun a b => decide (camp a b > 0)) := by
  constructor
  · intro a b h
    have hba : camp a b > 0 := of_decide_eq_true h
    refine decide_eq_false ?_
    rw [camp_pos_iff] at *
    unfold Ranked at *
    omega
  · intro a b c hab hbc
    have hab' : ¬camp a b > 0 := of_decide_eq_false hab
    have hbc' : ¬camp b c > 0 := of_decide_eq_false hbc
    refine decide_eq_false ?_
    rw [camp_pos_iff] at *
    unfold Ranked at *
    omega

theorem ranked_of_notAbove (h : NotAbove (fun a b => decide (camp a b > 0)) a b)
    (hne : a.val ≠ b.val) : Ranked a b := by
  have hle : ¬camp a b > 0 := of_decide_eq_false h
  rw [camp_pos_iff] at hle
  unfold Ranked at *
  omega

/-- All the numbers of the array, in order. -/
structure IsRanking (arr : List Int) (top : List NumFreq) : Prop where
  ranked : top.Pairwise Ranked
  nodup : (top.map NumFreq.val).Nodup
  mem : ∀ e : NumFreq, e ∈ top ↔ e.val ∈ arr ∧ e.freq = arr.count e.val

theorem IsRanking.length_eq (h : IsRanking arr top) : top.length = distinct arr := by
  have hperm : (top.map NumFreq.val).Perm arr.dedup := by
    refine (List.perm_ext_iff_of_nodup h.nodup (List.nodup_dedup arr)).mpr fun v => ?_
    rw [List.mem_map, List.mem_dedup]
    constructor
    · rintro ⟨e, he, rfl⟩
      exact ((h.mem e).mp he).1
    · intro hv
      exact ⟨{ val := v, freq := arr.count v }, (h.mem _).mpr ⟨hv, rfl⟩, rfl⟩
  rw [distinct, ← hperm.length_eq, List.length_map]

theorem IsRanking.take (h : IsRanking arr top) (m : Nat) : IsTop arr m (top.take m) where
  length_eq := by rw [List.length_take, h.length_eq]
  ranked := h.ranked.sublist (List.take_sublist m top)
  count e he := (h.mem e).mp (List.mem_of_mem_take he)
  rest v hv hnot e he := by
    have hmem : ({ val := v, freq := arr.count v } : NumFreq) ∈ top := (h.mem _).mpr ⟨hv, rfl⟩
    rw [← List.take_append_drop m top, List.mem_append] at hmem
    have hdrop := hmem.resolve_left fun htake => hnot (List.mem_map_of_mem htake)
    have hpairs := h.ranked
    rw [← List.take_append_drop m top, List.pairwise_append] at hpairs
    exact hpairs.2.2 e he _ hdrop

theorem present_nodup (freq : List Int) (k : Nat) : ((present freq k).map NumFreq.val).Nodup := by
  unfold present
  rw [List.map_map]
  refine (List.nodup_range.filter _).map fun x y h => Int.ofNat.inj h

theorem mem_present (hvals : ∀ x ∈ arr, 0 ≤ x ∧ x < maxNum)
    (hcount : ∀ v : Nat, v < maxNum → freq.getD v 0 = arr.count (v : Int)) :
    a ∈ present freq maxNum ↔ a.val ∈ arr ∧ a.freq = arr.count a.val := by
  simp only [present, List.mem_map, List.mem_filter, List.mem_range, decide_eq_true_eq]
  constructor
  · rintro ⟨v, ⟨hv, hpos⟩, rfl⟩
    rw [hcount v hv] at hpos ⊢
    exact ⟨List.count_pos_iff.mp (Int.natCast_pos.mp hpos), rfl⟩
  · rintro ⟨hmem, hfreq⟩
    obtain ⟨h0, hlt⟩ := hvals a.val hmem
    obtain ⟨v, hv⟩ := Int.eq_ofNat_of_zero_le h0
    have hv' : v < maxNum := by omega
    have hpos := List.count_pos_iff.mpr hmem
    refine ⟨v, ⟨hv', ?_⟩, ?_⟩
    · rw [hcount v hv', ← hv]
      omega
    · rw [hcount v hv', ← hv, ← hfreq]

theorem ranking_spec (hvals : ∀ x ∈ arr, 0 ≤ x ∧ x < maxNum)
    (hcount : ∀ v : Nat, v < maxNum → freq.getD v 0 = arr.count (v : Int))
    (hfuel : maxNum < fuel) :
    ∃ top, heapifySort fuel (present freq maxNum) (present freq maxNum).length = some top ∧
      IsRanking arr top := by
  have hshort : (present freq maxNum).length ≤ maxNum := by
    unfold present
    rw [List.length_map]
    exact Nat.le_trans (List.length_filter_le ..) (Nat.le_of_eq List.length_range)
  have hmax : 2 * (present freq maxNum).length ≤ intMax :=
    Nat.le_trans (Nat.mul_le_mul_left 2 hshort) (by decide)
  obtain ⟨top, hsort, hperm, hpairs⟩ :=
    heapifySortWith_spec orders_camp hmax (Nat.lt_of_le_of_lt hshort hfuel)
  have hnodup : (top.map NumFreq.val).Nodup :=
    ((hperm.map NumFreq.val).nodup_iff).mpr (present_nodup freq maxNum)
  refine ⟨top, hsort, ⟨?_, hnodup, fun e => ?_⟩⟩
  · rw [List.nodup_iff_pairwise_ne, List.pairwise_map] at hnodup
    exact hpairs.imp₂ (fun _ _ h hne => ranked_of_notAbove h hne) hnodup
  · rw [hperm.mem_iff]
    exact mem_present hvals hcount

/-! ## The function -/

theorem topMNum_spec (hne : arr ≠ []) (hvals : ∀ x ∈ arr, 0 ≤ x ∧ x < maxNum)
    (hlen : arr.length ≤ intMax) (hfuel : maxNum < fuel) (m : Nat) :
    ∃ top, IsRanking arr top ∧ topMNum true fuel arr m = forLoop (printTurn top) 0 m [] := by
  obtain ⟨freq, hcounts, hlenf, hcount⟩ := count_spec hvals hlen
  obtain ⟨idx, hfill⟩ := fill_spec hlenf rfl
  obtain ⟨top, hsort, hranking⟩ := ranking_spec hvals hcount hfuel
  refine ⟨top, hranking, ?_⟩
  rw [topMNum, if_neg (by simpa using hne)]
  simp [hcounts, num_spec hlenf, hfill, hsort]

/-- Without memory for the records nothing is printed. -/
theorem topMNum_noMemory (hvals : ∀ x ∈ arr, 0 ≤ x ∧ x < maxNum) (hlen : arr.length ≤ intMax)
    (fuel m : Nat) : topMNum false fuel arr m = some [] := by
  obtain ⟨freq, hcounts, hlenf, -⟩ := count_spec hvals hlen
  unfold topMNum
  split
  · rfl
  · simp [hcounts, num_spec hlenf]

theorem isTop_nil_iff : IsTop arr m [] ↔ m = 0 ∨ arr = [] := by
  have hdistinct : distinct arr = 0 ↔ arr = [] := by
    rw [distinct, List.length_eq_zero_iff, List.dedup_eq_nil]
  constructor
  · intro h
    have hlength := h.length_eq
    rw [List.length_nil] at hlength
    exact (Nat.min_eq_zero_iff.mp hlength.symm).imp_right hdistinct.mp
  · intro h
    constructor
    · exact (Nat.min_eq_zero_iff.mpr (h.imp_right hdistinct.mpr)).symm
    all_goals simp

/-- With it, they are printed if there are `m` numbers. -/
theorem topMNum_memory_iff (hne : arr ≠ []) (hvals : ∀ x ∈ arr, 0 ≤ x ∧ x < maxNum)
    (hlen : arr.length ≤ intMax) (m : Nat) :
    (∃ turns, ∀ fuel, turns ≤ fuel → ∃ out, topMNum true fuel arr m = some out ∧ IsTop arr m out) ↔
      m ≤ distinct arr := by
  constructor
  · rintro ⟨turns, hall⟩
    obtain ⟨out, hsome, -⟩ := hall (turns + maxNum + 1) (by omega)
    obtain ⟨top, hranking, heq⟩ := topMNum_spec hne hvals hlen
      (show maxNum < turns + maxNum + 1 by omega) m
    by_contra hlt
    rw [heq, print_none (Nat.zero_le _) (by rw [hranking.length_eq]; omega)] at hsome
    exact Option.some_ne_none _ hsome.symm
  · intro hm
    refine ⟨maxNum + 1, fun fuel hfuel => ?_⟩
    obtain ⟨top, hranking, heq⟩ := topMNum_spec hne hvals hlen hfuel m
    exact ⟨top.take m, by rw [heq, print_spec (by rwa [hranking.length_eq])], hranking.take m⟩

/-- For every array and `m`, the most frequent numbers are printed exactly
if there is memory for the records and there are `m` numbers, or there is
nothing to print. -/
theorem topMNum_iff (mem : Bool) (arr : List Int) (m : Nat) (hvals : ∀ x ∈ arr, 0 ≤ x ∧ x < maxNum)
    (hlen : arr.length ≤ intMax) :
    (∃ turns, ∀ fuel, turns ≤ fuel → ∃ out, topMNum mem fuel arr m = some out ∧ IsTop arr m out) ↔
      (m = 0 ∨ arr = []) ∨ mem = true ∧ m ≤ distinct arr := by
  cases mem with
  | false =>
    have hnone := topMNum_noMemory hvals hlen
    simp only [Bool.false_eq_true, false_and, or_false, ← isTop_nil_iff, hnone, Option.some.injEq,
      exists_eq_left']
    exact ⟨fun ⟨turns, hall⟩ => hall turns (Nat.le_refl turns), fun htop => ⟨0, fun _ _ => htop⟩⟩
  | true =>
    by_cases hne : arr = []
    · subst hne
      have htop : IsTop [] m [] := isTop_nil_iff.mpr (Or.inr rfl)
      exact iff_of_true ⟨0, fun fuel _ => ⟨[], rfl, htop⟩⟩ (Or.inl (Or.inr rfl))
    · rw [topMNum_memory_iff hne hvals hlen, and_iff_right rfl, or_iff_left hne]
      exact ⟨Or.inr, fun h => h.elim (fun hzero => hzero ▸ Nat.zero_le _) id⟩

theorem topMNum_iff_three :
    (∃ turns, ∀ fuel, turns ≤ fuel → ∃ out,
      topMNum true fuel [7, 4, 7] 1 = some out ∧ IsTop [7, 4, 7] 1 out) ↔
      (1 = 0 ∨ ([7, 4, 7] : List Int) = []) ∨ true = true ∧ 1 ≤ distinct [7, 4, 7] :=
  topMNum_iff true [7, 4, 7] 1 (by decide) (by decide)

/-- There is one number, and two are asked for: the second record is read
behind the memory of the first. -/
theorem read_behind_records : ¬∃ turns, ∀ fuel, turns ≤ fuel → ∃ out,
    topMNum true fuel [7] 2 = some out ∧ IsTop [7] 2 out := by
  rintro ⟨turns, hall⟩
  obtain ⟨out, hsome, -⟩ := hall turns (Nat.le_refl turns)
  have hnone : topMNum true turns [7] 2 = none := rfl
  exact Option.some_ne_none out (hsome.symm.trans hnone)

end Training.TopK
