/-
Training.MaxSubArray.SubArrayTheorems — the dynamic programs are right,
and when the greedy one is.

After `i` turns both dynamic programs have the greatest sum of a subarray
that ends at `i`, and the greatest sum so far (`Tracks`). The greedy loop
starts from the first element and adds it once more, so it looks for the
greatest sum in the array with its first element doubled
(`txTurns_spec`, `txTurns_some`); a first element that is not positive
makes no difference.
-/
import Mathlib.Algebra.Order.Group.Int
import Training.MaxSubArray.SubArray

namespace Training.MaxSubArray

open Training.Lib Training.Lib.Arrays Training.Lib.Segments

variable {nums zs : List Int} {k i turns : Nat} {s : Sums} {a e m c : Int}

/-! ## The dynamic programs -/

structure Tracks (nums : List Int) (k : Nat) (s : Sums) : Prop where
  ending : BestEnding nums k s.currentSum
  best : Best nums k s.maxSum

theorem tracks_one (h : 0 < nums.length) :
    Tracks nums 1 { maxSum := nums[0], currentSum := nums[0] } where
  ending := bestEnding_one h
  best := (bestEnding_one h).best

theorem tracks_step (h : Tracks nums k s) (hk : k < nums.length)
    (hc : c = Max.max (s.currentSum + nums[k]) nums[k]) :
    Tracks nums (k + 1) { maxSum := if c > s.maxSum then c else s.maxSum, currentSum := c } := by
  have hending : BestEnding nums (k + 1) c := hc ▸ bestEnding_step h.ending hk
  have hmax : (if c > s.maxSum then c else s.maxSum) = Max.max s.maxSum c := by
    split <;> omega
  exact ⟨hending, hmax ▸ best_step h.best hending⟩

theorem add_ending (hfit : SumsFit nums) (h : BestEnding nums k e) (hk : k < nums.length) :
    add e nums[k] = some (e + nums[k]) := by
  obtain ⟨l, hl, rfl⟩ := h.found
  have hsum := hfit l (k + 1) (by omega) hk
  rw [segSum_succ (Nat.le_of_lt hl) hk] at hsum
  exact if_pos hsum

theorem dpTurn_spec (hfit : SumsFit nums) (hk : k < nums.length) (h : Tracks nums k s) :
    ∃ s', dpTurn nums k s = some s' ∧ Tracks nums (k + 1) s' := by
  by_cases hpos : s.currentSum > 0
  · refine ⟨_, ?_, tracks_step h hk (c := s.currentSum + nums[k]) (by omega)⟩
    simp [dpTurn, read_eq hk, hpos, add_ending hfit h.ending hk]
  · refine ⟨_, ?_, tracks_step h hk (c := nums[k]) (by omega)⟩
    simp [dpTurn, read_eq hk, hpos]

theorem dp2Turn_spec (hfit : SumsFit nums) (hk : k < nums.length) (h : Tracks nums k s) :
    ∃ s', dp2Turn nums k s = some s' ∧ Tracks nums (k + 1) s' := by
  have hmax : max nums[k] (s.currentSum + nums[k]) =
      Max.max (s.currentSum + nums[k]) nums[k] := by
    unfold max
    split <;> omega
  refine ⟨_, ?_, tracks_step h hk hmax⟩
  simp [dp2Turn, read_eq hk, add_ending hfit h.ending hk]

theorem maxSubArrayDp_spec (hne : nums ≠ []) (hfit : SumsFit nums) :
    ∃ m, maxSubArrayDp nums = some m ∧ IsMaxSum nums m := by
  have hlen := List.length_pos_iff.mpr hne
  have hturn : ∀ (k : Nat) (s : Sums), 1 ≤ k → k < 1 + (nums.length - 1) → Tracks nums k s →
      ∃ s', dpTurn nums k s = some s' ∧ Tracks nums (k + 1) s' := fun k s _ hk h =>
    dpTurn_spec hfit (by omega) h
  obtain ⟨s, hloop, htracks⟩ := forLoop_spec hturn (tracks_one hlen)
  rw [Nat.add_sub_cancel' hlen] at htracks
  have hread : read nums 0 = some nums[0] := read_eq hlen
  exact ⟨s.maxSum, by simp [maxSubArrayDp, hread, hloop], htracks.best⟩

theorem maxSubArrayDp2_spec (hne : nums ≠ []) (hfit : SumsFit nums) :
    ∃ m, maxSubArrayDp2 nums = some m ∧ IsMaxSum nums m := by
  have hlen := List.length_pos_iff.mpr hne
  have hturn : ∀ (k : Nat) (s : Sums), 1 ≤ k → k < 1 + (nums.length - 1) → Tracks nums k s →
      ∃ s', dp2Turn nums k s = some s' ∧ Tracks nums (k + 1) s' := fun k s _ hk h =>
    dp2Turn_spec hfit (by omega) h
  obtain ⟨s, hloop, htracks⟩ := forLoop_spec hturn (tracks_one hlen)
  rw [Nat.add_sub_cancel' hlen] at htracks
  have hread : read nums 0 = some nums[0] := read_eq hlen
  exact ⟨s.maxSum, by simp [maxSubArrayDp2, hne, hread, hloop], htracks.best⟩

/-- Both dynamic programs return the greatest sum of a subarray, without an
overflow on the way. -/
theorem dynamicPrograms_maxSum (hne : nums ≠ []) (hfit : SumsFit nums) :
    ∃ m, IsMaxSum nums m ∧ maxSubArrayDp nums = some m ∧ maxSubArrayDp2 nums = some m := by
  obtain ⟨m, hdp, hmax⟩ := maxSubArrayDp_spec hne hfit
  obtain ⟨m', hdp2, hmax'⟩ := maxSubArrayDp2_spec hne hfit
  exact ⟨m, hmax, hdp, by rw [hdp2, hmax'.unique hmax]⟩

theorem dynamicPrograms_maxSum_negative : ∃ m, IsMaxSum [-3, -1, -2] m ∧
    maxSubArrayDp [-3, -1, -2] = some m ∧ maxSubArrayDp2 [-3, -1, -2] = some m :=
  dynamicPrograms_maxSum (by decide) (by decide)

/-! ## The greedy loop -/

/-- The running sum is not kept below 0. -/
structure Greedy (zs : List Int) (k : Nat) (s : Sums) : Prop where
  ending : ∃ e, BestEnding zs k e ∧ s.currentSum = Max.max e 0
  best : Best zs k s.maxSum

theorem greedy_step (h : Greedy zs k s) (hk : k < zs.length) (hc : c = s.currentSum + zs[k]) :
    BestEnding zs (k + 1) c ∧ Greedy zs (k + 1) {
      maxSum := if c > s.maxSum then c else s.maxSum
      currentSum := if c < 0 then 0 else c } := by
  obtain ⟨e, he, hcur⟩ := h.ending
  have hmax : Max.max (e + zs[k]) zs[k] = c := by omega
  have hending : BestEnding zs (k + 1) c := hmax ▸ bestEnding_step he hk
  have hbest : (if c > s.maxSum then c else s.maxSum) = Max.max s.maxSum c := by
    split <;> omega
  refine ⟨hending, ⟨c, hending, ?_⟩, hbest ▸ best_step h.best hending⟩
  simp only
  split <;> omega

section Turns

variable {before : List Int}

theorem getElem_behind (before : List Int) (hi : i < nums.length)
    (h : before.length + i < (before ++ nums).length) :
    (before ++ nums)[before.length + i] = nums[i] := by
  rw [List.getElem_append_right (Nat.le_add_right ..)]
  simp

/-- The loop goes over `nums`, and the sums are those of an array that ends with
it. -/
theorem txTurn_some {s' : Sums} (hi : i < nums.length)
    (h : Greedy (before ++ nums) (before.length + i) s) (hturn : txTurn nums i s = some s') :
    Greedy (before ++ nums) (before.length + (i + 1)) s' := by
  have hk : before.length + i < (before ++ nums).length := by
    rw [List.length_append]
    omega
  by_cases hfit : Fits (s.currentSum + nums[i])
  · simp [txTurn, read_eq hi, add, hfit] at hturn
    rw [← hturn]
    exact (greedy_step h hk (by rw [getElem_behind before hi hk])).2
  · simp [txTurn, read_eq hi, add, hfit] at hturn

theorem txTurn_spec (hi : i < nums.length) (hlow : ∀ x ∈ nums, intMin ≤ x)
    (hhigh : ∀ l r : Nat, l < r → r ≤ (before ++ nums).length →
      segSum (before ++ nums) l r ≤ intMax)
    (h : Greedy (before ++ nums) (before.length + i) s) :
    ∃ s', txTurn nums i s = some s' ∧ Greedy (before ++ nums) (before.length + (i + 1)) s' := by
  have hk : before.length + i < (before ++ nums).length := by
    rw [List.length_append]
    omega
  obtain ⟨hending, hgreedy⟩ := greedy_step h hk (by rw [getElem_behind before hi hk])
  obtain ⟨e, -, hcur⟩ := h.ending
  have hfit : Fits (s.currentSum + nums[i]) := by
    obtain ⟨l, hl, hsum⟩ := hending.found
    have hle := hhigh l _ hl hk
    have hge := hlow _ (List.getElem_mem hi)
    exact ⟨by omega, by omega⟩
  exact ⟨_, by simp [txTurn, read_eq hi, add, hfit], hgreedy⟩

end Turns

/-! ## When the first element may be counted twice -/

variable {rest : List Int}

theorem sumsFit_mem (hfit : SumsFit nums) {x : Int} (hx : x ∈ nums) : Fits x := by
  obtain ⟨k, hk, rfl⟩ := List.mem_iff_getElem.mp hx
  have hsum := hfit k (k + 1) (Nat.lt_succ_self k) hk
  rwa [segSum_single hk] at hsum

theorem bestEnding_cons (a : Int) (rest : List Int) : BestEnding (a :: rest) 1 a := by
  have hlen : 0 < (a :: rest).length := Nat.succ_pos _
  exact bestEnding_one hlen

theorem read_cons (a : Int) (rest : List Int) : read (a :: rest) 0 = some a := by
  have hlen : 0 < (a :: rest).length := Nat.succ_pos _
  exact read_eq hlen

/-- A first element that is not positive is dropped again at once. -/
theorem tx_nonpos (hfit : SumsFit (a :: rest)) (ha : a ≤ 0) (hdouble : -2 ^ 30 ≤ a) :
    ∃ m, maxSubArrayTx (a :: rest) = some m ∧ IsMaxSum (a :: rest) m := by
  have hlow : ∀ x ∈ a :: rest, intMin ≤ x := fun x hx => (sumsFit_mem hfit hx).1
  have hhigh : ∀ l r : Nat, l < r → r ≤ (a :: rest).length → segSum (a :: rest) l r ≤ intMax :=
    fun l r hl hr => (hfit l r hl hr).2
  have hturn : txTurn (a :: rest) 0 { maxSum := a, currentSum := a } =
      some { maxSum := a, currentSum := 0 } := by
    have hsum : add a a = some (a + a) := by
      refine if_pos ⟨?_, ?_⟩
      · unfold intMin
        omega
      · unfold intMax
        omega
    simp only [txTurn, Int.natCast_zero, read_cons, Option.bind_eq_bind, Option.bind_some, hsum,
      pure]
    rw [if_neg (by omega)]
    by_cases hneg : a + a < 0
    · rw [if_pos hneg]
    · rw [if_neg hneg, show a + a = 0 by omega]
  have hstart : Greedy (a :: rest) 1 { maxSum := a, currentSum := 0 } :=
    ⟨⟨a, bestEnding_cons a rest, by simp only; omega⟩, (bestEnding_cons a rest).best⟩
  have hloopTurn : ∀ (k : Nat) (s : Sums), 1 ≤ k → k < 1 + rest.length →
      Greedy ([] ++ a :: rest) (0 + k) s →
      ∃ s', txTurn (a :: rest) k s = some s' ∧ Greedy ([] ++ a :: rest) (0 + (k + 1)) s' :=
    fun k s _ hk h => txTurn_spec (by rw [List.length_cons]; omega) hlow hhigh h
  obtain ⟨s, hloop, hgreedy⟩ := forLoop_spec (I := fun k s => Greedy ([] ++ a :: rest) (0 + k) s)
    hloopTurn hstart
  refine ⟨s.maxSum, ?_, ?_⟩
  · simp [maxSubArrayTx, forLoop, read_cons, hturn, hloop]
  · have hbest := hgreedy.best
    rw [Nat.zero_add, Nat.add_comm] at hbest
    exact hbest

/-- The double of the first element does not fit. -/
theorem tx_none (hdouble : a < -2 ^ 30) : maxSubArrayTx (a :: rest) = none := by
  have hsum : add a a = none := by
    refine if_neg fun hfit => ?_
    have hlow := hfit.1
    unfold intMin at hlow
    omega
  simp [maxSubArrayTx, forLoop, txTurn, read_cons, hsum]

theorem greedy_pos (ha : 0 < a) (rest : List Int) :
    Greedy ([a] ++ a :: rest) ([a].length + 0) { maxSum := a, currentSum := a } :=
  ⟨⟨a, bestEnding_cons a (a :: rest), by simp only; omega⟩, (bestEnding_cons a (a :: rest)).best⟩

/-- A positive first element is counted twice. -/
theorem tx_pos_some (ha : 0 < a) (h : maxSubArrayTx (a :: rest) = some m) :
    Best (a :: a :: rest) (a :: a :: rest).length m := by
  simp only [maxSubArrayTx, read_cons, Option.bind_eq_bind, Option.bind_some,
    Option.bind_eq_some_iff] at h
  obtain ⟨s, hloop, hm⟩ := h
  obtain rfl : s.maxSum = m := Option.some.inj hm
  have hgreedy := forLoop_invariant (I := fun k s => Greedy ([a] ++ a :: rest) ([a].length + k) s)
    (fun k s s' _ hk h hturn => txTurn_some (by omega) h hturn) (greedy_pos ha rest) hloop
  have hbest := hgreedy.best
  rw [Nat.zero_add, List.length_singleton, Nat.add_comm] at hbest
  exact hbest

theorem tx_pos_spec (hfit : SumsFit (a :: rest)) (ha : 0 < a)
    (hhigh : ∀ l r : Nat, l < r → r ≤ (a :: a :: rest).length →
      segSum (a :: a :: rest) l r ≤ intMax) : ∃ m, maxSubArrayTx (a :: rest) = some m := by
  have hlow : ∀ x ∈ a :: rest, intMin ≤ x := fun x hx => (sumsFit_mem hfit hx).1
  have hturn : ∀ (k : Nat) (s : Sums), 0 ≤ k → k < 0 + (a :: rest).length →
      Greedy ([a] ++ a :: rest) ([a].length + k) s →
      ∃ s', txTurn (a :: rest) k s = some s' ∧
        Greedy ([a] ++ a :: rest) ([a].length + (k + 1)) s' := fun k s _ hk h =>
    txTurn_spec (by omega) hlow hhigh h
  obtain ⟨s, hloop, -⟩ := forLoop_spec
    (I := fun k s => Greedy ([a] ++ a :: rest) ([a].length + k) s) hturn (greedy_pos ha rest)
  refine ⟨s.maxSum, ?_⟩
  rw [maxSubArrayTx, read_cons, Option.bind_eq_bind, Option.bind_some, hloop]
  rfl

/-- No sum of the array with the first element doubled exceeds `m`. -/
theorem segSum_double_le (hbest : Best (a :: rest) (a :: rest).length m)
    (hdouble : ∀ k, 0 < k → k ≤ (a :: rest).length → a + segSum (a :: rest) 0 k ≤ m) :
    ∀ l r : Nat, l < r → r ≤ (a :: a :: rest).length → segSum (a :: a :: rest) l r ≤ m := by
  intro l r hl hr
  obtain ⟨b, rfl⟩ : ∃ b, r = b + 1 := ⟨r - 1, by omega⟩
  rw [List.length_cons] at hr
  cases l with
  | zero =>
    by_cases hb : b = 0
    · subst hb
      exact hbest.greatest 0 1 Nat.zero_lt_one (Nat.succ_le_succ (Nat.zero_le _))
    · rw [segSum_cons_zero]
      exact hdouble b (by omega) (by omega)
  | succ l =>
    rw [segSum_cons_succ]
    exact hbest.greatest l b (by omega) (by omega)

theorem best_double (hbest : Best (a :: rest) (a :: rest).length m)
    (hle : ∀ l r : Nat, l < r → r ≤ (a :: a :: rest).length → segSum (a :: a :: rest) l r ≤ m) :
    Best (a :: a :: rest) (a :: a :: rest).length m where
  found := by
    obtain ⟨l, r, hl, hr, hm⟩ := hbest.found
    exact ⟨l + 1, r + 1, by omega, Nat.succ_le_succ hr, hm⟩
  greatest := hle

theorem tx_pos_iff (hfit : SumsFit (a :: rest)) (ha : 0 < a) (hmax : IsMaxSum (a :: rest) m) :
    maxSubArrayTx (a :: rest) = some m ↔
      ∃ l r, 0 < l ∧ l < r ∧ r ≤ (a :: rest).length ∧
        ∀ k : Nat, 0 < k → k ≤ (a :: rest).length →
          a + segSum (a :: rest) 0 k ≤ segSum (a :: rest) l r := by
  constructor
  · intro htx
    have hgreatest := (tx_pos_some ha htx).greatest
    have hdouble : ∀ k, 0 < k → k ≤ (a :: rest).length → a + segSum (a :: rest) 0 k ≤ m :=
      fun k _ hk => hgreatest 0 (k + 1) (Nat.succ_pos k) (Nat.succ_le_succ hk)
    obtain ⟨l, r, hl, hr, rfl⟩ := hmax.found
    refine ⟨l, r, ?_, hl, hr, hdouble⟩
    -- a subarray from the first element on would be exceeded
    by_contra hzero
    obtain rfl : l = 0 := by omega
    have hle := hdouble r (by omega) hr
    omega
  · rintro ⟨l, r, hl0, hl, hr, hall⟩
    have hdouble : ∀ k, 0 < k → k ≤ (a :: rest).length → a + segSum (a :: rest) 0 k ≤ m :=
      fun k hk0 hk => (hall k hk0 hk).trans (hmax.greatest l r hl hr)
    have hle := segSum_double_le hmax hdouble
    have hhigh : m ≤ intMax := by
      obtain ⟨l, r, hl, hr, rfl⟩ := hmax.found
      exact (hfit l r hl hr).2
    obtain ⟨m', hm'⟩ := tx_pos_spec hfit ha fun l r hl hr => (hle l r hl hr).trans hhigh
    rw [hm', (tx_pos_some ha hm').unique (best_double hmax hle)]

/-- `maxSubArray_tx` gives what they return exactly when it does no harm
that the first element is counted twice. -/
theorem tx_eq_dp_iff (hne : nums ≠ []) (hfit : SumsFit nums) :
    maxSubArrayTx nums = maxSubArrayDp nums ↔ FirstHarmless nums := by
  obtain ⟨m, hdp, hmax⟩ := maxSubArrayDp_spec hne hfit
  obtain ⟨a, rest, rfl⟩ := List.exists_cons_of_ne_nil hne
  simp only [FirstHarmless, List.headD_cons, hdp]
  by_cases ha : 0 < a
  · rw [tx_pos_iff hfit ha hmax]
    constructor
    · exact fun h => .inr ⟨ha, h⟩
    · rintro (h | h)
      · omega
      · exact h.2
  · by_cases hdouble : -2 ^ 30 ≤ a
    · obtain ⟨m', htx, hmax'⟩ := tx_nonpos hfit (by omega) hdouble
      rw [htx, hmax'.unique hmax]
      exact iff_of_true rfl (.inl ⟨hdouble, by omega⟩)
    · rw [tx_none (by omega)]
      exact iff_of_false (by simp) (by omega)

theorem tx_eq_dp_iff_nine :
    maxSubArrayTx [-2, 1, -3, 4, -1, 2, 1, -5, 4] = maxSubArrayDp [-2, 1, -3, 4, -1, 2, 1, -5, 4] ↔
      FirstHarmless [-2, 1, -3, 4, -1, 2, 1, -5, 4] :=
  tx_eq_dp_iff (by decide) (by decide)

/-- The first element is the greatest sum, and it is counted twice. -/
theorem tx_ne_dp : SumsFit [1] ∧ maxSubArrayTx [1] ≠ maxSubArrayDp [1] := by
  decide

end Training.MaxSubArray
