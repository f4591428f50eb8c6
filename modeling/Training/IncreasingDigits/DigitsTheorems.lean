/-
Training.IncreasingDigits.DigitsTheorems — when the two functions find the
longest run.

The scan counts the digits of the stretch it is in, and compares them with
the most when the next one opens (`Tracks`). So it prints the first of the
stretches with the most digits, and never the last one, which nothing
closes. The table has the length of the longest run that ends at each
character (`ending`), and 1 where there is none, so that the other function
is wrong only of a string without digits (`longest_eq`).

What is printed is a longest run exactly if the digits of that stretch
follow one another, which only a `0` behind a `/` can break, and the
stretch behind the last opening digit has no longer run
(`FirstMost.longestRun_iff`). Together the functions are right exactly then
(`functionsAgree_iff`).
-/
import Mathlib.Data.List.Chain
import Mathlib.Data.Nat.Find
import Training.IncreasingDigits.Digits

namespace Training.IncreasingDigits

open Training.Lib Training.Lib.Arrays

variable {s r : List Int} {st : Scan} {a b c d i j n m : Nat}

theorem read_pred (hi : i ≠ 0) (hn : i < s.length) :
    read s (i - 1) = some (view s (i - 1)) := by
  rw [show (i : Int) - 1 = (i - 1 : Nat) by omega]
  exact read_eq_view (by omega)

/-! ## Runs -/

/-- A run of `n` digits from `a` on. -/
structure RunAt (s : List Int) (a n : Nat) : Prop where
  fits : a + n ≤ s.length
  isDigit : ∀ k, k < n → isDigit (view s (a + k)) = true
  next : ∀ k, k + 1 < n → view s (a + k) + 1 = view s (a + (k + 1))

theorem view_take_drop {k : Nat} (hfits : a + n ≤ s.length) (hk : k < ((s.drop a).take n).length) :
    ((s.drop a).take n)[k] = view s (a + k) := by
  have hlen : k < n := by
    rw [List.length_take] at hk
    omega
  rw [view_eq (by omega)]
  simp

theorem runAt_iff (hfits : a + n ≤ s.length) : RunAt s a n ↔ IsRun ((s.drop a).take n) := by
  have hlen : ((s.drop a).take n).length = n := by
    simp
    omega
  constructor
  · intro h
    refine ⟨fun x hx => ?_, List.isChain_iff_getElem.mpr fun k hk => ?_⟩
    · obtain ⟨k, hk, rfl⟩ := List.mem_iff_getElem.mp hx
      rw [view_take_drop hfits]
      exact h.isDigit k (by omega)
    · rw [view_take_drop hfits, view_take_drop hfits]
      exact h.next k (by omega)
  · intro h
    refine ⟨hfits, fun k hk => ?_, fun k hk => ?_⟩
    · rw [← view_take_drop hfits (by omega : k < ((s.drop a).take n).length)]
      exact h.1 _ (List.getElem_mem _)
    · have hchain := List.isChain_iff_getElem.mp h.2 k (by omega)
      rwa [view_take_drop hfits, view_take_drop hfits] at hchain

/-- The runs of the string are the runs at its places. -/
theorem exists_runAt (hr : r <:+: s) (hrun : IsRun r) : ∃ a, RunAt s a r.length := by
  obtain ⟨t, u, rfl⟩ := hr
  refine ⟨t.length, (runAt_iff (by simp)).mpr ?_⟩
  rw [List.append_assoc, List.drop_left, List.take_left]
  exact hrun

theorem length_take_drop (hfits : a + n ≤ s.length) : ((s.drop a).take n).length = n := by
  simp
  omega

theorem infix_take_drop (s : List Int) (a n : Nat) : (s.drop a).take n <:+: s :=
  (List.take_prefix n _).isInfix.trans (List.drop_suffix a s).isInfix

/-! ## The scan -/

theorem digits_succ (hai : a ≤ i) (hi : i < s.length) :
    digits s a (i + 1) = digits s a i + if isDigit (view s i) then 1 else 0 := by
  unfold digits
  rw [List.take_succ_eq_append_getElem hi, List.drop_append_of_le_length (by simp; omega),
    List.countP_append, List.countP_singleton, view_eq hi]

theorem digits_self (s : List Int) (a : Nat) : digits s a a = 0 := by
  simp [digits]

theorem digits_le (s : List Int) (a b : Nat) : digits s a b ≤ b - a := by
  have hle := List.countP_le_length (p := isDigit) (l := (s.take b).drop a)
  simp only [List.length_drop, List.length_take] at hle
  unfold digits
  omega

theorem lt_length_of_opens (h : opens s i = true) : i < s.length := by
  by_contra hge
  have hview : view s i = 0 := List.getD_eq_default _ _ (by omega)
  simp [opens, hview, isDigit] at h

/-- The last opening digit before `i`, or the start of the string. -/
def Last (s : List Int) (i a : Nat) : Prop :=
  (a = 0 ∨ a < i ∧ opens s a = true) ∧ ∀ j, a < j → j < i → opens s j = false

theorem Last.unique (ha : Last s i a) (hb : Last s i b) : a = b := by
  by_contra hne
  rcases Nat.lt_or_gt_of_ne hne with hlt | hgt
  · rcases hb.1 with rfl | ⟨hbi, hopen⟩
    · omega
    · simp [ha.2 b hlt hbi] at hopen
  · rcases ha.1 with rfl | ⟨hai, hopen⟩
    · omega
    · simp [hb.2 a hgt hai] at hopen

/-- The state before the turn `i`. -/
structure Tracks (s : List Int) (i : Nat) (st : Scan) : Prop where
  last : Last s i st.index
  len : st.len = digits s st.index i
  behind : st.start ≤ st.index
  best : st.max = 0 ∨ ∃ b, b < i ∧ Stretch s st.start b ∧ digits s st.start b = st.max
  most : ∀ c d, d < i → Stretch s c d → digits s c d ≤ st.max
  first : ∀ c d, d < i → Stretch s c d → c < st.start → digits s c d < st.max

theorem Last.le (h : Last s i a) : a ≤ i := by
  rcases h.1 with rfl | ⟨hlt, -⟩
  · exact Nat.zero_le i
  · exact hlt.le

theorem scanTurn_eq (hi : i < s.length) : scanTurn s i st =
    some (if isDigit (view s i) then
      if opens s i then
        { max := if st.len > st.max then st.len else st.max
          start := if st.len > st.max then st.index else st.start
          index := i
          len := 1 }
      else { st with len := st.len + 1 }
    else st) := by
  rw [scanTurn, read_eq_view hi]
  simp only [Option.bind_eq_bind, Option.bind_some]
  by_cases hdigit : isDigit (view s i) = true
  · have hstarts : startsAt s i (view s i) = some (opens s i) := by
      unfold startsAt opens
      by_cases h0 : i = 0
      · simp [h0] at hdigit ⊢
        exact hdigit
      · simp [h0, read_pred h0 hi, hdigit]
    rw [if_pos hdigit, if_pos hdigit, hstarts, Option.bind_some]
    split <;> rfl
  · rw [if_neg hdigit, if_neg hdigit]
    rfl

/-- A character that opens nothing. -/
theorem Tracks.stay (h : Tracks s i st) (hi : i < s.length) (hopens : opens s i = false) :
    Tracks s (i + 1) { st with len := st.len + if isDigit (view s i) then 1 else 0 } := by
  have hearlier : ∀ c d, d < i + 1 → Stretch s c d → d < i := by
    intro c d hd hstretch
    rcases Nat.lt_succ_iff_lt_or_eq.mp hd with hlt | rfl
    · exact hlt
    · have hopen := hstretch.1
      simp [hopens] at hopen
  refine ⟨⟨?_, ?_⟩, ?_, h.behind, ?_, ?_, ?_⟩
  · rcases h.last.1 with h0 | ⟨hlt, hopen⟩
    · exact .inl h0
    · exact .inr ⟨Nat.lt_succ_of_lt hlt, hopen⟩
  · intro j hj hji
    rcases Nat.lt_succ_iff_lt_or_eq.mp hji with hlt | rfl
    · exact h.last.2 j hj hlt
    · exact hopens
  · rw [digits_succ h.last.le hi, h.len]
  · rcases h.best with h0 | ⟨b, hb, hstretch, hdigits⟩
    · exact .inl h0
    · exact .inr ⟨b, Nat.lt_succ_of_lt hb, hstretch, hdigits⟩
  · exact fun c d hd hstretch => h.most c d (hearlier c d hd hstretch) hstretch
  · exact fun c d hd hstretch => h.first c d (hearlier c d hd hstretch) hstretch

/-- A stretch ends, and the next one opens. -/
theorem Tracks.opening (h : Tracks s i st) (hi : i < s.length) (hopens : opens s i = true)
    (hdigit : isDigit (view s i) = true) :
    Tracks s (i + 1) {
      max := if st.len > st.max then st.len else st.max
      start := if st.len > st.max then st.index else st.start
      index := i
      len := 1 } := by
  have hclosed : Stretch s st.index i := ⟨hopens, h.last⟩
  -- the stretches up to here are the ones before, and the one that ends here
  have hcases : ∀ c d, d < i + 1 → Stretch s c d → d < i ∨ c = st.index ∧ d = i := by
    intro c d hd hstretch
    rcases Nat.lt_succ_iff_lt_or_eq.mp hd with hlt | rfl
    · exact .inl hlt
    · exact .inr ⟨Last.unique hstretch.2 h.last, rfl⟩
  have hlen := h.len
  have hbehind := h.behind
  have hindex := h.last.le
  refine ⟨⟨.inr ⟨Nat.lt_succ_self i, hopens⟩, ?_⟩, ?_, ?_, ?_, ?_, ?_⟩
  · intro j hj hji
    dsimp only at hj
    omega
  · rw [digits_succ (Nat.le_refl i) hi, digits_self, if_pos hdigit]
  · dsimp only
    split <;> omega
  · by_cases hmore : st.len > st.max
    · simp only [if_pos hmore]
      exact .inr ⟨i, Nat.lt_succ_self i, hclosed, hlen.symm⟩
    · simp only [if_neg hmore]
      rcases h.best with h0 | ⟨b, hb, hstretch, hdigits⟩
      · exact .inl h0
      · exact .inr ⟨b, Nat.lt_succ_of_lt hb, hstretch, hdigits⟩
  · intro c d hd hstretch
    dsimp only
    rcases hcases c d hd hstretch with hlt | ⟨rfl, rfl⟩
    · have hmost := h.most c d hlt hstretch
      split <;> omega
    · split <;> omega
  · intro c d hd hstretch hc
    dsimp only at hc ⊢
    by_cases hmore : st.len > st.max
    · rw [if_pos hmore] at hc ⊢
      rcases hcases c d hd hstretch with hlt | ⟨rfl, rfl⟩
      · have hmost := h.most c d hlt hstretch
        omega
      · omega
    · rw [if_neg hmore] at hc ⊢
      rcases hcases c d hd hstretch with hlt | ⟨rfl, rfl⟩
      · exact h.first c d hlt hstretch hc
      · omega

theorem scanTurn_spec (h : Tracks s i st) (hi : i < s.length) :
    ∃ st', scanTurn s i st = some st' ∧ Tracks s (i + 1) st' := by
  rw [scanTurn_eq hi]
  refine ⟨_, rfl, ?_⟩
  by_cases hdigit : isDigit (view s i) = true
  · rw [if_pos hdigit]
    by_cases hopens : opens s i = true
    · rw [if_pos hopens]
      exact h.opening hi hopens hdigit
    · have hstay := h.stay hi (eq_false_of_ne_true hopens)
      rw [if_pos hdigit] at hstay
      rwa [if_neg hopens]
  · have hopens : opens s i = false := by
      unfold opens
      rw [eq_false_of_ne_true hdigit]
      rfl
    have hstay := h.stay hi hopens
    rw [if_neg hdigit] at hstay
    rwa [if_neg hdigit]

theorem tracks_zero (s : List Int) :
    Tracks s 0 { max := 0, index := 0, len := 0, start := 0 } where
  last := ⟨.inl rfl, fun j _ hj => absurd hj (Nat.not_lt_zero j)⟩
  len := (digits_self s 0).symm
  behind := Nat.le_refl 0
  best := .inl rfl
  most _ d hd := absurd hd (Nat.not_lt_zero d)
  first _ d hd := absurd hd (Nat.not_lt_zero d)

/-- The loop that prints. -/
theorem printLoop_eq (hfits : a + n ≤ s.length) :
    forLoop (fun i out => (read s i).map fun c => out ++ [c]) a n [] =
      some ((s.drop a).take n) := by
  have hturn : ∀ i out, a ≤ i → i < a + n → out = (s.drop a).take (i - a) →
      ∃ out', ((read s i).map fun c => out ++ [c]) = some out' ∧
        out' = (s.drop a).take (i + 1 - a) := by
    rintro i out hai hin rfl
    have hi : i < s.length := by omega
    refine ⟨_, by rw [read_eq hi]; rfl, ?_⟩
    have hlen : i - a < (s.drop a).length := by
      rw [List.length_drop]
      omega
    have hget : (s.drop a)[i - a] = s[i] := by simp [Nat.add_sub_cancel' hai]
    rw [show i + 1 - a = i - a + 1 by omega, List.take_succ_eq_append_getElem hlen, hget]
  have hstart : ([] : List Int) = (s.drop a).take (a - a) := by simp
  obtain ⟨out, hloop, hout⟩ :=
    forLoop_spec (I := fun i out => out = (s.drop a).take (i - a)) hturn hstart
  rw [hloop, hout, Nat.add_sub_cancel_left]

theorem findMax_eq (hlen : s.length ≤ intMax) : ∃ st, Tracks s s.length st ∧
    st.start + st.max ≤ s.length ∧
    findMaxIncreasingDigits s = some ((s.drop st.start).take st.max ++ [newline]) := by
  have hturn : ∀ i st, 0 ≤ i → i < 0 + s.length → Tracks s i st →
      ∃ st', scanTurn s i st = some st' ∧ Tracks s (i + 1) st' :=
    fun i st _ hi h => scanTurn_spec h (by omega)
  obtain ⟨st, hloop, htracks⟩ := forLoop_spec hturn (tracks_zero s)
  rw [Nat.zero_add] at htracks
  have hfits : st.start + st.max ≤ s.length := by
    rcases htracks.best with h0 | ⟨b, hb, hstretch, hdigits⟩
    · have hbehind := htracks.behind
      have hindex := htracks.last.le
      omega
    · have hle := digits_le s st.start b
      have hstart := (show Last s b st.start from hstretch.2).le
      omega
  refine ⟨st, htracks, hfits, ?_⟩
  rw [findMaxIncreasingDigits, if_pos hlen, hloop]
  simp [printLoop_eq hfits]

/-! ## The table -/

/-- A character that continues a run. -/
def continues (s : List Int) (i : Nat) : Bool :=
  decide (view s (i - 1) + 1 = view s i) && isDigit (view s i) && isDigit (view s (i - 1))

/-- The length of the longest run that ends at a character, or 1. -/
def ending (s : List Int) : Nat → Nat
  | 0 => 1
  | i + 1 => if continues s (i + 1) then ending s i + 1 else 1

theorem ending_pos (s : List Int) (i : Nat) : 1 ≤ ending s i := by
  cases i with
  | zero => exact Nat.le_refl 1
  | succ i =>
    rw [ending]
    split <;> omega

theorem RunAt.init (h : RunAt s a (n + 1)) : RunAt s a n where
  fits := by
    have hfits := h.fits
    omega
  isDigit k hk := h.isDigit k (by omega)
  next k hk := h.next k (by omega)

/-- No run that ends at `j` is longer. -/
theorem RunAt.le_ending (h : RunAt s a n) (hend : a + n = j + 1) : n ≤ ending s j := by
  induction j generalizing n with
  | zero =>
    have hpos := ending_pos s 0
    by_cases hn : n ≤ 1
    · omega
    · obtain rfl : n = 1 := by omega
      exact hpos
  | succ j ih =>
    by_cases hn : n ≤ 1
    · exact hn.trans (ending_pos s (j + 1))
    · obtain ⟨k, rfl⟩ : ∃ k, n = k + 2 := ⟨n - 2, by omega⟩
      have hlast : a + (k + 1) = j + 1 := by omega
      have hbefore : a + k = j := by omega
      have hnext := h.next k (by omega)
      have hdigit := h.isDigit (k + 1) (by omega)
      have hdigit' := h.isDigit k (by omega)
      rw [hlast] at hnext hdigit
      rw [hbefore] at hnext hdigit'
      have hcontinues : continues s (j + 1) = true := by simp [continues, hnext, hdigit, hdigit']
      have hle := ih h.init (by omega)
      rw [ending, if_pos hcontinues]
      omega

theorem runAt_one (hj : j < s.length) (hdigit : isDigit (view s j) = true) : RunAt s j 1 where
  fits := by omega
  isDigit k hk := by
    obtain rfl : k = 0 := by omega
    exact hdigit
  next k hk := absurd hk (by omega)

/-- One does. -/
theorem runAt_ending (hj : j < s.length) (hdigit : isDigit (view s j) = true) :
    ∃ a, a + ending s j = j + 1 ∧ RunAt s a (ending s j) := by
  induction j with
  | zero => exact ⟨0, rfl, runAt_one hj hdigit⟩
  | succ j ih =>
    rw [ending]
    by_cases hcontinues : continues s (j + 1) = true
    · rw [if_pos hcontinues]
      simp only [continues, Bool.and_eq_true, decide_eq_true_eq, Nat.add_sub_cancel] at hcontinues
      obtain ⟨⟨hnext, -⟩, hbefore⟩ := hcontinues
      obtain ⟨a, ha, hrun⟩ := ih (by omega) hbefore
      refine ⟨a, by omega, by omega, fun k hk => ?_, fun k hk => ?_⟩
      · rcases Nat.lt_succ_iff_lt_or_eq.mp hk with hlt | rfl
        · exact hrun.isDigit k hlt
        · rwa [ha]
      · rcases Nat.lt_succ_iff_lt_or_eq.mp hk with hlt | heq
        · exact hrun.next k hlt
        · rwa [show a + k = j by omega, show a + (k + 1) = j + 1 by omega]
    · rw [if_neg hcontinues]
      exact ⟨j + 1, rfl, runAt_one hj hdigit⟩

/-- The table before the turn `i`: it has the lengths up to there, and the
greatest of them. -/
structure Tabled (s : List Int) (i : Nat) (t : Table) : Prop where
  length : t.dp.length = s.length
  cells : ∀ j, j < s.length → t.dp[j]? = some (if j < i then (ending s j : Int) else 1)
  greatest : ∃ m : Nat, t.maxLength = m ∧ 1 ≤ m ∧ (∀ j, j < i → ending s j ≤ m) ∧
    (m = 1 ∨ ∃ j, j < i ∧ isDigit (view s j) = true ∧ ending s j = m)

theorem dpTurn_eq {t : Table} (h : Tabled s (j + 1) t) (hj : j + 1 < s.length) :
    dpTurn s (j + 1) t = some (if continues s (j + 1) then
      { dp := t.dp.set (j + 1) (ending s j + 1 : Int)
        maxLength := if t.maxLength > (ending s j : Int) + 1 then t.maxLength else ending s j + 1 }
    else t) := by
  have hprev : ((j + 1 : Nat) : Int) - 1 = (j : Nat) := by omega
  have hcell := h.cells j (by omega)
  rw [if_pos (Nat.lt_succ_self j)] at hcell
  rw [dpTurn, hprev, read_eq_view (by omega : j < s.length), read_eq_view hj]
  simp only [Option.bind_eq_bind, Option.bind_some]
  by_cases hcontinues : continues s (j + 1) = true
  · rw [if_pos hcontinues]
    simp only [continues, Bool.and_eq_true, decide_eq_true_eq, Nat.add_sub_cancel] at hcontinues
    rw [if_pos ⟨hcontinues.1.1, hcontinues.1.2, hcontinues.2⟩, read_natCast, hcell,
      Option.bind_some, write_eq (by rwa [h.length])]
    rfl
  · have hnot : ¬(view s j + 1 = view s (j + 1) ∧ isDigit (view s (j + 1)) = true ∧
        isDigit (view s j) = true) := by
      rintro ⟨hnext, hdigit, hdigit'⟩
      exact hcontinues (by simp [continues, hnext, hdigit, hdigit'])
    rw [if_neg hcontinues, if_neg hnot]
    rfl

/-- A character that continues no run. -/
theorem Tabled.stay {t : Table} (h : Tabled s (j + 1) t)
    (hcontinues : continues s (j + 1) = false) : Tabled s (j + 2) t := by
  have hending : ending s (j + 1) = 1 := by rw [ending, hcontinues]; rfl
  obtain ⟨m, hm, hm1, hle, hmax⟩ := h.greatest
  refine ⟨h.length, fun i hi => ?_, m, hm, hm1, fun i hi => ?_, hmax.imp_right ?_⟩
  · rw [h.cells i hi]
    congr 1
    rcases Nat.lt_trichotomy i (j + 1) with hlt | rfl | hgt
    · rw [if_pos hlt, if_pos (by omega)]
    · rw [if_neg (Nat.lt_irrefl _), if_pos (Nat.lt_succ_self _), hending]
      rfl
    · rw [if_neg (by omega), if_neg (by omega)]
  · rcases Nat.lt_succ_iff_lt_or_eq.mp hi with hlt | rfl
    · exact hle i hlt
    · omega
  · rintro ⟨i, hi, hrest⟩
    exact ⟨i, Nat.lt_succ_of_lt hi, hrest⟩

/-- One that continues a run. -/
theorem Tabled.continuing {t : Table} (h : Tabled s (j + 1) t)
    (hcontinues : continues s (j + 1) = true) : Tabled s (j + 2) {
      dp := t.dp.set (j + 1) (ending s j + 1 : Int)
      maxLength := if t.maxLength > (ending s j : Int) + 1 then t.maxLength
        else ending s j + 1 } := by
  have hending : ending s (j + 1) = ending s j + 1 := by rw [ending, if_pos hcontinues]
  have hdigit : isDigit (view s (j + 1)) = true := by
    simp only [continues, Bool.and_eq_true] at hcontinues
    exact hcontinues.1.2
  obtain ⟨m, hm, hm1, hle, hmax⟩ := h.greatest
  refine ⟨by simpa using h.length, fun i hi => ?_, ?_⟩
  · by_cases hsame : j + 1 = i
    · subst hsame
      rw [List.getElem?_set_self (by rwa [h.length]), if_pos (Nat.lt_succ_self _), hending]
      push_cast
      rfl
    · rw [List.getElem?_set_ne hsame, h.cells i hi]
      congr 1
      by_cases hlt : i < j + 1
      · rw [if_pos hlt, if_pos (by omega)]
      · rw [if_neg hlt, if_neg (by omega)]
  · dsimp only
    by_cases hmore : t.maxLength > (ending s j : Int) + 1
    · rw [if_pos hmore]
      refine ⟨m, hm, hm1, fun i hi => ?_, hmax.imp_right ?_⟩
      · rcases Nat.lt_succ_iff_lt_or_eq.mp hi with hlt | rfl
        · exact hle i hlt
        · omega
      · rintro ⟨i, hi, hrest⟩
        exact ⟨i, Nat.lt_succ_of_lt hi, hrest⟩
    · rw [if_neg hmore]
      refine ⟨ending s j + 1, by push_cast; rfl, by omega, fun i hi => ?_,
        .inr ⟨j + 1, Nat.lt_succ_self _, hdigit, hending⟩⟩
      rcases Nat.lt_succ_iff_lt_or_eq.mp hi with hlt | rfl
      · have hle' := hle i hlt
        omega
      · omega

theorem dpTurn_spec {t : Table} (h : Tabled s i t) (hpos : 1 ≤ i) (hi : i < s.length) :
    ∃ t', dpTurn s i t = some t' ∧ Tabled s (i + 1) t' := by
  obtain ⟨j, rfl⟩ : ∃ j, i = j + 1 := ⟨i - 1, by omega⟩
  rw [dpTurn_eq h hi]
  refine ⟨_, rfl, ?_⟩
  by_cases hcontinues : continues s (j + 1) = true
  · rw [if_pos hcontinues]
    exact h.continuing hcontinues
  · rw [if_neg hcontinues]
    exact h.stay (eq_false_of_ne_true hcontinues)

/-- It is 1 if there is no digit, and else the length of a longest run. -/
theorem longest_eq (hne : s ≠ []) (hlen : s.length ≤ intMax) :
    ∃ m : Nat, longestIncreasingDigits s = some (m : Int) ∧ 1 ≤ m ∧
      (∀ r, r <:+: s → IsRun r → r.length ≤ m) ∧ (m = 1 ∨ ∃ a, RunAt s a m) := by
  have hpos : 0 < s.length := List.length_pos_iff.mpr hne
  have hint : toInt s.length = s.length := by
    have hmod : s.length % 2 ^ 32 = s.length := Nat.mod_eq_of_lt (by unfold intMax at hlen; omega)
    rw [toInt, hmod, if_pos (by unfold intMax at hlen; omega)]
  have hturn : ∀ i t, 1 ≤ i → i < 1 + (s.length - 1) → Tabled s i t →
      ∃ t', dpTurn s i t = some t' ∧ Tabled s (i + 1) t' :=
    fun i t hi1 hi h => dpTurn_spec h hi1 (by omega)
  have hstart : Tabled s 1 { dp := List.replicate s.length 1, maxLength := 1 } := by
    refine ⟨List.length_replicate, fun j hj => ?_, 1, rfl, Nat.le_refl 1, fun j hj => ?_, .inl rfl⟩
    · rw [List.getElem?_replicate_of_lt hj]
      congr 1
      by_cases hj1 : j < 1
      · obtain rfl : j = 0 := by omega
        rfl
      · rw [if_neg hj1]
    · obtain rfl : j = 0 := by omega
      exact Nat.le_refl 1
  obtain ⟨t, hloop, htabled⟩ := forLoop_spec hturn hstart
  rw [Nat.add_sub_cancel' hpos] at htabled
  obtain ⟨m, hm, hm1, hle, hmax⟩ := htabled.greatest
  refine ⟨m, ?_, hm1, fun r hr hrun => ?_, hmax.imp_right ?_⟩
  · rw [longestIncreasingDigits, hint, if_neg (by omega), Int.toNat_natCast, hloop]
    simp [hm]
  · obtain ⟨a, hat⟩ := exists_runAt hr hrun
    have hfits := hat.fits
    by_cases hempty : r.length = 0
    · omega
    · have hend := hat.le_ending (j := a + r.length - 1) (by omega)
      have hle' := hle (a + r.length - 1) (by omega)
      omega
  · rintro ⟨j, hj, hdigit, rfl⟩
    obtain ⟨a, -, hrun⟩ := runAt_ending hj hdigit
    exact ⟨a, hrun⟩

/-! ## What is printed -/

/-- What is printed is the first of the stretches with the most digits. -/
theorem Tracks.closes (h : Tracks s s.length st) (hpos : 0 < st.max) :
    ∃ b, Stretch s st.start b ∧ digits s st.start b = st.max ∧ ∀ c d, Stretch s c d →
      digits s c d ≤ st.max ∧ (c < st.start → digits s c d < st.max) := by
  obtain ⟨b, -, hstretch, hdigits⟩ := h.best.resolve_left (by omega)
  refine ⟨b, hstretch, hdigits, fun c d hcd => ?_⟩
  have hd := lt_length_of_opens hcd.1
  exact ⟨h.most c d hd hcd, h.first c d hd hcd⟩

/-- There is one such stretch. -/
theorem Tracks.eq_first (h : Tracks s s.length st) (hstretch : Stretch s a b)
    (hpos : 0 < digits s a b) (hmost : ∀ c d, Stretch s c d →
      digits s c d ≤ digits s a b ∧ (c < a → digits s c d < digits s a b)) :
    st.start = a ∧ st.max = digits s a b := by
  have hbest := h.most a b (lt_length_of_opens hstretch.1) hstretch
  obtain ⟨b', hstretch', hdigits, hfirst⟩ := h.closes (by omega)
  have hless := hmost st.start b' hstretch'
  have hless' := hfirst a b hstretch
  refine ⟨?_, by omega⟩
  rcases Nat.lt_trichotomy st.start a with hlt | heq | hgt
  · have hfewer := hless.2 hlt
    omega
  · exact heq
  · have hfewer := hless'.2 hgt
    omega

/-! ## The first of the stretches with the most digits -/

theorem digits_mono (hai : a ≤ i) (hij : i ≤ j) (hj : j ≤ s.length) :
    digits s a i ≤ digits s a j := by
  induction j, hij using Nat.le_induction with
  | base => exact Nat.le_refl _
  | succ j hij ih =>
    rw [digits_succ (hai.trans hij) (by omega)]
    exact (ih (by omega)).trans (Nat.le_add_right _ _)

/-- A run counts as a whole. -/
theorem RunAt.digits_add (h : RunAt s a n) (hca : c ≤ a) :
    digits s c (a + n) = digits s c a + n := by
  have hfits := h.fits
  induction n with
  | zero => rfl
  | succ n ih =>
    rw [← Nat.add_assoc, digits_succ (by omega) (by omega), ih h.init (by omega),
      if_pos (h.isDigit n (Nat.lt_succ_self n))]
    omega

/-- Without a digit nothing counts. -/
theorem digits_of_none (hai : a ≤ i) (hib : i ≤ b) (hb : b ≤ s.length)
    (hnone : ∀ j, i ≤ j → j < b → isDigit (view s j) = false) : digits s a b = digits s a i := by
  induction b, hib using Nat.le_induction with
  | base => rfl
  | succ b hib ih =>
    rw [digits_succ (hai.trans hib) (by omega), hnone b hib (Nat.lt_succ_self b),
      ih (by omega) fun j hj hjb => hnone j hj (by omega)]
    rfl

theorem Stretch.fits (h : Stretch s a b) : a + digits s a b ≤ s.length := by
  have hb := lt_length_of_opens h.1
  have hab := (show Last s b a from h.2).le
  have hle := digits_le s a b
  omega

/-- A digit inside a stretch is one more than the character before it. -/
theorem Stretch.next (h : Stretch s a b) (haj : a < j) (hjb : j < b)
    (hdigit : isDigit (view s j) = true) : view s (j - 1) + 1 = view s j := by
  have hopens := h.2.2 j haj hjb
  by_contra hne
  simp [opens, hdigit, hne] at hopens

/-- Without a `0` behind a `/` the digits of a stretch are a run. -/
theorem Stretch.runAt (h : Stretch s a b) (hslash : ∀ j, a < j → j < b → ¬ZeroBehindSlash s j) :
    RunAt s a (digits s a b) := by
  have hb := lt_length_of_opens h.1
  have hab := (show Last s b a from h.2).le
  have hle := digits_le s a b
  have hbefore : ∀ j, a < j → j < b → isDigit (view s j) = true →
      isDigit (view s (j - 1)) = true := by
    intro j haj hjb hdigit
    have hnext := h.next haj hjb hdigit
    have hnot := hslash j haj hjb
    simp only [isDigit, decide_eq_true_eq, ZeroBehindSlash] at hdigit hnot ⊢
    omega
  -- behind a character that is no digit, there is none up to the end
  have hstop : ∀ i, a ≤ i → i < b → isDigit (view s i) = false →
      ∀ j, i ≤ j → j < b → isDigit (view s j) = false := by
    intro i hai _ hnone j hij hjb
    induction j, hij using Nat.le_induction with
    | base => exact hnone
    | succ j hij ih =>
      by_contra hdigit
      have hprev := hbefore (j + 1) (by omega) hjb (by simpa using hdigit)
      rw [Nat.add_sub_cancel, ih (by omega)] at hprev
      cases hprev
  have hdigit : ∀ k, k < digits s a b →
      isDigit (view s (a + k)) = true := by
    intro k hk
    by_contra hnone
    have hcount := digits_of_none (Nat.le_add_right a k) (by omega) hb.le
      (hstop (a + k) (Nat.le_add_right a k) (by omega) (by simpa using hnone))
    have hfew := digits_le s a (a + k)
    omega
  refine ⟨h.fits, hdigit, fun k hk => ?_⟩
  exact h.next (j := a + (k + 1)) (by omega) (by omega) (hdigit (k + 1) hk)

theorem exists_last (s : List Int) (i : Nat) : ∃ a, Last s i a := by
  induction i with
  | zero => exact ⟨0, .inl rfl, fun j _ hj => absurd hj (Nat.not_lt_zero j)⟩
  | succ i ih =>
    cases hopens : opens s i with
    | true => exact ⟨i, .inr ⟨Nat.lt_succ_self i, hopens⟩, fun j hj hji => by omega⟩
    | false =>
      obtain ⟨a, hlast, hnone⟩ := ih
      refine ⟨a, hlast.imp_right fun ⟨hai, hopen⟩ => ⟨by omega, hopen⟩, fun j hj hji => ?_⟩
      rcases Nat.lt_succ_iff_lt_or_eq.mp hji with hlt | rfl
      · exact hnone j hj hlt
      · exact hopens

/-- Inside a run nothing opens. -/
theorem RunAt.not_opens (h : RunAt s a n) (haj : a < j) (hjn : j < a + n) : opens s j = false := by
  obtain ⟨k, rfl⟩ : ∃ k, j = a + (k + 1) := ⟨j - a - 1, by omega⟩
  have hnext := h.next k (by omega)
  rw [opens, show a + (k + 1) - 1 = a + k by omega, hnext]
  simp

/-- A run is in a stretch, or nothing opens behind its start. -/
theorem RunAt.in_stretch (h : RunAt s a n) :
    (∃ c d, Stretch s c d ∧ n ≤ digits s c d) ∨
      ∀ j, a < j → opens s j = false := by
  by_cases hopen : ∃ j, a < j ∧ opens s j = true
  · -- the next opening digit ends the stretch
    obtain ⟨had, hd⟩ := Nat.find_spec hopen
    have hmin : ∀ j, a < j → j < Nat.find hopen → opens s j = false := by
      intro j haj hj
      by_contra hne
      exact Nat.find_min hopen hj ⟨haj, by simpa using hne⟩
    generalize Nat.find hopen = d at had hd hmin
    have hnd : a + n ≤ d := by
      by_contra hlt
      rw [h.not_opens had (by omega)] at hd
      cases hd
    obtain ⟨c, hlast⟩ := exists_last s d
    have hca : c ≤ a := by
      rcases hlast.1 with rfl | ⟨hcd, hc⟩
      · exact Nat.zero_le a
      · by_contra hac
        rw [hmin c (by omega) hcd] at hc
        cases hc
    have hcount := h.digits_add hca
    have hmono := digits_mono (a := c) (by omega) hnd (lt_length_of_opens hd).le
    exact .inl ⟨c, d, ⟨hd, hlast⟩, by omega⟩
  · refine .inr fun j haj => ?_
    by_contra hne
    exact hopen ⟨j, haj, by simpa using hne⟩

/-- The first of the stretches with the most digits begins with a longest run
exactly if its digits follow one another and what no stretch closes is not
longer. -/
theorem FirstMost.longestRun_iff (h : FirstMost s a b) :
    LongestRun s ((s.drop a).take (digits s a b)) ↔
      (∀ j, a < j → j < b → ¬ZeroBehindSlash s j) ∧
        ∀ e n, (∀ j, e < j → opens s j = false) → e + n ≤ s.length →
          IsRun ((s.drop e).take n) → n ≤ digits s a b := by
  have hfits := h.1.fits
  have hb := lt_length_of_opens h.1.1
  have hab := (show Last s b a from h.1.2).le
  constructor
  · rintro ⟨⟨-, hrun⟩, hlongest⟩
    have hat := (runAt_iff hfits).mpr hrun
    refine ⟨fun j haj hjb hslash => ?_, fun e n _ hen hrun' => ?_⟩
    · obtain ⟨hprev, hzero⟩ := hslash
      by_cases hin : j < a + digits s a b
      · have hdigit := hat.isDigit (j - 1 - a) (by omega)
        rw [show a + (j - 1 - a) = j - 1 by omega, hprev] at hdigit
        simp [isDigit] at hdigit
      · -- one digit too many
        have hcount := hat.digits_add (Nat.le_refl a)
        rw [digits_self, Nat.zero_add] at hcount
        have hmono := digits_mono (s := s) (Nat.le_add_right a _) (Nat.not_lt.mp hin) (by omega)
        have hsucc := digits_succ haj.le (by omega : j < s.length)
        have hmono' := digits_mono (a := a) (by omega : a ≤ j + 1) hjb hb.le
        rw [hzero, if_pos (by decide)] at hsucc
        omega
    · have hle := hlongest _ (infix_take_drop s e n) hrun'
      rwa [length_take_drop hen, length_take_drop hfits] at hle
  · rintro ⟨hslash, htail⟩
    have hat := h.1.runAt hslash
    refine ⟨⟨infix_take_drop s a _, (runAt_iff hfits).mp hat⟩, fun r hr hrun => ?_⟩
    rw [length_take_drop hfits]
    obtain ⟨e, hat'⟩ := exists_runAt hr hrun
    rcases hat'.in_stretch with ⟨c, d, hcd, hle⟩ | hopens
    · exact hle.trans (h.2 c d hcd).1
    · exact htail e r.length hopens hat'.fits ((runAt_iff hat'.fits).mp hat')

/-! ## Both functions -/

/-- The length of a longest run is returned, if it has a digit. -/
theorem longest_of_longestRun (hlen : s.length ≤ intMax) (h : LongestRun s r)
    (hpos : 0 < r.length) : longestIncreasingDigits s = some (r.length : Int) := by
  have hne : s ≠ [] := by
    rintro rfl
    rw [List.infix_nil.mp h.1.1] at hpos
    exact absurd hpos (Nat.lt_irrefl 0)
  obtain ⟨m, hm, -, hle, hattained⟩ := longest_eq hne hlen
  have hlower := hle r h.1.1 h.1.2
  have hupper : m ≤ r.length := by
    rcases hattained with rfl | ⟨a, hrun⟩
    · exact hpos
    · have hle' := h.2 _ (infix_take_drop s a m) ((runAt_iff hrun.fits).mp hrun)
      rwa [length_take_drop hrun.fits] at hle'
  rw [hm, show m = r.length by omega]

/-- Both functions are right of a string exactly if its length is an `int`, and
the first of the stretches with the most digits is a run that no run behind
the last opening digit exceeds. -/
theorem functionsAgree_iff (s : List Int) :
    FunctionsAgree s ↔ s.length ≤ intMax ∧ LongestCloses s := by
  constructor
  · rintro ⟨r, hlongest, hprint, hreturn⟩
    have hlen : s.length ≤ intMax := by
      by_contra hlong
      rw [findMaxIncreasingDigits, if_neg hlong] at hprint
      simp at hprint
    have hne : s ≠ [] := by
      rintro rfl
      simp [longestIncreasingDigits, toInt] at hreturn
    obtain ⟨m, hm, hm1, -, -⟩ := longest_eq hne hlen
    obtain ⟨st, htracks, hfits, hprint'⟩ := findMax_eq hlen
    have hr : r = (s.drop st.start).take st.max := by
      rw [hprint, Option.some.injEq] at hprint'
      exact List.append_cancel_right hprint'
    have hmax : st.max = r.length := by rw [hr, length_take_drop hfits]
    rw [hm, Option.some.injEq] at hreturn
    obtain ⟨b, hstretch, hdigits, hmost⟩ := htracks.closes (by omega)
    rw [← hdigits] at hmost hr
    have hfirst : FirstMost s st.start b := ⟨hstretch, hmost⟩
    exact ⟨hlen, st.start, b, hfirst, by omega, hfirst.longestRun_iff.mp (hr ▸ hlongest)⟩
  · rintro ⟨hlen, a, b, hfirst, hpos, hcloses⟩
    have hlongest := hfirst.longestRun_iff.mpr hcloses
    have hfits := hfirst.1.fits
    obtain ⟨st, htracks, -, hprint⟩ := findMax_eq hlen
    obtain ⟨hstart, hmax⟩ := htracks.eq_first hfirst.1 hpos hfirst.2
    refine ⟨_, hlongest, ?_, longest_of_longestRun hlen hlongest ?_⟩
    · rw [hprint, hmax, hstart]
    · rwa [length_take_drop hfits]

/-- `12`: the run at the end is not printed. -/
theorem not_functionsAgree_two : ¬∀ s, FunctionsAgree s := by
  intro h
  obtain ⟨r, ⟨-, hlongest⟩, hprint, -⟩ := h [49, 50]
  have hnothing : findMaxIncreasingDigits [49, 50] = some [newline] := by decide
  rw [hnothing, Option.some.injEq] at hprint
  obtain rfl : r = [] := by
    cases r with
    | nil => rfl
    | cons x r => simp at hprint
  have hrun : IsRun [49, 50] := ⟨by decide, by simp⟩
  have hle := hlongest [49, 50] List.infix_rfl hrun
  simp at hle

end Training.IncreasingDigits
