/-
Training.NonRepeat.SubstringTheorems — both functions find the longest
substring without repeated characters.

After each turn the table holds the last place of every character, the
window starts at the first place from which no character is repeated, and
the length kept is the greatest one so far (`Tracks`). Entries of the
table that are older than the window are not looked at, since the new
start is the greater of two (`tracks_step`). The lengths are `int`s, and
a string of more than `INT_MAX` characters has one that is not.
-/
import Mathlib.Data.List.Nodup
import Training.Lib.Intervals
import Training.NonRepeat.Substring

namespace Training.NonRepeat

open Training.Lib Training.Lib.Arrays Training.Lib.Intervals

variable {s : List Nat} {size l r k c cut fuel : Nat} {w : Window}

/-! ## Substrings -/

/-- No character is repeated from `l` up to `r`. -/
def Distinct (s : List Nat) (l r : Nat) : Prop :=
  ∀ i j : Nat, l ≤ i → i < j → j < r → s[i]? ≠ s[j]?

theorem distinct_iff (h : l + k ≤ s.length) :
    Distinct s l (l + k) ↔ ((s.drop l).take k).Nodup := by
  have hlen : ((s.drop l).take k).length = k := by
    rw [List.length_take, List.length_drop]
    omega
  have hget : ∀ i, i < k → ((s.drop l).take k)[i]? = s[l + i]? := by
    intro i hi
    rw [List.getElem?_take, if_pos hi, List.getElem?_drop]
  rw [List.nodup_iff_getElem?_ne_getElem?, hlen]
  constructor
  · intro hdist i j hij hj
    rw [hget i (by omega), hget j hj]
    exact hdist (l + i) (l + j) (by omega) (by omega) (by omega)
  · intro hnodup i j hi hij hj
    have hne := hnodup (i - l) (j - l) (by omega) (by omega)
    rwa [hget _ (by omega), hget _ (by omega), Nat.add_sub_cancel' hi,
      Nat.add_sub_cancel' (by omega)] at hne

/-- The character `c` was last at `cut - 1` among the first `k`, or not at
all where `cut` is 0. -/
structure LastAt (s : List Nat) (k c cut : Nat) : Prop where
  le : cut ≤ k
  behind : ∀ i : Nat, cut ≤ i → i < k → s[i]? ≠ some c
  here : 0 < cut → s[cut - 1]? = some c

theorem LastAt.same (hk : s[k]? = some c) : LastAt s (k + 1) c (k + 1) where
  le := Nat.le_refl _
  behind i hi hlt := by omega
  here _ := hk

theorem LastAt.other {d : Nat} (h : LastAt s k c cut) (hk : s[k]? = some d) (hne : c ≠ d) :
    LastAt s (k + 1) c cut where
  le := Nat.le_succ_of_le h.le
  behind i hi hlt := by
    rcases Nat.lt_or_eq_of_le (Nat.le_of_lt_succ hlt) with hik | rfl
    · exact h.behind i hi hik
    · rw [hk]
      exact fun heq => hne (Option.some.inj heq).symm
  here := h.here

/-- The window starts behind the last place of the character that comes in. -/
theorem firstWith_distinct (h : FirstWith (Distinct s) k l) (hk : s[k]? = some c)
    (hlast : LastAt s k c cut) : FirstWith (Distinct s) (k + 1) (max l cut) := by
  have hle := h.le
  have hcut := hlast.le
  refine firstWith_step h (fun a hdist i j hi hij hj => hdist i j hi hij (by omega)) ?_
    (by omega) ?_
  · intro a ha hdist
    exact hdist (cut - 1) k (by omega) (by omega) (Nat.lt_succ_self k)
      ((hlast.here (by omega)).trans hk.symm)
  · intro i j hi hij hj
    rcases Nat.lt_or_eq_of_le (Nat.le_of_lt_succ hj) with hjk | rfl
    · exact h.holds i j (by omega) hij hjk
    · rw [hk]
      exact hlast.behind i (by omega) hij

/-! ## The loops -/

/-- What the local variables say about the first `k` characters. -/
structure Tracks (size : Nat) (s : List Nat) (k : Nat) (w : Window) : Prop where
  length_last : w.last.length = size
  last : ∀ c : Nat, c < size → ∃ cut : Nat, w.last.getD c 0 = cut - 1 ∧ LastAt s k c cut
  start : ∃ l : Nat, w.start = l ∧ FirstWith (Distinct s) k l
  maxLen : ∃ len : Nat, w.maxLen = len ∧ Longest (Distinct s) k len

theorem tracks_init (size : Nat) (s : List Nat) : Tracks size s 0 (Window.init size) where
  length_last := List.length_replicate
  last c hc := by
    refine ⟨0, by simp [Window.init, hc], Nat.le_refl 0, fun i _ hi => ?_, fun h => ?_⟩ <;> omega
  start := by
    refine ⟨0, rfl, Nat.le_refl 0, fun i j _ _ hj => ?_, fun a ha => ?_⟩ <;> omega
  maxLen := by
    refine ⟨0, rfl, ⟨0, Nat.le_refl 0, fun i j _ _ hj => ?_⟩, fun a b _ hb _ => ?_⟩ <;> omega

theorem tracks_step (inside : Int → Int → Bool)
    (hinside : ∀ (seen : Int) (l : Nat), inside seen l = decide ((l : Int) ≤ seen))
    (hchars : ∀ c ∈ s, c < size) (hk : k < s.length) (h : Tracks size s k w) :
    ∃ w', slideTurn inside s k w = some w' ∧ Tracks size s (k + 1) w' := by
  have hc : s[k] < w.last.length := by
    rw [h.length_last]
    exact hchars _ (List.getElem_mem hk)
  obtain ⟨cut, hseen, hlast⟩ := h.last s[k] (hchars _ (List.getElem_mem hk))
  obtain ⟨l, hstart, hfirst⟩ := h.start
  obtain ⟨len, hmaxLen, hlongest⟩ := h.maxLen
  have hk' : s[k]? = some s[k] := List.getElem?_eq_getElem hk
  have hfirst' := firstWith_distinct hfirst hk' hlast
  have hlongest' := longest_step hlongest hfirst'
  have hnew : (if inside (cut - 1 : Int) l then (cut : Int) else (l : Int)) =
      (max l cut : Nat) := by
    rw [hinside]
    by_cases hle : (l : Int) ≤ cut - 1
    · rw [if_pos (decide_eq_true hle)]
      omega
    · rw [if_neg (by simpa using hle)]
      omega
  have hle := hfirst'.le
  rw [List.getD_eq_getElem _ _ hc] at hseen
  refine ⟨{
      last := w.last.set s[k] k
      start := (max l cut : Nat)
      maxLen := if k - (max l cut : Nat) + 1 > w.maxLen then k - (max l cut : Nat) + 1
        else w.maxLen },
    by simp [slideTurn, hk', read_eq hc, write_eq hc, hseen, hstart, hnew], ?_⟩
  constructor
  · simpa using h.length_last
  · intro d hd
    by_cases hdc : d = s[k]
    · refine ⟨k + 1, ?_, hdc ▸ LastAt.same hk'⟩
      rw [hdc, getD_set hc, if_pos rfl]
      omega
    · obtain ⟨cut', hseen', hlast'⟩ := h.last d hd
      exact ⟨cut', by rw [getD_set hc, if_neg hdc, hseen'], hlast'.other hk' hdc⟩
  · exact ⟨_, rfl, hfirst'⟩
  · refine ⟨_, ?_, hlongest'⟩
    simp only [hmaxLen]
    split <;> omega

theorem Tracks.isLongest (h : Tracks size s s.length w) : IsLongest s w.maxLen := by
  obtain ⟨len, hlen, ⟨l, hl, hdist⟩, hgreatest⟩ := h.maxLen
  refine ⟨⟨l, len, hlen, hl, (distinct_iff hl).mp hdist⟩, fun a m ha hnodup => ?_⟩
  have hle := hgreatest a (a + m) (by omega) ha ((distinct_iff ha).mpr hnodup)
  omega

theorem IsLongest.unique {m n : Int} (hm : IsLongest s m) (hn : IsLongest s n) : m = n := by
  obtain ⟨⟨l, a, rfl, ha, hdist⟩, hgreatest⟩ := hm
  obtain ⟨⟨l', b, rfl, hb, hdist'⟩, hgreatest'⟩ := hn
  have hab := hgreatest' l a ha hdist
  have hba := hgreatest l' b hb hdist'
  omega

theorem lengthOfLongestSubstring1_spec (hchars : ∀ c ∈ s, c < 128) (hlen : s.length ≤ intMax) :
    ∃ n, lengthOfLongestSubstring1 s = some n ∧ IsLongest s n := by
  have hn : toInt s.length = s.length := by
    unfold toInt
    unfold intMax at hlen
    rw [Nat.mod_eq_of_lt (by omega), if_pos (by omega)]
  have hinside : ∀ (seen : Int) (l : Nat),
      decide (seen ≠ -1 ∧ seen ≥ (l : Int)) = decide ((l : Int) ≤ seen) := fun seen l =>
    decide_eq_decide.mpr ⟨fun hboth => hboth.2, fun hle => ⟨by omega, hle⟩⟩
  have hchars' : ∀ c ∈ s, c < 256 := fun c hc => Nat.lt_trans (hchars c hc) (by decide)
  have hturn : ∀ (k : Nat) (w : Window), 0 ≤ k → k < 0 + s.length → Tracks 256 s k w →
      ∃ w', slideTurn (fun seen start => seen ≠ -1 ∧ seen ≥ start) s k w = some w' ∧
        Tracks 256 s (k + 1) w' := fun k w _ hk h =>
    tracks_step _ hinside hchars' (by omega) h
  obtain ⟨w, hloop, htracks⟩ := forLoop_spec (I := Tracks 256 s) hturn (tracks_init 256 s)
  rw [Nat.zero_add] at htracks
  by_cases hzero : s.length = 0
  · obtain rfl := List.length_eq_zero_iff.mp hzero
    refine ⟨0, rfl, ?_⟩
    exact ⟨⟨0, 0, rfl, Nat.le_refl 0, List.nodup_nil⟩, fun l m hlm _ => by simp at hlm; omega⟩
  · refine ⟨w.maxLen, ?_, htracks.isLongest⟩
    rw [lengthOfLongestSubstring1]
    simp only [hn]
    rw [if_neg (by omega), Int.toNat_natCast, hloop]
    rfl

theorem lengthOfLongestSubstring2_spec (hchars : ∀ c ∈ s, c < 128) (hlen : s.length ≤ intMax)
    (hfuel : s.length < fuel) :
    ∃ n, lengthOfLongestSubstring2 fuel s = some n ∧ IsLongest s n := by
  have hturn : ∀ state : Nat × Window,
      (state.1 ≤ s.length ∧ Tracks 128 s state.1 state.2) →
      endTest s state = some false ∨ endTest s state = some true ∧
        ∃ state', rightTurn s state = some state' ∧
          (state'.1 ≤ s.length ∧ Tracks 128 s state'.1 state'.2) ∧
          s.length - state'.1 < s.length - state.1 := by
    rintro ⟨k, w⟩ ⟨hk, htracks⟩
    by_cases hlt : k < s.length
    · obtain ⟨w', hslide, htracks'⟩ :=
        tracks_step (fun seen start => seen ≥ start) (fun _ _ => rfl) hchars hlt htracks
      refine .inr ⟨by simp [endTest, hlt], (k + 1, w'), ?_, ⟨hlt, htracks'⟩, by simp; omega⟩
      simp [rightTurn, hslide, show k < intMax by omega]
    · exact .inl (by simp [endTest, hlt])
  obtain ⟨⟨k, w⟩, hloop, ⟨hk, htracks⟩, hend⟩ := loop_spec
    (I := fun state => state.1 ≤ s.length ∧ Tracks 128 s state.1 state.2)
    (s := (0, Window.init 128)) (fun state => s.length - state.1) hturn
    ⟨Nat.zero_le _, tracks_init 128 s⟩ (by simpa using hfuel)
  have hge : ¬k < s.length := by simpa [endTest] using hend
  obtain rfl : k = s.length := Nat.le_antisymm hk (Nat.le_of_not_lt hge)
  exact ⟨w.maxLen, by simp [lengthOfLongestSubstring2, hloop], htracks.isLongest⟩

/-- Both functions return the length of the longest substring without a
repeated character, if an `int` holds the length of the string. -/
theorem bothLongest_of_int (hchars : ∀ c ∈ s, 0 < c ∧ c < 128) (hlen : s.length ≤ intMax) :
    BothLongest s := by
  have hchars' := fun c hc => (hchars c hc).2
  obtain ⟨n, hn, hlongest⟩ := lengthOfLongestSubstring1_spec hchars' hlen
  refine ⟨n, s.length + 1, hlongest, hn, fun fuel hfuel => ?_⟩
  obtain ⟨m, hm, hlongest'⟩ := lengthOfLongestSubstring2_spec hchars' hlen hfuel
  rw [hm, hlongest'.unique hlongest]

theorem bothLongest_of_int_pwwkew : BothLongest [112, 119, 119, 107, 101, 119] :=
  bothLongest_of_int (by decide) (by decide)

/-- The length of 2^31 characters is negative as an `int`, and the loop of the
first function makes no turn. -/
theorem not_bothLongest_long : ¬BothLongest (List.replicate (2 ^ 31) 97) := by
  rintro ⟨n, -, ⟨-, hgreatest⟩, hn, -⟩
  have hint : toInt (List.replicate (2 ^ 31) 97).length = -2 ^ 31 := by
    rw [List.length_replicate]
    rfl
  have hzero : n = 0 := by
    simp only [lengthOfLongestSubstring1, hint] at hn
    exact (Option.some.inj hn).symm
  have hone := hgreatest 0 1 (by rw [List.length_replicate]; omega) (by
    rw [List.drop_zero, List.take_replicate]
    exact List.nodup_singleton 97)
  omega

end Training.NonRepeat
