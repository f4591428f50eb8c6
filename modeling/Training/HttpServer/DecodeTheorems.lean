/-
Training.HttpServer.DecodeTheorems — which strings are decoded.

The scan goes over the string piece by piece (`urlDecode_pieces`), to the
terminator, to a `?`, or to a `%` with less than two characters behind it
(`exists_pieces`). With none of them `memcpy` reads behind the terminator,
and with one the scan steps over it and goes on. So the strings that are
decoded are those whose escapes are whole (`decodes_iff_escapesWhole`).
-/
import Training.HttpServer.Decode

namespace Training.HttpServer

variable {before rest s t : List UInt8} {a b c : UInt8} {x y : Nat}

/-! ## Digits -/

theorem toNat_of_hexDigit (h : hexDigit c = some x) :
    (48 ≤ c.toNat ∧ c.toNat ≤ 57) ∨ (97 ≤ c.toNat ∧ c.toNat ≤ 102) ∨
      (65 ≤ c.toNat ∧ c.toNat ≤ 70) := by
  unfold hexDigit at h
  split at h
  · exact Or.inl ‹_›
  · split at h
    · exact Or.inr (Or.inl ‹_›)
    · split at h
      · exact Or.inr (Or.inr ‹_›)
      · cases h

theorem hexDigit_lt (h : hexDigit c = some x) : x < 16 := by
  have hc := toNat_of_hexDigit h
  unfold hexDigit at h
  split at h
  · cases h
    omega
  · split at h
    · cases h
      omega
    · split at h
      · cases h
        omega
      · cases h

theorem ne_of_hexDigit (hc : hexDigit c = some x) (ha : hexDigit a = none) : c ≠ a := by
  rintro rfl
  simp [hc] at ha

theorem isSpace_of_hexDigit (h : hexDigit c = some x) : isSpace c = false := by
  have hc := toNat_of_hexDigit h
  simp only [isSpace, decide_eq_false_iff_not, not_or, not_and, UInt8.le_iff_toNat_le]
  refine ⟨ne_of_hexDigit h rfl, fun hge hle => ?_⟩
  simp only [UInt8.reduceToNat] at hle
  omega

/-- Of two digits `strtoul` is what the escape means. -/
theorem strtoul_digits (hx : hexDigit a = some x) (hy : hexDigit b = some y) :
    strtoul [a, b, 0] = 16 * x + y := by
  have hminus : a ≠ 45 := ne_of_hexDigit hx rfl
  have hplus : a ≠ 43 := ne_of_hexDigit hx rfl
  have hlower : b ≠ 120 := ne_of_hexDigit hy rfl
  have hupper : b ≠ 88 := ne_of_hexDigit hy rfl
  have hzero : hexDigit 0 = none := rfl
  have hlt := hexDigit_lt hx
  have hlt' := hexDigit_lt hy
  have hdrop : [a, b, 0].dropWhile isSpace = [a, b, 0] :=
    List.dropWhile_cons_of_neg (by simp [isSpace_of_hexDigit hx])
  have hnumber : hexNumber 0 (skipRadix [a, b, 0]) = 16 * x + y := by
    simp [skipRadix, hlower, hupper, hexNumber, hx, hy, hzero]
  unfold strtoul
  simp only [hdrop, List.head?_cons, Option.some.injEq, hminus, hplus, or_self, if_false, hnumber]
  rw [if_neg (by omega)]

/-! ## The scan -/

theorem urlDecode_plain (hc : c ≠ 0) (hp : c ≠ percent) (hq : c ≠ question) (s : List UInt8) :
    urlDecode (c :: s) = (urlDecode s).map fun r => (c :: r.1, r.2) := by
  rw [urlDecode.eq_def]
  simp only [hc, hq, hp, or_self, if_false]
  cases urlDecode s <;> rfl

theorem urlDecode_escape (a b : UInt8) (s : List UInt8) :
    urlDecode (percent :: a :: b :: s) =
      (urlDecode s).map fun r => (UInt8.ofNat (strtoul [a, b, 0]) :: r.1, r.2) := by
  rw [urlDecode, if_neg (by decide), if_pos rfl]
  cases urlDecode s <;> rfl

theorem urlDecode_stop (h : s = [] ∨ s.head? = some question) :
    urlDecode (s ++ [0]) = some ([0], s ++ [0]) := by
  cases s with
  | nil => rfl
  | cons c s =>
    obtain rfl : c = question := by simpa using h
    rw [List.cons_append, urlDecode.eq_def]
    exact if_pos (Or.inr rfl)

/-- The escape is cut off by the terminator. -/
theorem urlDecode_cut (h : t.length < 2) : urlDecode (percent :: (t ++ [0])) = none := by
  cases t with
  | nil => rfl
  | cons a t =>
    obtain rfl : t = [] := by
      rw [← List.length_eq_zero_iff]
      simp only [List.length_cons] at h
      omega
    rw [List.cons_append, List.nil_append, urlDecode_escape]
    rfl

theorem percentDecode_plain (hp : c ≠ percent) (s : List UInt8) :
    percentDecode (c :: s) = c :: percentDecode s := by
  rw [percentDecode.eq_def]
  exact if_neg hp

theorem percentDecode_escape (hx : hexDigit a = some x) (hy : hexDigit b = some y)
    (s : List UInt8) : percentDecode (percent :: a :: b :: s) =
      UInt8.ofNat (strtoul [a, b, 0]) :: percentDecode s := by
  rw [percentDecode, if_pos rfl, strtoul_digits hx hy, hx, hy, Option.getD_some, Option.getD_some]

theorem WellEscaped.tail (h : WellEscaped (c :: s)) : WellEscaped s :=
  fun before t heq => h (c :: before) t (by rw [heq, List.cons_append])

/-- The pieces are decoded one by one. -/
theorem urlDecode_pieces (h : Pieces before) (hnonzero : 0 ∉ before) :
    ∃ dest, dest.length ≤ before.length ∧
      (∀ rest, WellEscaped (before ++ rest) → dest = percentDecode before) ∧
      ∀ rest, urlDecode (before ++ rest) = (urlDecode rest).map fun r => (dest ++ r.1, r.2) := by
  induction h with
  | nil =>
    refine ⟨[], Nat.le_refl _, fun _ _ => rfl, fun rest => ?_⟩
    cases hrest : urlDecode rest <;> simp [hrest]
  | @escape a b s h ih =>
    simp only [List.mem_cons, not_or] at hnonzero
    obtain ⟨dest, hlen, hdecode, hscan⟩ := ih hnonzero.2.2.2
    refine ⟨UInt8.ofNat (strtoul [a, b, 0]) :: dest, ?_, fun rest hwell => ?_, fun rest => ?_⟩
    · simp only [List.length_cons]
      omega
    · obtain ⟨a', b', u, heq, hx, hy⟩ := hwell [] _ rfl
      obtain ⟨rfl, rfl, -⟩ : a = a' ∧ b = b' ∧ s ++ rest = u := by simpa using heq
      obtain ⟨x, hx⟩ := Option.isSome_iff_exists.mp hx
      obtain ⟨y, hy⟩ := Option.isSome_iff_exists.mp hy
      rw [percentDecode_escape hx hy, hdecode rest hwell.tail.tail.tail]
    · rw [List.cons_append, List.cons_append, List.cons_append, urlDecode_escape, hscan,
        Option.map_map]
      rfl
  | @plain c hp hq s h ih =>
    simp only [List.mem_cons, not_or] at hnonzero
    obtain ⟨dest, hlen, hdecode, hscan⟩ := ih hnonzero.2
    refine ⟨c :: dest, ?_, fun rest hwell => ?_, fun rest => ?_⟩
    · simp only [List.length_cons]
      omega
    · rw [percentDecode_plain hp, hdecode rest hwell.tail]
    · rw [List.cons_append, urlDecode_plain (Ne.symm hnonzero.1) hp hq, hscan, Option.map_map]
      rfl

/-- Where the scan ends. -/
theorem exists_pieces : ∀ s : List UInt8, ∃ before after, s = before ++ after ∧ Pieces before ∧
    ((after = [] ∨ after.head? = some question) ∨ ∃ t, after = percent :: t ∧ t.length < 2)
  | [] => ⟨[], [], rfl, Pieces.nil, Or.inl (Or.inl rfl)⟩
  | c :: s => by
      by_cases hq : c = question
      · exact ⟨[], c :: s, rfl, Pieces.nil, Or.inl (Or.inr (by rw [hq, List.head?_cons]))⟩
      · by_cases hp : c = percent
        · subst hp
          match s with
          | [] => exact ⟨[], _, rfl, Pieces.nil, Or.inr ⟨[], rfl, by decide⟩⟩
          | [a] => exact ⟨[], _, rfl, Pieces.nil, Or.inr ⟨[a], rfl, by simp⟩⟩
          | a :: b :: s =>
              obtain ⟨before, after, rfl, hbefore, hend⟩ := exists_pieces s
              exact ⟨percent :: a :: b :: before, after, rfl, hbefore.escape a b, hend⟩
        · obtain ⟨before, after, rfl, hbefore, hend⟩ := exists_pieces s
          exact ⟨c :: before, after, rfl, hbefore.plain hp hq, hend⟩

theorem urlDecode_eq_none (hbefore : Pieces before) (hnonzero : 0 ∉ before) (ht : t.length < 2) :
    urlDecode (before ++ percent :: t ++ [0]) = none := by
  obtain ⟨dest, -, -, hscan⟩ := urlDecode_pieces hbefore hnonzero
  rw [List.append_assoc, hscan, List.cons_append, urlDecode_cut ht]
  rfl

/-- For every string, `url_decode` does what it is for, and reads nothing
behind the terminator, if and only if no escape is cut off. -/
theorem decodes_iff_escapesWhole (s : CString) : Decodes s ↔ EscapesWhole s.bytes := by
  constructor
  · rintro ⟨dest, p, -, -, hsome, -⟩ before t hbefore heq
    by_contra ht
    have hnone := urlDecode_eq_none hbefore (fun h => s.nonzero (by simp [heq, h]))
      (Nat.lt_of_not_le ht)
    rw [← heq, hsome] at hnone
    cases hnone
  · intro h
    obtain ⟨before, after, heq, hbefore, hstop | ⟨t, rfl, ht⟩⟩ := exists_pieces s.bytes
    · obtain ⟨dest, hlen, hdecode, hscan⟩ :=
        urlDecode_pieces hbefore fun h => s.nonzero (by simp [heq, h])
      refine ⟨dest ++ [0], after ++ [0], before, after, ?_, ?_⟩
      · rw [heq, List.append_assoc, hscan, urlDecode_stop hstop]
        rfl
      · exact
          { source := heq
            pieces := hbefore
            stop := hstop
            stopped := rfl
            short := by simpa using hlen
            decoded := fun hwell => by rw [hdecode after (heq ▸ hwell)] }
    · have hwhole := h before t hbefore heq
      omega

/-- The string `%`. -/
theorem not_decodes_percent : ¬ Decodes { bytes := [percent], nonzero := by decide } := by
  rintro ⟨dest, p, before, after, hsome, -⟩
  cases hsome

end Training.HttpServer
