/-
Training.HttpServer.RequestTheorems — which requests are taken apart in
bounds.

The padding of the buffer is no white space. So a token ends in its array
only where the request has white space behind it, and what the server does
has a meaning exactly if the buffer is a method, white space, an URI and
white space again, with both of them shorter than their arrays, and has a
NUL for the first `printf` (`parsesInside_iff_separated`).
-/
import Training.HttpServer.Request

namespace Training.HttpServer

open Training.Lib.Arrays

variable {cur cur' out out' token method uri received s : List UInt8} {c : UInt8}
  {i i' max : Nat}

theorem exists_readString : (∃ t, readString s = some t) ↔ 0 ∈ s := by
  induction s with
  | nil => simp [readString]
  | cons c s ih =>
    by_cases hc : c = 0
    · simp [readString, hc]
    · simp [readString, hc, ← ih, Ne.symm hc]

/-! ## Tokens -/

/-- The token is copied behind what is done. -/
theorem copyToken_append (done more rest : List UInt8) (hlen : done.length + more.length = max)
    (hfits : done.length + token.length < max) (hvisible : ∀ c ∈ token, isSpace c = false)
    (hc : isSpace c = true) :
    copyToken max (done ++ more) done.length (token ++ c :: rest) =
      some (done ++ token ++ more.drop token.length, done.length + token.length, c :: rest) := by
  induction token generalizing done more with
  | nil => simp [copyToken, hc]
  | cons t token ih =>
    obtain ⟨m, more, rfl⟩ : ∃ m more', more = m :: more' := by
      refine List.exists_cons_of_length_pos ?_
      omega
    simp only [List.length_cons] at hlen hfits
    have hlt : done.length < max := by omega
    have hwrite : write (done ++ m :: more) done.length t = some ((done ++ [t]) ++ more) := by
      rw [write_eq (by simp)]
      simp
    have hrest := ih (done ++ [t]) more (by simp; omega) (by simp; omega)
      fun c hc => hvisible c (List.mem_cons_of_mem _ hc)
    rw [List.cons_append, copyToken, if_pos ⟨hlt, hvisible t List.mem_cons_self⟩, hwrite,
      Option.bind_some, show done.length + 1 = (done ++ [t]).length by simp, hrest]
    simp only [List.append_assoc, List.cons_append, List.nil_append, List.length_append,
      List.length_cons, List.length_nil, List.drop_succ_cons]
    rw [show done.length + (0 + 1) + token.length = done.length + (token.length + 1) by omega]

theorem length_of_copyToken (h : copyToken max out i cur = some (out', i', cur')) :
    out'.length = out.length := by
  induction cur generalizing out i with
  | nil =>
    unfold copyToken at h
    split at h
    · cases h
    · cases h
      rfl
  | cons c cur ih =>
    unfold copyToken at h
    split at h
    · obtain ⟨out₁, hwrite, hrest⟩ := Option.bind_eq_some_iff.mp h
      rw [ih hrest, (write_eq_some hwrite).2, List.length_set]
    · cases h
      rfl

/-- Where the array has not run full, white space has come. -/
theorem copyToken_stop (h : copyToken max out i cur = some (out', i', cur')) (hi : i' < max) :
    ∃ token, cur = token ++ cur' ∧ (∀ c ∈ token, isSpace c = false) ∧ i' = i + token.length ∧
      ∃ c rest, cur' = c :: rest ∧ isSpace c = true := by
  induction cur generalizing out i with
  | nil =>
    unfold copyToken at h
    split at h
    · cases h
    · cases h
      contradiction
  | cons c cur ih =>
    unfold copyToken at h
    split at h
    · rename_i hturn
      obtain ⟨out₁, -, hrest⟩ := Option.bind_eq_some_iff.mp h
      obtain ⟨token, rfl, hvisible, rfl, hend⟩ := ih hrest
      exact ⟨c :: token, rfl, by simpa [hturn.2] using hvisible,
        by rw [List.length_cons]; omega, hend⟩
    · rename_i hturn
      cases h
      have hspace : isSpace c = true := by
        simpa [hi] using hturn
      exact ⟨[], rfl, by simp, rfl, c, cur, rfl, hspace⟩

theorem storeToken_eq_some_iff (hlen : out.length = max) :
    storeToken max out cur = some (out', cur') ↔
      ∃ token, cur = token ++ cur' ∧ TokenAt max token cur' ∧
        out' = token ++ 0 :: out.drop (token.length + 1) := by
  have hstore : ∀ token, TokenAt max token cur' → storeToken max out (token ++ cur') =
      some (token ++ 0 :: out.drop (token.length + 1), cur') := by
    intro token htoken
    obtain ⟨c, rest, rfl, hc⟩ := htoken.ends
    have hfits := htoken.fits
    have hcopy : copyToken max out 0 (token ++ c :: rest) =
        some (token ++ out.drop token.length, token.length, c :: rest) := by
      have happend := copyToken_append [] out rest (by simpa using hlen) (by simpa using hfits)
        htoken.visible hc
      simpa using happend
    have hwrite : write (token ++ out.drop token.length) token.length 0 =
        some (token ++ 0 :: out.drop (token.length + 1)) := by
      obtain ⟨x, hx⟩ : ∃ x, out.drop token.length = x :: out.drop (token.length + 1) :=
        ⟨_, List.drop_eq_getElem_cons (by omega)⟩
      rw [hx, write_eq (by simp)]
      simp
    simp [storeToken, hcopy, hwrite]
  constructor
  · intro h
    simp only [storeToken, Option.bind_eq_bind, Option.bind_eq_some_iff, Option.pure_def,
      Option.some.injEq, Prod.mk.injEq, Prod.exists] at h
    obtain ⟨out₁, i, cur₁, hcopy, out₂, hwrite, rfl, rfl⟩ := h
    have hi : i < max := by
      have hlt := (write_eq_some hwrite).1
      rwa [length_of_copyToken hcopy, hlen] at hlt
    obtain ⟨token, rfl, hvisible, rfl, hends⟩ := copyToken_stop hcopy hi
    have htoken : TokenAt max token cur₁ := ⟨by omega, hvisible, hends⟩
    refine ⟨token, rfl, htoken, ?_⟩
    have heq := hstore token htoken
    simp only [storeToken, hcopy, hwrite, Option.bind_eq_bind, Option.bind_some, Option.pure_def,
      Option.some.injEq, Prod.mk.injEq, and_true] at heq
    exact heq
  · rintro ⟨token, rfl, htoken, rfl⟩
    exact hstore token htoken

theorem skipSpaces_append {spaces rest : List UInt8} (hspaces : ∀ c ∈ spaces, isSpace c = true)
    (hc : isSpace c = false) : skipSpaces (spaces ++ c :: rest) = some (c :: rest) := by
  induction spaces with
  | nil => simp [skipSpaces, hc]
  | cons d spaces ih =>
    rw [List.cons_append, skipSpaces, if_pos (hspaces d List.mem_cons_self)]
    exact ih fun e he => hspaces e (List.mem_cons_of_mem _ he)

theorem skipSpaces_stop (h : skipSpaces cur = some cur') :
    ∃ spaces, cur = spaces ++ cur' ∧ (∀ c ∈ spaces, isSpace c = true) ∧
      ∃ c rest, cur' = c :: rest ∧ isSpace c = false := by
  induction cur with
  | nil => cases h
  | cons c cur ih =>
    unfold skipSpaces at h
    split at h
    · rename_i hc
      obtain ⟨spaces, rfl, hspaces, hstop⟩ := ih h
      exact ⟨c :: spaces, rfl, by simpa [hc] using hspaces, hstop⟩
    · rename_i hc
      cases h
      exact ⟨[], rfl, by simp, c, cur, rfl, by simpa using hc⟩

/-! ## The request -/

/-- White space and a visible byte begin different lists. -/
theorem ne_nil_of_starts {left right : List UInt8} {b : Bool}
    (hall : ∃ c rest, left ++ right = c :: rest ∧ isSpace c = b)
    (hright : ∃ c rest, right = c :: rest ∧ isSpace c = !b) : left ≠ [] := by
  rintro rfl
  obtain ⟨c, rest, rfl, hc⟩ := hall
  obtain ⟨d, rest', heq, hd⟩ := hright
  obtain ⟨rfl, -⟩ := List.cons.inj heq
  simp [hc] at hd

theorem separated_of_parseRequest {parsed : Parsed} (hne : received ≠ [])
    (hmethod : method.length = maxMethodLen) (huri : uri.length = maxUriLen)
    (h : parseRequest received method uri = some parsed) : Separated (buffer received) := by
  have hpos : received.length ≠ 0 := by simpa using hne
  unfold parseRequest at h
  simp only [if_neg hpos, Option.bind_eq_bind, Option.bind_eq_some_iff, Prod.exists] at h
  obtain ⟨text, htext, method', cur, hstore, cur', hskip, uri', rest, hstore', -⟩ := h
  obtain ⟨m, heq, hm, -⟩ := (storeToken_eq_some_iff hmethod).mp hstore
  obtain ⟨spaces, rfl, hspaces, hstop⟩ := skipSpaces_stop hskip
  obtain ⟨u, rfl, hu, -⟩ := (storeToken_eq_some_iff huri).mp hstore'
  have hspaces' : spaces ≠ [] := ne_nil_of_starts hm.ends hstop
  have hu' : u ≠ [] := ne_nil_of_starts hstop hu.ends
  rw [← List.append_assoc] at hm
  exact ⟨exists_readString.mp ⟨text, htext⟩, m, spaces, u, rest, by simp [heq],
    ⟨hspaces', hspaces⟩, hu', hm, hu⟩

/-- What is in the arrays then. -/
theorem parseRequest_of_separated (hne : received ≠ []) (hmethod : method.length = maxMethodLen)
    (huri : uri.length = maxUriLen) (h : Separated (buffer received)) :
    ∃ m u, parseRequest received method uri = some
        { ret := 0
          method := m ++ 0 :: method.drop (m.length + 1)
          uri := u ++ 0 :: uri.drop (u.length + 1) } ∧
      m.length < maxMethodLen ∧ u.length < maxUriLen := by
  obtain ⟨hnul, m, spaces, u, rest, heq, ⟨-, hspaces⟩, hune, hm, hu⟩ := h
  have hpos : received.length ≠ 0 := by simpa using hne
  obtain ⟨text, htext⟩ := exists_readString.mpr hnul
  have hstore : storeToken maxMethodLen method (buffer received) =
      some (m ++ 0 :: method.drop (m.length + 1), spaces ++ u ++ rest) :=
    (storeToken_eq_some_iff hmethod).mpr ⟨m, by simp [heq], hm, rfl⟩
  have hskip : skipSpaces (spaces ++ u ++ rest) = some (u ++ rest) := by
    obtain ⟨c, u, rfl⟩ := List.exists_cons_of_ne_nil hune
    rw [List.append_assoc]
    exact skipSpaces_append hspaces (hu.visible c List.mem_cons_self)
  have hstore' : storeToken maxUriLen uri (u ++ rest) =
      some (u ++ 0 :: uri.drop (u.length + 1), rest) :=
    (storeToken_eq_some_iff huri).mpr ⟨u, rfl, hu, rfl⟩
  have hread : ∀ s t : List UInt8, ∃ r, readString (s ++ 0 :: t) = some r :=
    fun s t => exists_readString.mpr (by simp)
  obtain ⟨r, hr⟩ := hread m (method.drop (m.length + 1))
  obtain ⟨r', hr'⟩ := hread u (uri.drop (u.length + 1))
  refine ⟨m, u, ?_, hm.fits, hu.fits⟩
  simp only [parseRequest, if_neg hpos, htext, hstore, hskip, hstore', hr, hr',
    Option.bind_eq_bind, Option.bind_some, Option.pure_def]

/-- For every request, all is in bounds if and only if the buffer is a
method, white space, an URI and white space, each in its size, with a NUL. -/
theorem parsesInside_iff_separated (request : Request) :
    ParsesInside request ↔ Separated (buffer request.bytes) := by
  constructor
  · intro h
    have hmethod : (List.replicate maxMethodLen (0 : UInt8)).length = maxMethodLen :=
      List.length_replicate
    have huri : (List.replicate maxUriLen (0 : UInt8)).length = maxUriLen := List.length_replicate
    obtain ⟨method', uri', hparse, -⟩ := h _ _ hmethod huri
    exact separated_of_parseRequest request.nonempty hmethod huri hparse
  · intro h method uri hmethod huri
    obtain ⟨m, u, hparse, hm, hu⟩ := parseRequest_of_separated request.nonempty hmethod huri h
    refine ⟨_, _, hparse, ⟨?_, by simp⟩, ?_, by simp⟩
    · simp only [List.length_append, List.length_cons, List.length_drop]
      omega
    · simp only [List.length_append, List.length_cons, List.length_drop]
      omega

/-- The request `A`: the padding does not end it. -/
theorem not_parsesInside_one : ¬ ParsesInside
    { bytes := [65], nonempty := by decide, fits := by decide } := by
  intro h
  have hlen : (List.replicate maxMethodLen (0 : UInt8)).length = maxMethodLen :=
    List.length_replicate
  obtain ⟨method', uri', hparse, -⟩ := h _ (List.replicate maxUriLen 0) hlen List.length_replicate
  obtain ⟨-, m, spaces, u, rest, heq, ⟨hne, hspaces⟩, -⟩ :=
    separated_of_parseRequest (by decide) hlen List.length_replicate hparse
  obtain ⟨c, spaces, rfl⟩ := List.exists_cons_of_ne_nil hne
  have hmem : c ∈ buffer [65] := by simp [heq]
  have hspace := hspaces c List.mem_cons_self
  simp only [buffer, List.cons_append, List.nil_append, List.mem_cons, List.mem_replicate] at hmem
  rcases hmem with rfl | ⟨-, rfl⟩
  · exact absurd hspace (by decide)
  · exact absurd hspace (by decide)

end Training.HttpServer
