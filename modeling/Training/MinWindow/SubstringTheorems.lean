/-
Training.MinWindow.SubstringTheorems — both functions search for the
leftmost of the shortest substrings.

`formed` is a sum over the characters (`Scoring`), and it is `required`
exactly when the window covers `t` (`Tracks.covers_iff`). So the loops are
the search with two borders of `Intervals`, and the result is the window
that is looked for where it is shorter than the length that stands for no
window (`minWindowWith_spec`): `INT_MAX` in `minWindow`
(`minWindow_correct`) and 0xffff in `minWindow_self`
(`implementations_agree_iff`).
-/
import Mathlib.Algebra.BigOperators.Fin
import Mathlib.Algebra.Order.BigOperators.Group.Finset
import Mathlib.Tactic.Linarith
import Training.Lib.Intervals
import Training.MinWindow.Substring

namespace Training.MinWindow

open Training.Lib Training.Lib.Intervals

variable {s t : Str} {l r n unset fuel : Nat} {w : Scan} {c : Ch} {score : Nat → Nat → Nat}
  {grows : Int → Int → Bool}

/-! ## Windows -/

/-- The characters from `l` up to `r`. -/
def slice (s : Str) (l r : Nat) : Str := (s.take r).drop l

def Covered (s t : Str) (l r : Nat) : Prop := Covers t (slice s l r)

theorem slice_append (hl : l ≤ r) (hr : r < s.length) :
    slice s l (r + 1) = slice s l r ++ [s[r]] := by
  unfold slice
  rw [List.take_succ_eq_append_getElem hr, List.drop_append_of_le_length]
  rw [List.length_take]
  omega

theorem slice_cons (hl : l < r) (hr : r ≤ s.length) :
    slice s l r = s[l] :: slice s (l + 1) r := by
  unfold slice
  rw [List.drop_eq_getElem_cons (by rw [List.length_take]; omega), List.getElem_take]

theorem slice_nil (s : Str) (r : Nat) : slice s r r = [] := by
  refine List.drop_eq_nil_iff.mpr ?_
  rw [List.length_take]
  exact Nat.min_le_left _ _

theorem covered_upward (s t : Str) : Upward (Covered s t) := by
  intro l l' r r' hl hr h c
  have hdrop : (slice s l r).Sublist (slice s l' r) := List.drop_sublist_drop_left _ hl
  have htake : (slice s l' r).Sublist (slice s l' r') :=
    ((List.take_prefix_take_left hr).sublist).drop l'
  exact (h c).trans ((hdrop.trans htake).count_le c)

theorem window_iff : Window s t l n ↔ l + n ≤ s.length ∧ Covered s t l (l + n) := by
  unfold Window Covered slice
  rw [List.drop_take, Nat.add_sub_cancel_left]

/-- An empty window does not cover a string that is not empty. -/
theorem not_covered_self (ht : t ≠ []) (r : Nat) : ¬Covered s t r r := by
  intro h
  obtain ⟨c, hc⟩ := List.exists_mem_of_ne_nil t ht
  have hle := h c
  rw [slice_nil, List.count_nil] at hle
  exact Nat.not_lt.mpr hle (List.count_pos_iff.mpr hc)

/-! ## Tables -/

theorem foldl_increment (t : Str) (table : Table) (c : Ch) :
    t.foldl increment table c = table c + t.count c := by
  induction t generalizing table with
  | nil => simp
  | cons x t ih =>
    rw [List.foldl_cons, ih, increment, Function.update_apply, List.count_cons]
    by_cases hx : c = x
    · subst hx
      simp [add_assoc, add_comm]
    · simp [hx, Ne.symm hx]

theorem frequencies_apply (t : Str) (c : Ch) : frequencies t c = t.count c := by
  simp [frequencies, foldl_increment]

/-! ## Scores -/

/-- `score n k` is what a character adds to `formed` that is `n` times in `t`
and `k` times in the window. -/
structure Scoring (grows : Int → Int → Bool) (score : Nat → Nat → Nat) : Prop where
  zero : ∀ n, score n 0 = 0
  grow : ∀ n k : Nat,
    score n (k + 1) = score n k + if 0 < n ∧ grows n (k + 1 : Nat) then 1 else 0
  shrink : ∀ n k, n ≤ k + 1 → score n (k + 1) = score n k + if 0 < n ∧ k < n then 1 else 0
  le : ∀ n k, score n k ≤ score n n
  eq_iff : ∀ n k, score n k = score n n ↔ n ≤ k

theorem scoring_min : Scoring (fun inT inWindow => inWindow ≤ inT) min where
  zero n := Nat.min_zero n
  grow n k := by
    simp only [Nat.cast_le, decide_eq_true_eq]
    split <;> omega
  shrink n k _ := by split <;> omega
  le n k := by omega
  eq_iff n k := by omega

/-- 1 when the character is there often enough. -/
def enough (n k : Nat) : Nat := if 0 < n ∧ n ≤ k then 1 else 0

theorem scoring_enough : Scoring (fun inT inWindow => inT = inWindow) enough where
  zero n := if_neg (by omega)
  grow n k := by
    simp only [Nat.cast_inj, decide_eq_true_eq, enough]
    split_ifs <;> omega
  shrink n k h := by
    unfold enough
    split_ifs <;> omega
  le n k := by
    unfold enough
    split_ifs <;> omega
  eq_iff n k := by
    unfold enough
    split_ifs <;> simp <;> omega

/-- What `formed` is for a window. -/
def total (score : Nat → Nat → Nat) (t w : Str) : Nat := ∑ c, score (t.count c) (w.count c)

theorem total_eq_iff (h : Scoring grows score) (w : Str) :
    total score t w = total score t t ↔ Covers t w := by
  have hle : ∀ c ∈ Finset.univ, score (t.count c) (w.count c) ≤ score (t.count c) (t.count c) :=
    fun c _ => h.le _ _
  rw [total, total, Finset.sum_eq_sum_iff_of_le hle]
  exact ⟨fun heq c => (h.eq_iff _ _).mp (heq c (Finset.mem_univ c)),
    fun hc c _ => (h.eq_iff _ _).mpr (hc c)⟩

/-- One more of a character. -/
theorem total_cons (w : Str) (c : Ch) {d : Nat}
    (hd : score (t.count c) (w.count c + 1) = score (t.count c) (w.count c) + d) :
    total score t (c :: w) = total score t w + d := by
  unfold total
  rw [← Finset.add_sum_erase _ _ (Finset.mem_univ c), ← Finset.add_sum_erase _ _ (Finset.mem_univ c),
    List.count_cons_self, hd]
  have hother : ∑ x ∈ Finset.univ.erase c, score (t.count x) ((c :: w).count x) =
      ∑ x ∈ Finset.univ.erase c, score (t.count x) (w.count x) := by
    refine Finset.sum_congr rfl fun x hx => ?_
    rw [List.count_cons_of_ne (Finset.ne_of_mem_erase hx).symm]
  rw [hother]
  omega

theorem total_perm {w w' : Str} (h : w.Perm w') : total score t w = total score t w' :=
  Finset.sum_congr rfl fun c _ => by rw [h.count_eq c]

theorem total_min (t : Str) : total min t t = t.length := by
  unfold total
  simp only [min_self]
  have hsum := Multiset.sum_count_eq_card (s := Finset.univ) (m := (t : Multiset Ch))
    fun _ _ => Finset.mem_univ _
  simpa using hsum

theorem sum_map_boole (p : Ch → Bool) (cs : List Ch) :
    (cs.map fun c => if p c then 1 else 0).sum = cs.countP p := by
  induction cs with
  | nil => rfl
  | cons c cs ih => rw [List.map_cons, List.sum_cons, ih, List.countP_cons, add_comm]

theorem total_enough (t : Str) : total enough t t = kinds (frequencies t) := by
  unfold total kinds
  rw [Fin.sum_univ_def, ← sum_map_boole]
  refine congrArg List.sum (List.map_congr_left fun c _ => ?_)
  simp [enough, frequencies_apply]

/-! ## The local variables -/

/-- The table and `formed` are the ones of the window up to `r`. -/
structure Tracks (score : Nat → Nat → Nat) (s t : Str) (r : Nat) (w : Scan) : Prop where
  left : w.left ≤ r
  right : r ≤ s.length
  window : ∀ c, w.window c = (slice s w.left r).count c
  formed : w.formed = total score t (slice s w.left r)

theorem Tracks.covered_iff (hscore : Scoring grows score) (h : Tracks score s t r w) :
    w.formed = total score t t ↔ Covered s t w.left r := by
  rw [h.formed, Nat.cast_inj]
  exact total_eq_iff hscore _

theorem tracks_init (hscore : Scoring grows score) (unset : Nat) (s t : Str) :
    Tracks score s t 0 (Scan.init unset) := by
  refine ⟨Nat.le_refl 0, Nat.zero_le _, fun c => ?_, ?_⟩
  · show (0 : Int) = (slice s 0 0).count c
    rw [slice_nil]
    rfl
  · show (0 : Int) = total score t (slice s 0 0)
    rw [slice_nil]
    simp [total, hscore.zero]

theorem tracks_take (hscore : Scoring grows score) (h : Tracks score s t r w) (hr : r < s.length) :
    Tracks score s t (r + 1) (take (frequencies t) grows s[r] w) := by
  have hslice := slice_append h.left hr
  have hperm : (slice s w.left (r + 1)).Perm (s[r] :: slice s w.left r) := by
    rw [hslice]
    exact List.perm_append_singleton _ _
  refine ⟨Nat.le_succ_of_le h.left, hr, fun c => ?_, ?_⟩
  · show increment w.window s[r] c = (slice s w.left (r + 1)).count c
    rw [hperm.count_eq c, increment, Function.update_apply, List.count_cons, h.window, h.window]
    by_cases hc : c = s[r]
    · subst hc
      simp
    · simp [hc, Ne.symm hc]
  · show (if _ then _ else _ : Int) = total score t (slice s w.left (r + 1))
    rw [total_perm hperm, total_cons _ _ (hscore.grow _ _), frequencies_apply, increment,
      Function.update_self, h.window, h.formed]
    rw [Nat.cast_add, apply_ite Nat.cast, Nat.cast_one, Nat.cast_zero]
    simp only [gt_iff_lt, Nat.cast_pos, Nat.cast_add, Nat.cast_one]
    split
    · rfl
    · exact (add_zero _).symm

/-- The left border is moved while the window covers `t`. -/
theorem tracks_shrink (hscore : Scoring grows score) (h : Tracks score s t r w) (hl : w.left < r)
    (hcover : Covered s t w.left r) {w' : Scan} (hw : shrinkTurn s (frequencies t) w = some w') :
    Tracks score s t r w' := by
  have hlt : w.left < s.length := lt_of_lt_of_le hl h.right
  have hslice := slice_cons hl h.right
  simp only [shrinkTurn, List.getElem?_eq_getElem hlt, Option.bind_eq_bind, Option.bind_some,
    Option.pure_def, Option.some.injEq] at hw
  subst hw
  refine ⟨hl, h.right, fun c => ?_, ?_⟩
  · show decrement w.window s[w.left] c = (slice s (w.left + 1) r).count c
    have hcount := h.window c
    rw [hslice, List.count_cons] at hcount
    rw [decrement, Function.update_apply]
    by_cases hc : c = s[w.left]
    · subst hc
      rw [hcount]
      simp
    · simp [hc, Ne.symm hc, hcount]
  · show (if _ then _ else _ : Int) = total score t (slice s (w.left + 1) r)
    have hcount := h.window s[w.left]
    have hle := hcover s[w.left]
    have hformed := h.formed
    rw [hslice, List.count_cons_self] at hcount hle
    rw [hslice, total_cons _ _ (hscore.shrink _ _ hle)] at hformed
    rw [frequencies_apply, decrement, Function.update_self, hcount, hformed]
    generalize total score t (slice s (w.left + 1) r) = sum
    generalize (slice s (w.left + 1) r).count s[w.left] = k
    generalize t.count s[w.left] = n
    have hcond : ((n : Int) > 0 ∧ ((k + 1 : Nat) : Int) - 1 < n) ↔ 0 < n ∧ k < n := by omega
    rw [if_congr hcond rfl rfl]
    split <;> omega

/-! ## The loops -/

/-- The state of the inner loop for the right border `r`. -/
structure Shrinking (score : Nat → Nat → Nat) (s t : Str) (unset r : Nat) (w : Scan) : Prop where
  tracks : Tracks score s t (r + 1) w
  right : w.right = r
  searched : Searched (Covered s t) (Moving r w.left) unset (r + 1) w.minLen w.minLeft
  passed : Passed (Covered s t) (r + 1) w.left

/-- The state of the outer loop. -/
structure Sliding (score : Nat → Nat → Nat) (s t : Str) (unset : Nat) (w : Scan) : Prop where
  tracks : Tracks score s t w.right w
  searched : Searched (Covered s t) (Ended w.right) unset w.right w.minLen w.minLeft
  passed : Passed (Covered s t) w.right w.left

theorem shrinkTurn_spec (hscore : Scoring grows score)
    (h : Shrinking score s t unset r w) :
    shrinkTest (total score t t) w = some false ∨ shrinkTest (total score t t) w = some true ∧
      ∃ w', shrinkTurn s (frequencies t) w = some w' ∧ Shrinking score s t unset r w' ∧
        r + 1 - w'.left < r + 1 - w.left := by
  have hbound := h.tracks.right
  by_cases htest : w.left ≤ w.right ∧ w.formed = total score t t
  · obtain ⟨hle, hformed⟩ := htest
    have hright := h.right
    have hlt : w.left < s.length := by omega
    have hcover := (h.tracks.covered_iff hscore).mp hformed
    obtain ⟨w', hw'⟩ : ∃ w', shrinkTurn s (frequencies t) w = some w' := by
      simp [shrinkTurn, List.getElem?_eq_getElem hlt]
    have htracks := tracks_shrink hscore h.tracks (by omega) hcover hw'
    have hsearched := searched_step h.searched hcover (by omega)
    have hfields : w'.left = w.left + 1 ∧ w'.right = w.right ∧
        w'.minLen = (if w.right - w.left + 1 < w.minLen then w.right - w.left + 1 else w.minLen) ∧
        w'.minLeft = (if w.right - w.left + 1 < w.minLen then w.left else w.minLeft) := by
      simp only [shrinkTurn, List.getElem?_eq_getElem hlt, Option.bind_eq_bind, Option.bind_some,
        Option.pure_def, Option.some.injEq] at hw'
      subst hw'
      refine ⟨rfl, rfl, ?_, ?_⟩ <;> dsimp only <;> split <;> rfl
    obtain ⟨hleft', hright', hlen', hminleft'⟩ := hfields
    refine Or.inr ⟨congrArg some (decide_eq_true ⟨hle, hformed⟩), w', hw',
      ⟨htracks, by omega, ?_, ?_⟩, by omega⟩
    · rw [hleft', hlen', hminleft', hright]
      exact hsearched
    · rw [hleft']
      exact fun _ => ⟨r + 1, by omega, Nat.le_refl _, by simpa using hcover⟩
  · exact Or.inl (by simp only [shrinkTest, htest, decide_false])

/-- A turn of the outer loop searches the windows that end with the next
character. -/
theorem slideTurn_spec (hscore : Scoring grows score) (ht : t ≠ []) (hfuel : s.length < fuel)
    (hmax : s.length ≤ intMax) (h : Sliding score s t unset w) (hr : w.right < s.length) :
    ∃ w', slideTurn fuel s (frequencies t) grows (total score t t) w = some w' ∧
      Sliding score s t unset w' ∧ w'.right = w.right + 1 := by
  have hstart : Shrinking score s t unset w.right (take (frequencies t) grows s[w.right] w) :=
    ⟨tracks_take hscore h.tracks hr, rfl, searched_start h.searched h.passed, fun hpos => by
      obtain ⟨e, hle, he, hP⟩ := h.passed hpos
      exact ⟨e, hle, by omega, hP⟩⟩
  obtain ⟨w', hloop, hshrink, hend⟩ := loop_spec
    (fun w' : Scan => w.right + 1 - w'.left) (fun w' hw' => shrinkTurn_spec hscore hw') hstart
    (by omega : w.right + 1 - (take (frequencies t) grows s[w.right] w).left < fuel)
  have hnot : ¬Covered s t w'.left (w.right + 1) := by
    have hle := hshrink.tracks.left
    rcases Nat.lt_or_ge w.right w'.left with hlt | hge
    · rw [show w'.left = w.right + 1 by omega]
      exact not_covered_self ht _
    · intro hcover
      have hformed := (hshrink.tracks.covered_iff hscore).mpr hcover
      have hright := hshrink.right
      have hfalse := of_decide_eq_false (Option.some.inj hend)
      exact hfalse ⟨hright ▸ hge, hformed⟩
  have hsearched := searched_end (covered_upward s t) hshrink.searched hnot
  have hright := hshrink.right
  refine ⟨{ w' with right := w'.right + 1 }, ?_, ⟨?_, ?_, ?_⟩, congrArg (· + 1) hright⟩
  · have hlt : w'.right < intMax := by omega
    rw [slideTurn, List.getElem?_eq_getElem hr]
    simp only [Option.bind_eq_bind, Option.bind_some, hloop, if_pos hlt, Option.pure_def]
  · have htracks := hshrink.tracks
    rw [← hright] at htracks
    exact ⟨htracks.left, htracks.right, htracks.window, htracks.formed⟩
  · dsimp only
    rw [hright]
    exact hsearched
  · dsimp only
    rw [hright]
    exact hshrink.passed

theorem sliding_init (hscore : Scoring grows score) (ht : t ≠ []) (s : Str) (unset : Nat) :
    Sliding score s t unset (Scan.init unset) := by
  refine ⟨tracks_init hscore unset s t, ⟨Nat.le_refl _, fun hlt => absurd hlt (Nat.lt_irrefl _), ?_⟩,
    fun hpos => absurd hpos (Nat.lt_irrefl 0)⟩
  intro l r hlr hS hP
  have hr : r = 0 := Nat.le_zero.mp hS.2
  have hl : l = r := by omega
  exact absurd (hl ▸ hP) (not_covered_self ht r)

theorem length_le_of_covers {v : Str} (h : Covers t v) : t.length ≤ v.length :=
  (List.subperm_iff_count.mpr h).length_le

/-- The window that is looked for, where it is shorter than `unset`. -/
theorem minWindowWith_spec (unset : Nat) (hscore : Scoring grows score) (ht : t ≠ [])
    (hfuel : s.length < fuel)
    (hmax : s.length ≤ intMax) :
    ∃ v, minWindowWith grows (total score t t) unset fuel s t = some v ∧
      (v = [] ∧ (∀ l n, Window s t l n → unset ≤ n) ∨ IsMinWindow s t v ∧ v.length < unset) := by
  unfold minWindowWith
  by_cases hshort : s.length < t.length
  · refine ⟨[], if_pos hshort, Or.inl ⟨rfl, fun l n hw => ?_⟩⟩
    have hle := length_le_of_covers hw.2
    have hbound := hw.1
    simp only [List.length_take, List.length_drop] at hle
    omega
  · rw [if_neg hshort]
    have hturn : ∀ w : Scan, Sliding score s t unset w → slideTest s w = some false ∨
        slideTest s w = some true ∧ ∃ w', slideTurn fuel s (frequencies t) grows (total score t t) w =
          some w' ∧ Sliding score s t unset w' ∧ s.length - w'.right < s.length - w.right := by
      intro w hw
      by_cases hr : w.right < s.length
      · obtain ⟨w', hturn, hw', hright⟩ := slideTurn_spec hscore ht hfuel hmax hw hr
        exact Or.inr ⟨congrArg some (decide_eq_true hr), w', hturn, hw', by omega⟩
      · exact Or.inl (congrArg some (decide_eq_false hr))
    obtain ⟨w, hloop, hw, hend⟩ := loop_spec (fun w : Scan => s.length - w.right) hturn
      (sliding_init hscore ht s unset) (show s.length - 0 < fuel by omega)
    have hlast : w.right = s.length := by
      have hle := hw.tracks.right
      have hge := of_decide_eq_false (Option.some.inj hend)
      omega
    have hsearched := hw.searched
    rw [hlast] at hsearched
    have hleast : ∀ l n, Window s t l n →
        w.minLen ≤ n ∧ (w.minLen = n → n < unset → w.minLeft ≤ l) := by
      intro l n hwin
      obtain ⟨hbound, hcover⟩ := window_iff.mp hwin
      have hmin := hsearched.least l (l + n) (by omega) ⟨by omega, hbound⟩ hcover
      rw [Nat.add_sub_cancel_left] at hmin
      exact ⟨hmin.1, fun heq hlt => hmin.2 heq (heq ▸ hlt)⟩
    rw [hloop]
    refine ⟨_, rfl, ?_⟩
    split
    · rename_i hunset
      exact Or.inl ⟨rfl, fun l n hwin => hunset ▸ (hleast l n hwin).1⟩
    · rename_i hset
      have hlt : w.minLen < unset := lt_of_le_of_ne hsearched.le hset
      obtain ⟨hbound, hcover⟩ := hsearched.found hlt
      have hlength : ((s.drop w.minLeft).take w.minLen).length = w.minLen := by
        rw [List.length_take, List.length_drop]
        omega
      refine Or.inr ⟨⟨w.minLeft, by rw [hlength], ?_, fun l n hwin => ?_⟩, by rwa [hlength]⟩
      · rw [hlength]
        exact window_iff.mpr ⟨hbound, hcover⟩
      · obtain ⟨hle, htie⟩ := hleast l n hwin
        rw [hlength]
        exact ⟨hle, fun heq => htie heq.symm (heq ▸ hlt)⟩

/-- A string that is longer than `INT_MAX` is not read to its end. -/
theorem minWindowWith_eq_none (hmax : intMax < s.length) (hlong : t.length ≤ s.length)
    (grows : Int → Int → Bool) (required : Int) (unset fuel : Nat) :
    minWindowWith grows required unset fuel s t = none := by
  unfold minWindowWith
  rw [if_neg (Nat.not_lt.mpr hlong)]
  cases hloop : loop (slideTest s) (slideTurn fuel s (frequencies t) grows required) fuel
      (Scan.init unset) with
  | none => rfl
  | some w =>
    have hturn : ∀ w w' : Scan, w.right ≤ intMax → slideTest s w = some true →
        slideTurn fuel s (frequencies t) grows required w = some w' → w'.right ≤ intMax := by
      intro w w' _ _ hw'
      simp only [slideTurn, Option.bind_eq_bind, Option.bind_eq_some_iff] at hw'
      obtain ⟨c, -, w₁, -, hw₁⟩ := hw'
      split at hw₁
      · rename_i hlt
        cases hw₁
        exact hlt
      · cases hw₁
    obtain ⟨hright, hend⟩ := loop_invariant hturn (Nat.zero_le _) hloop
    have hge := of_decide_eq_false (Option.some.inj hend)
    omega

/-! ## The two functions -/

theorem minWindow_eq (fuel : Nat) (s t : Str) :
    minWindow fuel s t = minWindowWith (fun inT inWindow => inWindow ≤ inT) (total min t t) intMax
      fuel s t := by
  rw [total_min]
  rfl

theorem minWindowSelf_eq (fuel : Nat) (s t : Str) :
    minWindowSelf fuel s t = minWindowWith (fun inT inWindow => inT = inWindow) (total enough t t)
      0xffff fuel s t := by
  rw [total_enough]
  rfl

theorem isMinWindow_ne_nil {v : Str} (ht : t ≠ []) (h : IsMinWindow s t v) : v ≠ [] := by
  rintro rfl
  obtain ⟨l, -, ⟨-, hcover⟩, -⟩ := h
  have hle := length_le_of_covers hcover
  simp at hle
  exact ht hle

theorem isMinWindow_unique {v v' : Str} (h : IsMinWindow s t v) (h' : IsMinWindow s t v') :
    v = v' := by
  obtain ⟨l, hv, hwin, hleast⟩ := h
  obtain ⟨l', hv', hwin', hleast'⟩ := h'
  have hlen : v.length = v'.length :=
    Nat.le_antisymm (hleast _ _ hwin').1 (hleast' _ _ hwin).1
  have hl : l = l' :=
    Nat.le_antisymm ((hleast _ _ hwin').2 hlen.symm) ((hleast' _ _ hwin).2 hlen)
  rw [hv, hv', hlen, hl]

theorem minWindow_spec (ht : t ≠ []) (hfuel : s.length < fuel) (hmax : s.length ≤ intMax) :
    ∃ v, minWindow fuel s t = some v ∧
      (v = [] ∧ (∀ l n, Window s t l n → intMax ≤ n) ∨ IsMinWindow s t v ∧ v.length < intMax) := by
  rw [minWindow_eq]
  exact minWindowWith_spec intMax scoring_min ht hfuel hmax

theorem minWindowSelf_spec (ht : t ≠ []) (hfuel : s.length < fuel) (hmax : s.length ≤ intMax) :
    ∃ v, minWindowSelf fuel s t = some v ∧
      (v = [] ∧ (∀ l n, Window s t l n → 0xffff ≤ n) ∨ IsMinWindow s t v ∧ v.length < 0xffff) := by
  rw [minWindowSelf_eq]
  exact minWindowWith_spec 0xffff scoring_enough ht hfuel hmax

/-- A string that is shorter than `t` has no window. -/
theorem not_window_of_short (h : s.length < t.length) (l n : Nat) : ¬Window s t l n := by
  rintro ⟨hbound, hcover⟩
  have hle := length_le_of_covers hcover
  rw [List.length_take, List.length_drop] at hle
  omega

/-- The lengths fit into an `int`, and `INT_MAX` is not one of a window. -/
def Fits (s t : Str) : Prop :=
  s.length < t.length ∨ s.length ≤ intMax ∧
    ((∃ l n, Window s t l n ∧ n < intMax) ∨ ∀ l n, ¬Window s t l n)

/-- The first of the shortest windows is returned, and the empty string
exactly where there is none. -/
theorem minWindow_correct (ht : t ≠ []) (h : Fits s t) : Correct s t := by
  refine ⟨s.length + 1, fun fuel hfuel => ?_⟩
  rcases h with hshort | ⟨hmax, hwindow⟩
  · exact ⟨[], if_pos hshort, fun hne => absurd rfl hne,
      fun _ => not_window_of_short hshort, fun _ => rfl⟩
  · obtain ⟨v, hv, ⟨rfl, hnone⟩ | ⟨hmin, -⟩⟩ := minWindow_spec ht hfuel hmax
    · refine ⟨[], hv, fun hne => absurd rfl hne, fun _ => ?_, fun _ => rfl⟩
      refine hwindow.resolve_left ?_
      rintro ⟨l, n, hwin, hlt⟩
      exact absurd hlt (Nat.not_lt.mpr (hnone l n hwin))
    · refine ⟨v, hv, fun _ => hmin, fun hnil => absurd hnil (isMinWindow_ne_nil ht hmin),
        fun hnone => ?_⟩
      obtain ⟨l, -, hwin, -⟩ := hmin
      exact absurd hwin (hnone l v.length)

theorem minWindow_correct_pair : Correct [2, 1, 2, 2] [2, 2] :=
  minWindow_correct (by decide) (Or.inr ⟨by decide, Or.inl ⟨2, 2, by decide⟩⟩)

/-! ## Long windows -/

/-- A string with two characters at its ends that are nowhere else. -/
def ends (k : Nat) : Str := 1 :: (List.replicate k 2 ++ [3])

theorem length_ends (k : Nat) : (ends k).length = k + 2 := by simp [ends]

/-- The ends are only in the whole string. -/
theorem window_ends {k : Nat} (h : Window (ends k) [1, 3] l n) : n = k + 2 := by
  obtain ⟨hbound, hcover⟩ := h
  rw [length_ends] at hbound
  have hfirst : (1 : Ch) ∈ ((ends k).drop l).take n := List.count_pos_iff.mp (hcover 1)
  have hlast : (3 : Ch) ∈ ((ends k).drop l).take n := List.count_pos_iff.mp (hcover 3)
  have hl : l = 0 := by
    by_contra hne
    obtain ⟨m, rfl⟩ := Nat.exists_eq_succ_of_ne_zero hne
    have hmem : (1 : Ch) ∈ List.replicate k 2 ++ [3] :=
      List.mem_of_mem_drop (i := m) (List.mem_of_mem_take hfirst)
    rcases List.mem_append.mp hmem with hmem | hmem
    · exact absurd (List.eq_of_mem_replicate hmem) (by decide)
    · exact absurd (List.mem_singleton.mp hmem) (by decide)
  subst hl
  by_contra hne
  have hends : ends k = (1 :: List.replicate k 2) ++ [3] := rfl
  rw [List.drop_zero, hends, List.take_append_of_le_length (by simp; omega)] at hlast
  rcases List.mem_cons.mp (List.mem_of_mem_take hlast) with heq | hmem
  · exact absurd heq (by decide)
  · exact absurd (List.eq_of_mem_replicate hmem) (by decide)

theorem window_ends_all (k : Nat) : Window (ends k) [1, 3] 0 (k + 2) := by
  refine ⟨by rw [length_ends, Nat.zero_add], fun c => ?_⟩
  rw [List.drop_zero, List.take_of_length_le (by rw [length_ends])]
  have hsub : List.Sublist [1, 3] (ends k) := by
    refine List.Sublist.cons_cons _ ?_
    exact List.sublist_append_right _ _
  exact hsub.count_le c

/-- The only window is as long as an `int` can say. -/
theorem lost_window : ¬Correct (ends (intMax - 2)) [1, 3] := by
  rintro ⟨turns, h⟩
  have hlen : (ends (intMax - 2)).length = intMax := length_ends _
  obtain ⟨v, hv, -, hnil⟩ := h (turns + intMax + 1) (by omega)
  obtain ⟨v', hv', hcase⟩ := @minWindow_spec (ends (intMax - 2)) [1, 3] (turns + intMax + 1)
    (by decide) (by omega) (by omega)
  rw [hv] at hv'
  cases hv'
  rcases hcase with ⟨rfl, -⟩ | ⟨⟨l, -, hwin, -⟩, hlt⟩
  · exact hnil.mp rfl 0 _ (window_ends_all _)
  · have hlength := window_ends hwin
    have hmax : intMax - 2 + 2 = intMax := rfl
    omega

/-- Where the two return the same, a window is short enough for both, or none is
for either. -/
theorem windows_of_agree (ht : t ≠ []) (hfuel : s.length < fuel) (hlen : s.length ≤ intMax)
    {v : Str} (hself : minWindowSelf fuel s t = some v) (hwindow : minWindow fuel s t = some v) :
    (∃ l n, Window s t l n ∧ n < 0xffff) ∨ ∀ l n, Window s t l n → intMax ≤ n := by
  obtain ⟨v₁, hv₁, hcase₁⟩ := minWindowSelf_spec ht hfuel hlen
  obtain ⟨v₂, hv₂, hcase₂⟩ := minWindow_spec ht hfuel hlen
  rw [hself] at hv₁
  rw [hwindow] at hv₂
  cases hv₁
  cases hv₂
  rcases hcase₁ with ⟨rfl, -⟩ | ⟨⟨l, -, hwin, -⟩, hlt⟩
  · rcases hcase₂ with ⟨-, hnone⟩ | ⟨hmin, -⟩
    · exact Or.inr hnone
    · exact absurd rfl (isMinWindow_ne_nil ht hmin)
  · exact Or.inl ⟨l, v.length, hwin, hlt⟩

/-- The two agree where some window is shorter than 0xffff, or none is shorter
than `INT_MAX`. -/
theorem implementations_agree_iff (ht : t ≠ []) :
    Agree s t ↔ s.length < t.length ∨ s.length ≤ intMax ∧
      ((∃ l n, Window s t l n ∧ n < 0xffff) ∨ ∀ l n, Window s t l n → intMax ≤ n) := by
  constructor
  · rintro ⟨turns, h⟩
    by_cases hshort : s.length < t.length
    · exact Or.inl hshort
    obtain ⟨v, hself, hwindow⟩ := h (turns + s.length + 1) (by omega)
    have hmax : s.length ≤ intMax := by
      by_contra hlong
      rw [minWindow_eq, minWindowWith_eq_none (by omega) (by omega)] at hwindow
      cases hwindow
    exact Or.inr ⟨hmax, windows_of_agree ht (by omega) hmax hself hwindow⟩
  · intro h
    refine ⟨s.length + 1, fun fuel hfuel => ?_⟩
    rcases h with hshort | ⟨hmax, hwindow⟩
    · exact ⟨[], if_pos hshort, if_pos hshort⟩
    · obtain ⟨v₁, hv₁, hcase₁⟩ := minWindowSelf_spec ht hfuel hmax
      obtain ⟨v₂, hv₂, hcase₂⟩ := minWindow_spec ht hfuel hmax
      refine ⟨v₁, hv₁, hv₂.trans (congrArg some ?_)⟩
      have hle : 0xffff ≤ intMax := by decide
      rcases hwindow with ⟨l, n, hwin, hlt⟩ | hnone
      · rcases hcase₁ with ⟨-, hnone₁⟩ | ⟨hmin₁, -⟩
        · exact absurd hlt (Nat.not_lt.mpr (hnone₁ l n hwin))
        · rcases hcase₂ with ⟨-, hnone₂⟩ | ⟨hmin₂, -⟩
          · have hge := hnone₂ l n hwin
            omega
          · exact isMinWindow_unique hmin₂ hmin₁
      · rcases hcase₁ with ⟨rfl, -⟩ | ⟨⟨l, -, hwin, -⟩, hlt⟩
        · rcases hcase₂ with ⟨rfl, -⟩ | ⟨⟨l, -, hwin, -⟩, hlt⟩
          · rfl
          · exact absurd hlt (Nat.not_lt.mpr (hnone l _ hwin))
        · have hge := hnone l _ hwin
          omega

theorem implementations_agree_iff_pair : Agree [2, 1, 2, 2] [2, 2] :=
  (implementations_agree_iff (by decide)).mpr
    (Or.inr ⟨by decide, Or.inl ⟨2, 2, by decide⟩⟩)

/-- A window of 65535 characters is no window for `minWindow_self`. -/
theorem implementations_disagree : ¬Agree (ends 65533) [1, 3] := by
  rintro ⟨turns, h⟩
  have hlen : (ends 65533).length = 65535 := length_ends _
  have hmax : (65535 : Nat) < intMax := by decide
  obtain ⟨v, hself, hwindow⟩ := h (turns + 65536) (by omega)
  rcases windows_of_agree (by decide) (by omega) (by omega) hself hwindow with
    ⟨l, n, hwin, hlt⟩ | hnone
  · have hlength := window_ends hwin
    omega
  · have hge := hnone 0 _ (window_ends_all 65533)
    omega

end Training.MinWindow
