/-
Training.ValidParentheses.CheckerTheorems — which words the checker
accepts.

A character that is no bracket passes the comparison with the top of the
stack and pops it, whatever it is. So `isValid` scans the part of the string
before `len` with the pairs `Loose` (`isValid_eq`): an even word is accepted
if it can be balanced by putting closing brackets for its foreign characters
(`isValid_eq_true_iff`). No access is outside the stack.
-/
import Training.Lib.Stacked
import Training.ValidParentheses.Checker

namespace Training.ValidParentheses

open Training.Lib Training.Lib.Arrays

variable {s st w : List UInt8} {stack : Stack} {b c d o : UInt8} {i turns : Nat}

/-! ## Brackets -/

/-- The pairs that the loop lets pass. -/
def Loose (o c : UInt8) : Prop :=
  isOpening o = true ∧ isOpening c = false ∧ mismatch c o = false

instance : DecidableRel Loose := fun _ _ => inferInstanceAs (Decidable (_ ∧ _ ∧ _))

theorem isOpening_iff :
    isOpening o = true ↔ o = '('.toUInt8 ∨ o = '\x7b'.toUInt8 ∨ o = '['.toUInt8 :=
  decide_eq_true_iff

theorem isClosing_iff :
    isClosing c = true ↔ c = ')'.toUInt8 ∨ c = '\x7d'.toUInt8 ∨ c = ']'.toUInt8 :=
  decide_eq_true_iff

theorem isOpening_of_isClosing (h : isClosing c = true) : isOpening c = false := by
  rcases isClosing_iff.mp h with rfl | rfl | rfl <;> rfl

theorem Pair.isOpening (h : Pair o c) : isOpening o = true := by
  cases h <;> rfl

theorem Pair.isClosing (h : Pair o c) : isClosing c = true := by
  cases h <;> rfl

theorem exists_pair (h : isOpening o = true) : ∃ c, Pair o c := by
  rcases isOpening_iff.mp h with rfl | rfl | rfl
  · exact ⟨_, Pair.round⟩
  · exact ⟨_, Pair.curly⟩
  · exact ⟨_, Pair.square⟩

/-- Of brackets, the comparison is right. -/
theorem mismatch_eq_false_iff (ho : isOpening o = true) (hc : isClosing c = true) :
    mismatch c o = false ↔ Pair o c := by
  rcases isOpening_iff.mp ho with rfl | rfl | rfl <;>
    rcases isClosing_iff.mp hc with rfl | rfl | rfl <;>
    first
    | exact iff_of_true rfl (by constructor)
    | exact iff_of_false (by decide) (by rintro ⟨⟩)

theorem mismatch_of_not_closing (hc : isClosing c = false) : mismatch c o = false := by
  simp only [isClosing, decide_eq_false_iff_not, not_or] at hc
  simp [mismatch, hc]

theorem loose_iff_exists_pair : Loose o c ↔ ∃ d, Stands c d ∧ Pair o d := by
  constructor
  · rintro ⟨ho, hc, hmatch⟩
    cases hclose : isClosing c with
    | true => exact ⟨c, Or.inl rfl, (mismatch_eq_false_iff ho hclose).mp hmatch⟩
    | false =>
      obtain ⟨d, hd⟩ := exists_pair ho
      exact ⟨d, Or.inr ⟨by simp [isForeign, hc, hclose], hd.isClosing⟩, hd⟩
  · rintro ⟨d, rfl | ⟨hforeign, hd⟩, hpair⟩
    · exact ⟨hpair.isOpening, isOpening_of_isClosing hpair.isClosing,
        (mismatch_eq_false_iff hpair.isOpening hpair.isClosing).mpr hpair⟩
    · simp only [isForeign, Bool.and_eq_true, Bool.not_eq_true'] at hforeign
      exact ⟨hpair.isOpening, hforeign.1, mismatch_of_not_closing hforeign.2⟩

/-- Only an opening bracket stands for an opening bracket. -/
theorem stands_iff_of_pair (h : Pair o c) : Stands b o ↔ b = o := by
  refine ⟨?_, Or.inl⟩
  rintro (rfl | ⟨-, hclose⟩)
  · rfl
  · have hopen := h.isOpening
    simp [isOpening_of_isClosing hclose] at hopen

theorem fillable_iff : Fillable s ↔ Nested Loose s := by
  refine (nested_iff_exists_replaced ?_ ?_).symm
  · intro o c
    exact loose_iff_exists_pair
  · intro o c b hpair
    exact stands_iff_of_pair hpair

theorem Balanced.fillable (h : Balanced s) : Fillable s :=
  ⟨s, List.forall₂_same.mpr fun _ _ => Or.inl rfl, h⟩

theorem Balanced.not_foreign (h : Balanced s) (hc : c ∈ s) : isForeign c = false := by
  obtain ⟨d, hpair | hpair⟩ := Nested.mem_pair h hc
  · simp [isForeign, hpair.isOpening]
  · simp [isForeign, hpair.isClosing]

theorem looked_append (s : List UInt8) : looked s ++ unlooked s = s := List.take_append_drop _ s

/-- Behind a balanced part the rest is balanced if the whole is. -/
theorem balanced_iff_unlooked (h : Balanced (looked s)) : Balanced s ↔ Balanced (unlooked s) := by
  have happend : Balanced (looked s ++ unlooked s) ↔ Balanced (unlooked s) :=
    nested_append_iff (fun _ _ hpair => ⟨hpair.isOpening, isOpening_of_isClosing hpair.isClosing⟩) h
  rwa [looked_append] at happend

theorem eq_of_stands (hs : ∀ c ∈ s, isForeign c = false) (h : List.Forall₂ Stands s w) :
    s = w := by
  induction h with
  | nil => rfl
  | cons hstands _ ih =>
    rw [ih fun c hc => hs c (List.mem_cons_of_mem _ hc)]
    rcases hstands with rfl | ⟨hforeign, -⟩
    · rfl
    · simp [hs _ List.mem_cons_self] at hforeign

/-- Without foreign characters there is nothing to fill in. -/
theorem balanced_of_fillable (hs : ∀ c ∈ s, isForeign c = false) (h : Fillable s) :
    Balanced s := by
  obtain ⟨w, hw, hbalanced⟩ := h
  exact eq_of_stands hs hw ▸ hbalanced

/-- The part that is looked at decides about the string if the rest is
balanced too, or nothing is. -/
theorem fillable_looked_iff :
    (Fillable (looked s) ↔ Balanced s) ↔
      Balanced (looked s) ∧ Balanced (unlooked s) ∨ ¬ Fillable (looked s) ∧ ¬ Balanced s := by
  constructor
  · intro h
    by_cases hs : Balanced s
    · have hlooked : Balanced (looked s) :=
        balanced_of_fillable (fun c hc => hs.not_foreign (List.mem_of_mem_take hc)) (h.mpr hs)
      exact Or.inl ⟨hlooked, (balanced_iff_unlooked hlooked).mp hs⟩
    · exact Or.inr ⟨fun hfill => hs (h.mp hfill), hs⟩
  · rintro (⟨hlooked, hrest⟩ | ⟨hfill, hs⟩)
    · exact iff_of_true hlooked.fillable ((balanced_iff_unlooked hlooked).mpr hrest)
    · exact iff_of_false hfill hs

/-! ## The stack -/

/-- The stack holds `st`, and has room for `more` characters. -/
structure Holds (stack : Stack) (st : List UInt8) (more : Nat) : Prop where
  stacked : Stacked stack.data st
  top : stack.top = (st.length : Int) - 1
  room : st.length + more ≤ stack.data.length

theorem holds_createStack (capacity : Int) :
    Holds (createStack capacity) [] capacity.toNat where
  stacked := stacked_nil _
  top := rfl
  room := by simp [createStack]

theorem Holds.isEmpty (h : Holds stack st turns) : isEmpty stack = st.isEmpty := by
  cases st with
  | nil => simpa [ValidParentheses.isEmpty] using h.top
  | cons o st =>
    have htop := h.top
    simp only [List.length_cons] at htop
    simp [ValidParentheses.isEmpty]
    omega

theorem Holds.push (h : Holds stack st (turns + 1)) (c : UInt8) :
    ∃ stack', push stack c = some stack' ∧ Holds stack' (c :: st) turns := by
  have hroom := h.room
  have htop : stack.top + 1 = (st.length : Int) := by
    rw [h.top]
    omega
  have hlt : st.length < stack.data.length := by omega
  refine ⟨{ stack with data := stack.data.set st.length (some c), top := stack.top + 1 }, ?_, ?_⟩
  · simp [ValidParentheses.push, htop, write_eq hlt]
  · exact
      { stacked := h.stacked.push hlt c
        top := by simp [htop]
        room := by
          simp only [List.length_cons, List.length_set]
          omega }

theorem Holds.read_top (h : Holds stack (o :: st) turns) :
    read stack.data stack.top = some (some o) := by
  rw [h.top, List.length_cons, show ((st.length + 1 : Nat) : Int) - 1 = (st.length : Nat) by omega,
    read_natCast, h.stacked.top]

theorem Holds.peek (h : Holds stack (o :: st) turns) : peek stack = some o := by
  rw [ValidParentheses.peek, h.read_top, Option.join_some]

theorem Holds.pop (h : Holds stack (o :: st) (turns + 1)) :
    ∃ stack', pop stack = some (o, stack') ∧ Holds stack' st turns := by
  refine ⟨{ stack with top := stack.top - 1 }, ?_, ?_⟩
  · simp [ValidParentheses.pop, h.read_top]
  · exact
      { stacked := h.stacked.pop
        top := by
          have htop := h.top
          simp only [List.length_cons] at htop ⊢
          omega
        room := by
          have hroom := h.room
          simp only [List.length_cons] at hroom
          simp only
          omega }

/-! ## The loop -/

theorem checkFrom_eq (hst : ∀ o ∈ st, isOpening o = true) (hstack : Holds stack st turns)
    (hlen : i + turns ≤ s.length) :
    checkFrom s i turns stack = some (scan isOpening Loose st ((s.drop i).take turns)) := by
  induction turns generalizing i stack st with
  | zero => simp [checkFrom, scan, hstack.isEmpty]
  | succ turns ih =>
    have hi : i < s.length := by omega
    rw [checkFrom, read_eq hi, List.drop_eq_getElem_cons hi, List.take_succ_cons]
    simp only [Option.bind_eq_bind, Option.bind_some]
    cases hopen : isOpening s[i] with
    | true =>
      obtain ⟨stack', hpush, hstack'⟩ := hstack.push s[i]
      rw [if_pos rfl, hpush, scan_cons_opening hopen]
      exact ih (by simpa [hopen] using hst) hstack' (by omega)
    | false =>
      rw [if_neg Bool.false_ne_true, hstack.isEmpty]
      cases st with
      | nil => simp [scan, hopen]
      | cons o st =>
        have ho := hst o List.mem_cons_self
        obtain ⟨stack', hpop, hstack'⟩ := hstack.pop
        cases hmatch : mismatch s[i] o with
        | true => simp [scan, hopen, hstack.peek, hmatch, Loose]
        | false =>
          have hrest := ih (fun o ho => hst o (List.mem_cons_of_mem _ ho)) hstack'
            (by omega : i + 1 + turns ≤ s.length)
          simp [scan, hopen, hstack.peek, hmatch, Loose, ho, hpop, hrest]

/-! ## The words that are accepted -/

theorem tmod_bmod_ne_zero_iff (n : Nat) :
    ((n : Int).bmod (2 ^ 32)).tmod 2 ≠ 0 ↔ n % 2 = 1 := by
  rw [ne_eq, ← Int.dvd_iff_tmod_eq_zero, Int.bmod_def]
  split <;> omega

theorem toNat_bmod_le (n : Nat) : ((n : Int).bmod (2 ^ 32)).toNat ≤ n := by
  rw [Int.bmod_def]
  split <;> omega

theorem looked_eq (hlen : s.length < 2 ^ 31) : looked s = s := by
  refine List.take_of_length_le ?_
  rw [Int.bmod_def]
  split <;> omega

theorem isValid_eq (s : List UInt8) :
    isValid s = some (decide (s.length % 2 = 0) && scan isOpening Loose [] (looked s)) := by
  unfold isValid
  simp only [tmod_bmod_ne_zero_iff]
  by_cases hodd : s.length % 2 = 1
  · simp [hodd]
  · rw [if_neg hodd, checkFrom_eq (by simp) (holds_createStack _) (by simpa using toNat_bmod_le _),
      List.drop_zero, looked]
    simp [show s.length % 2 = 0 by omega]

theorem isValid_eq_true_iff :
    isValid s = some true ↔ s.length % 2 = 0 ∧ Fillable (looked s) := by
  have hscan : scan isOpening Loose [] (looked s) = true ↔ Nested Loose (looked s) :=
    scan_nil_iff fun o c h => ⟨h.1, h.2.1⟩
  rw [isValid_eq, fillable_iff, ← hscan]
  simp

theorem acceptsBalanced_iff_fillable :
    AcceptsBalanced s ↔ (s.length % 2 = 0 ∧ Fillable (looked s) ↔ Balanced s) := by
  have htrue := isValid_eq_true_iff (s := s)
  rw [isValid_eq] at htrue
  unfold AcceptsBalanced
  rw [isValid_eq, ← htrue]
  simp

/-- The checker is right about a string exactly when no foreign character
passes for a bracket, and, past 2^31 characters, what is behind the `int`
length makes no difference. -/
theorem acceptsBalanced_iff_confined (s : List UInt8) : AcceptsBalanced s ↔ Confined s := by
  rw [acceptsBalanced_iff_fillable]
  unfold Confined
  by_cases hodd : s.length % 2 = 1
  · have hneg : ¬ Balanced s := by
      intro h
      have heven := Nested.even h
      omega
    simp [hodd, hneg]
  · have heven : s.length % 2 = 0 := by omega
    by_cases hlen : s.length < 2 ^ 31
    · rw [looked_eq hlen]
      simp only [heven, true_and, if_pos hlen, Nat.zero_ne_one, false_or]
      constructor
      · intro h
        by_cases hfill : Fillable s
        · exact Or.inl fun c hc => (h.mp hfill).not_foreign hc
        · exact Or.inr hfill
      · rintro (hforeign | hfill)
        · exact ⟨balanced_of_fillable hforeign, Balanced.fillable⟩
        · exact iff_of_false hfill fun h => hfill h.fillable
    · simp only [heven, true_and, if_neg hlen, Nat.zero_ne_one, false_or]
      exact fillable_looked_iff

/-- The word `(a`. -/
theorem not_acceptsBalanced_opened : ¬ AcceptsBalanced ['('.toUInt8, 'a'.toUInt8] := by
  rintro ⟨b, hb, hiff⟩
  obtain rfl : true = b := by
    have heq : isValid ['('.toUInt8, 'a'.toUInt8] = some true := by decide
    exact Option.some.inj (heq.symm.trans hb)
  have hforeign := (hiff.mp rfl).not_foreign (c := 'a'.toUInt8) (by simp)
  exact absurd hforeign (by decide)

end Training.ValidParentheses
