/-
Training.Lib.Reads — a source that is read in pieces.

`Source.read` is a `read` call on a descriptor: it returns some of what
has arrived, the end of the data, or an error. Which of these, and how
much, is the environment's choice (`Outcome`); the length of a piece is
limited by what is asked for and by what is there.

`fill` is the loop that programs write around it: read until `need`
elements are there. Its lemmas say what has come off the source, and what
each way to stop means. A program's own loop is shown equal to `fill`, or
uses what one read does.
-/
import Mathlib.Tactic.Common

namespace Training.Lib

universe u

variable {α : Type u}

/-! ## Reading -/

structure Source (α : Type u) where
  unread : List α
  /-- nothing more arrives -/
  closed : Bool

/-- What the environment lets a `read` do. -/
inductive Outcome where
  /-- return all that is asked for and there -/
  | whole
  /-- return at most `n + 1` elements -/
  | short (n : Nat)
  /-- fail as if nothing had arrived yet -/
  | again
  /-- be interrupted by a signal -/
  | intr
  /-- fail otherwise -/
  | error
  deriving DecidableEq, Repr

inductive Got (α : Type u) where
  | elems (xs : List α)
  /-- the call returns 0 -/
  | eof
  | again
  | intr
  | error

/-- A `read` of up to `count` elements that does not fail. -/
def Source.take (s : Source α) (count : Nat) : Got α × Source α :=
  if s.unread.isEmpty then (if s.closed then .eof else .again, s)
  else if count = 0 then (.eof, s)
  else (.elems (s.unread.take count), { s with unread := s.unread.drop count })

def Source.read (s : Source α) (o : Outcome) (count : Nat) : Got α × Source α :=
  match o with
  | .whole => s.take count
  | .short n => s.take (min (n + 1) count)
  | .again => (.again, s)
  | .intr => (.intr, s)
  | .error => (.error, s)

/-- A `read` that may return elements. -/
def Outcome.delivers : Outcome → Bool
  | .whole => true
  | .short _ => true
  | _ => false

/-! ## Reading a given number of elements -/

inductive Stop where
  /-- all of them are there -/
  | full
  | eof
  | again
  | intr
  | error
  deriving DecidableEq, Repr

structure Filled (α : Type u) where
  elems : List α
  stop : Stop
  source : Source α
  outcomes : List Outcome

/-- Read until `need` elements are there. A turn without an outcome reads
the whole of what is there. -/
def fill : Nat → Source α → List Outcome → Nat → Filled α
  | 0, s, os, _ => { elems := [], stop := .again, source := s, outcomes := os }
  | fuel + 1, s, os, need =>
      if need = 0 then { elems := [], stop := .full, source := s, outcomes := os }
      else
        match s.read (os.headD .whole) need with
        | (.elems xs, s) =>
            let r := fill fuel s os.tail (need - xs.length)
            { r with elems := xs ++ r.elems }
        | (.eof, s) => { elems := [], stop := .eof, source := s, outcomes := os.tail }
        | (.again, s) => { elems := [], stop := .again, source := s, outcomes := os.tail }
        | (.intr, s) => { elems := [], stop := .intr, source := s, outcomes := os.tail }
        | (.error, s) => { elems := [], stop := .error, source := s, outcomes := os.tail }

/-! ## What a read does -/

section Read

variable {s s' : Source α} {o : Outcome} {n : Nat} {xs : List α}

theorem take_elems (h : s.take n = (.elems xs, s')) :
    xs ≠ [] ∧ xs.length ≤ n ∧ s.unread = xs ++ s'.unread ∧ s'.closed = s.closed := by
  unfold Source.take at h
  split at h
  · split at h <;> exact absurd (congrArg Prod.fst h) (by simp)
  · rename_i hsome
    split at h
    · exact absurd (congrArg Prod.fst h) (by simp)
    · rename_i hcount
      obtain ⟨hxs, rfl⟩ := Prod.mk.inj h
      obtain rfl := Got.elems.inj hxs
      refine ⟨?_, List.length_take_le _ _, (List.take_append_drop _ _).symm, rfl⟩
      cases hu : s.unread with
      | nil => simp [hu] at hsome
      | cons x rest =>
        obtain ⟨k, rfl⟩ := Nat.exists_eq_succ_of_ne_zero hcount
        simp

theorem read_elems (h : s.read o n = (.elems xs, s')) :
    xs ≠ [] ∧ xs.length ≤ n ∧ s.unread = xs ++ s'.unread ∧ s'.closed = s.closed := by
  cases o with
  | whole => exact take_elems h
  | short n =>
    obtain ⟨hne, hlen, hsplit⟩ := take_elems h
    exact ⟨hne, by omega, hsplit⟩
  | again => exact absurd (congrArg Prod.fst h) (by simp [Source.read])
  | intr => exact absurd (congrArg Prod.fst h) (by simp [Source.read])
  | error => exact absurd (congrArg Prod.fst h) (by simp [Source.read])

/-- A read that returns no elements leaves the source alone. -/
theorem read_source (h : ∀ xs, (s.read o n).1 ≠ .elems xs) : (s.read o n).2 = s := by
  have htake : ∀ n, (∀ xs, (s.take n).1 ≠ .elems xs) → (s.take n).2 = s := by
    intro n hnone
    unfold Source.take at hnone ⊢
    split
    · rfl
    · split
      · rfl
      · rename_i hsome hcount
        simp [hsome, hcount] at hnone
  cases o with
  | whole => exact htake _ h
  | short n => exact htake _ h
  | again => rfl
  | intr => rfl
  | error => rfl

theorem read_eof (hcount : 0 < n) (h : (s.read o n).1 = .eof) :
    s.unread = [] ∧ s.closed = true := by
  have htake : ∀ n, 0 < n → (s.take n).1 = .eof → s.unread = [] ∧ s.closed = true := by
    intro n hcount heof
    unfold Source.take at heof
    split at heof
    · rename_i hempty
      split at heof
      · rename_i hclosed
        exact ⟨List.isEmpty_iff.mp hempty, hclosed⟩
      · exact nomatch heof
    · rw [if_neg (by omega)] at heof
      exact nomatch heof
  cases o with
  | whole => exact htake _ hcount h
  | short n => exact htake _ (by omega) h
  | again => exact nomatch h
  | intr => exact nomatch h
  | error => exact nomatch h

/-- Failing as if nothing had arrived is the environment's choice, or
right. -/
theorem read_again (h : (s.read o n).1 = .again) :
    o = .again ∨ s.unread = [] ∧ s.closed = false := by
  have htake : ∀ n, (s.take n).1 = .again → s.unread = [] ∧ s.closed = false := by
    intro n hagain
    unfold Source.take at hagain
    split at hagain
    · rename_i hempty
      split at hagain
      · exact nomatch hagain
      · rename_i hclosed
        exact ⟨List.isEmpty_iff.mp hempty, by simpa using hclosed⟩
    · split at hagain <;> exact nomatch hagain
  cases o with
  | whole => exact Or.inr (htake _ h)
  | short n => exact Or.inr (htake _ h)
  | again => exact Or.inl rfl
  | intr => exact nomatch h
  | error => exact nomatch h

/-- What is there does not fail. -/
theorem take_ne (s : Source α) (n : Nat) : (s.take n).1 ≠ .intr ∧ (s.take n).1 ≠ .error := by
  unfold Source.take
  split
  · split <;> simp
  · split <;> simp

theorem read_intr (h : (s.read o n).1 = .intr) : o = .intr := by
  cases o with
  | whole => exact absurd h (take_ne s _).1
  | short n => exact absurd h (take_ne s _).1
  | again => exact nomatch h
  | intr => rfl
  | error => exact nomatch h

theorem read_error (h : (s.read o n).1 = .error) : o = .error := by
  cases o with
  | whole => exact absurd h (take_ne s _).2
  | short n => exact absurd h (take_ne s _).2
  | again => exact nomatch h
  | intr => exact nomatch h
  | error => rfl

/-- With something there, a read that delivers returns elements. -/
theorem read_delivers (ho : o.delivers = true) (hunread : s.unread ≠ []) (hcount : 0 < n) :
    ∃ xs s', s.read o n = (.elems xs, s') := by
  have hne : s.unread.isEmpty = false := by simpa using hunread
  cases o with
  | whole => exact ⟨_, _, by rw [Source.read, Source.take, hne, if_neg (by simp), if_neg (by omega)]⟩
  | short n =>
    exact ⟨_, _, by rw [Source.read, Source.take, hne, if_neg (by simp), if_neg (by omega)]⟩
  | again => exact nomatch ho
  | intr => exact nomatch ho
  | error => exact nomatch ho

/-- At the end, a read that delivers says so. -/
theorem read_closed (ho : o.delivers = true) (hunread : s.unread = []) (hclosed : s.closed = true) :
    s.read o n = (.eof, s) := by
  cases o with
  | whole => simp [Source.read, Source.take, hunread, hclosed]
  | short n => simp [Source.read, Source.take, hunread, hclosed]
  | again => exact nomatch ho
  | intr => exact nomatch ho
  | error => exact nomatch ho

end Read

/-! ## What the loop does -/

section Fill

variable {s : Source α} {os : List Outcome} {need : Nat}

theorem headD_mem (h : os.headD .whole ≠ .whole) : os.headD .whole ∈ os := by
  cases os with
  | nil => exact absurd rfl h
  | cons o os => exact List.mem_cons_self

/-- What it says about a call that it stopped as it did. -/
def Filled.Stopped (r : Filled α) (os : List Outcome) (need : Nat) : Prop :=
  match r.stop with
  | .full => r.elems.length = need
  | .eof => r.elems.length < need ∧ r.source.unread = [] ∧ r.source.closed = true
  | .again =>
      r.elems.length < need ∧
        (.again ∈ os ∨ r.source.unread = [] ∧ r.source.closed = false)
  | .intr => r.elems.length < need ∧ .intr ∈ os
  | .error => r.elems.length < need ∧ .error ∈ os

structure Filled.Spec (r : Filled α) (s : Source α) (os : List Outcome) (need : Nat) : Prop where
  split : s.unread = r.elems ++ r.source.unread
  closed : r.source.closed = s.closed
  outcomes : ∀ o ∈ r.outcomes, o ∈ os
  stopped : r.Stopped os need

/-- A piece in front of what the rest of the loop reads. -/
theorem Filled.Spec.cons {xs : List α} {s' : Source α} {r : Filled α}
    (hsplit : s.unread = xs ++ s'.unread) (hclosed : s'.closed = s.closed)
    (hneed : xs.length ≤ need) (h : r.Spec s' os.tail (need - xs.length)) :
    Filled.Spec { r with elems := xs ++ r.elems } s os need where
  split := by rw [hsplit, h.split, List.append_assoc]
  closed := h.closed.trans hclosed
  outcomes := fun o ho => List.mem_of_mem_tail (h.outcomes o ho)
  stopped := by
    have hstop := h.stopped
    unfold Filled.Stopped at hstop ⊢
    simp only [List.length_append]
    cases hr : r.stop with
    | full => simp only [hr] at hstop ⊢; omega
    | eof => simp only [hr] at hstop ⊢; exact ⟨by omega, hstop.2⟩
    | again =>
      simp only [hr] at hstop ⊢
      exact ⟨by omega, hstop.2.imp_left List.mem_of_mem_tail⟩
    | intr => simp only [hr] at hstop ⊢; exact ⟨by omega, List.mem_of_mem_tail hstop.2⟩
    | error => simp only [hr] at hstop ⊢; exact ⟨by omega, List.mem_of_mem_tail hstop.2⟩

/-- Nothing read, and a reason to stop. -/
theorem Filled.Spec.stop {stop : Stop} (h : Filled.Stopped ⟨[], stop, s, os.tail⟩ os need) :
    Filled.Spec ⟨[], stop, s, os.tail⟩ s os need where
  split := rfl
  closed := rfl
  outcomes := fun _ ho => List.mem_of_mem_tail ho
  stopped := h

theorem fill_spec (fuel : Nat) (s : Source α) (os : List Outcome) {need : Nat}
    (hfuel : need < fuel) : (fill fuel s os need).Spec s os need := by
  induction fuel generalizing s os need with
  | zero => omega
  | succ fuel ih =>
    unfold fill
    split
    · rename_i hneed
      exact ⟨rfl, rfl, fun _ ho => ho, hneed.symm⟩
    · rename_i hneed
      have hpos : 0 < need := Nat.pos_of_ne_zero hneed
      generalize hread : s.read (os.headD .whole) need = g
      obtain ⟨got, s'⟩ := g
      have hkeep : (∀ xs, got ≠ .elems xs) → s' = s := fun h => by
        have := read_source (s := s) (o := os.headD .whole) (n := need) (by rwa [hread])
        rwa [hread] at this
      cases got with
      | elems xs =>
        obtain ⟨hne, hlen, hsplit, hclosed⟩ := read_elems hread
        have hxs : 0 < xs.length := List.length_pos_iff.mpr hne
        exact .cons hsplit hclosed hlen (ih s' os.tail (by omega))
      | eof =>
        obtain rfl := hkeep (by simp)
        exact .stop ⟨hpos, read_eof hpos (by rw [hread])⟩
      | again =>
        obtain rfl := hkeep (by simp)
        refine .stop ⟨hpos, (read_again (by rw [hread])).imp_left fun ho => ?_⟩
        exact ho ▸ headD_mem (by rw [ho]; decide)
      | intr =>
        obtain rfl := hkeep (by simp)
        have ho := read_intr (by rw [hread])
        exact .stop ⟨hpos, ho ▸ headD_mem (by rw [ho]; decide)⟩
      | error =>
        obtain rfl := hkeep (by simp)
        have ho := read_error (by rw [hread])
        exact .stop ⟨hpos, ho ▸ headD_mem (by rw [ho]; decide)⟩

end Fill

end Training.Lib
