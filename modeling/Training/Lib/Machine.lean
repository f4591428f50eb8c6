/-
Training.Lib.Machine — deterministic machines driven by a list of inputs.

A program whose steps are interleaved by a scheduler, a network and a
user is a deterministic function of the list of their choices: `step s a`
is the state after the choice `a`. A statement about every run is then a
statement about every list of choices, and what it assumes about
"every step of the run" is a predicate on a state and the choice taken
in it.

* `run` — the state after a list of inputs.
* `Along step c` — each step of the run, at the state it is taken in,
  meets `c`. `Throughout step P` — `P` holds in every state of the run,
  the first and the last included.
* `run_invariant` / `throughout_of_step` — an invariant kept by each
  step that meets `c` holds throughout a run along `c`.
* `throughout_iff_along` — where one step keeps `P` exactly when it
  meets `c`, a run keeps `P` exactly when it runs along `c`;
  `throughout_iff_along_of_guard` is the same inside a guard.
* `settles_of_rank` — what an endless run reaches because a rank gets
  smaller again and again.
* `along_congr` and its companions — two machines that agree on the
  steps that meet a guard agree on every run along the guard.
* `run_related` / `trace_related` — a relation between the states of two
  machines that each pair of steps keeps holds at the end of their runs,
  and they answer alike.
-/
import Mathlib.Tactic.Common

namespace Training.Lib

universe u v w

variable {σ : Type u} {α : Type v} {β : Type w}

/-- The state reached from `s` after the inputs `as`. -/
def run (step : σ → α → σ) : σ → List α → σ
  | s, [] => s
  | s, a :: as => run step (step s a) as

/-- Every step of the run meets `c` in the state it is taken in. -/
def Along (step : σ → α → σ) (c : σ → α → Prop) : σ → List α → Prop
  | _, [] => True
  | s, a :: as => c s a ∧ Along step c (step s a) as

/-- Every state of the run satisfies `P`. -/
def Throughout (step : σ → α → σ) (P : σ → Prop) : σ → List α → Prop
  | s, [] => P s
  | s, a :: as => P s ∧ Throughout step P (step s a) as

/-- What an observer sees of each step of the run. -/
def trace (step : σ → α → σ) (obs : σ → α → β) : σ → List α → List β
  | _, [] => []
  | s, a :: as => obs s a :: trace step obs (step s a) as

instance instDecidableAlong (step : σ → α → σ) (c : σ → α → Prop)
    [∀ s a, Decidable (c s a)] : ∀ s as, Decidable (Along step c s as)
  | _, [] => isTrue trivial
  | s, a :: as =>
      have := instDecidableAlong step c (step s a) as
      inferInstanceAs (Decidable (c s a ∧ Along step c (step s a) as))

variable {step : σ → α → σ} {c d : σ → α → Prop} {P I : σ → Prop} {s : σ}

/-! ## Runs -/

@[simp] theorem run_nil : run step s [] = s := rfl

@[simp] theorem run_cons (a : α) (as : List α) :
    run step s (a :: as) = run step (step s a) as := rfl

theorem run_append (as bs : List α) :
    run step s (as ++ bs) = run step (run step s as) bs := by
  induction as generalizing s with
  | nil => rfl
  | cons a as ih => exact ih

@[simp] theorem along_nil : Along step c s [] ↔ True := Iff.rfl

@[simp] theorem along_cons (a : α) (as : List α) :
    Along step c s (a :: as) ↔ c s a ∧ Along step c (step s a) as := Iff.rfl

theorem along_append (as bs : List α) :
    Along step c s (as ++ bs) ↔
      Along step c s as ∧ Along step c (run step s as) bs := by
  induction as generalizing s with
  | nil => simp
  | cons a as ih => simp [ih, and_assoc]

theorem Along.and {as : List α} (hc : Along step c s as) (hd : Along step d s as) :
    Along step (fun s a => c s a ∧ d s a) s as := by
  induction as generalizing s with
  | nil => trivial
  | cons a as ih => exact ⟨⟨hc.1, hd.1⟩, ih hc.2 hd.2⟩

/-- A condition on the inputs alone. -/
theorem along_of_forall {d : α → Prop} {as : List α} (h : ∀ a ∈ as, d a) :
    Along step (fun _ a => d a) s as := by
  induction as generalizing s with
  | nil => trivial
  | cons a as ih =>
    exact ⟨h a List.mem_cons_self, ih fun b hb => h b (List.mem_cons_of_mem _ hb)⟩

/-- A step that is part of a run along `c` meets `c`. -/
theorem Along.at (as bs : List α) {a : α} (h : Along step c s (as ++ a :: bs)) :
    c (run step s as) a :=
  ((along_append as (a :: bs)).mp h).2.1

theorem Throughout.last {as : List α} (h : Throughout step P s as) :
    P (run step s as) := by
  induction as generalizing s with
  | nil => exact h
  | cons a as ih => exact ih h.2

theorem Throughout.first {as : List α} (h : Throughout step P s as) : P s := by
  cases as with
  | nil => exact h
  | cons a as => exact h.1

/-! ## Invariants -/

/-- The run rule: what each step that meets `c` keeps, a run along `c`
keeps. -/
theorem run_invariant (hstep : ∀ s a, I s → c s a → I (step s a)) {as : List α}
    (h : Along step c s as) (h0 : I s) : I (run step s as) := by
  induction as generalizing s with
  | nil => exact h0
  | cons a as ih => exact ih h.2 (hstep s a h0 h.1)

/-- The run rule for an invariant that every step keeps. -/
theorem run_invariant' (hstep : ∀ s a, I s → I (step s a)) (as : List α) (h0 : I s) :
    I (run step s as) := by
  induction as generalizing s with
  | nil => exact h0
  | cons a as ih => exact ih (hstep s a h0)

theorem throughout_of_step (hstep : ∀ s a, I s → c s a → I (step s a))
    (hP : ∀ s, I s → P s) {as : List α} (h : Along step c s as) (h0 : I s) :
    Throughout step P s as := by
  induction as generalizing s with
  | nil => exact hP s h0
  | cons a as ih => exact ⟨hP s h0, ih h.2 (hstep s a h0 h.1)⟩

/-- What an invariant gives about each step. -/
theorem along_of_invariant (hstep : ∀ s a, I s → c s a → I (step s a))
    (hd : ∀ s a, I s → c s a → d s a) {as : List α} (h : Along step c s as) (h0 : I s) :
    Along step d s as := by
  induction as generalizing s with
  | nil => trivial
  | cons a as ih => exact ⟨hd s a h0 h.1, ih h.2 (hstep s a h0 h.1)⟩

/-- Where a step that meets `g`, from a state with `I` and `P`, keeps `I`,
and keeps `P` exactly when it meets `c`, the runs along `g` that keep `P`
are the ones along `c`. -/
theorem throughout_iff_along_of_guard {g : σ → α → Prop}
    (hstep : ∀ s a, I s → g s a → P s → I (step s a) ∧ (P (step s a) ↔ c s a)) {as : List α}
    (hg : Along step g s as) (hI0 : I s) (hP0 : P s) :
    Throughout step P s as ↔ Along step c s as := by
  induction as generalizing s with
  | nil => exact iff_of_true hP0 trivial
  | cons a as ih =>
    obtain ⟨hI, hP⟩ := hstep s a hI0 hg.1 hP0
    constructor
    · intro h
      have hnext := h.2.first
      exact ⟨hP.mp hnext, (ih hg.2 hI hnext).mp h.2⟩
    · intro h
      have hnext := hP.mpr h.1
      exact ⟨hP0, (ih hg.2 hI hnext).mpr h.2⟩

/-- Where a step from a state with `I` and `P` keeps `P` exactly when it
meets `c`, the runs that keep `P` are the runs along `c`. -/
theorem throughout_iff_along (hI : ∀ s a, I s → I (step s a))
    (hP : ∀ s a, I s → P s → (P (step s a) ↔ c s a)) (as : List α)
    (hI0 : I s) (hP0 : P s) :
    Throughout step P s as ↔ Along step c s as :=
  throughout_iff_along_of_guard (fun s a hi _ hp => ⟨hI s a hi, hP s a hi hp⟩)
    (along_of_forall (d := fun _ => True) fun _ _ => trivial) hI0 hP0

/-- Where a step that meets `g`, from a state with `I`, meets `c` exactly when
it meets `d`, and then keeps `I`, the runs along `g` that go along `c` are
the ones along `d`. -/
theorem along_iff_along {g : σ → α → Prop}
    (hstep : ∀ s a, I s → g s a → (c s a ↔ d s a) ∧ (d s a → I (step s a))) {as : List α}
    (hg : Along step g s as) (hI0 : I s) : Along step c s as ↔ Along step d s as := by
  induction as generalizing s with
  | nil => exact Iff.rfl
  | cons a as ih =>
    obtain ⟨hiff, hI⟩ := hstep s a hI0 hg.1
    constructor
    · intro h
      have hd := hiff.mp h.1
      exact ⟨hd, (ih hg.2 (hI hd)).mp h.2⟩
    · intro h
      exact ⟨hiff.mpr h.1, (ih hg.2 (hI h.1)).mpr h.2⟩

/-! ## Endless runs -/

/-- Where the rank never grows, and again and again gets smaller unless
`P` is reached, `P` holds from some time on. -/
theorem settles_of_rank (b : Nat → σ) (P : σ → Prop) (rank : σ → Nat)
    (hkeep : ∀ k, P (b k) → P (b (k + 1)))
    (hrank : ∀ k, rank (b (k + 1)) ≤ rank (b k))
    (hfair : ∀ k, ∃ j, k ≤ j ∧ (P (b (j + 1)) ∨ rank (b (j + 1)) < rank (b j))) :
    ∃ K, ∀ k, K ≤ k → P (b k) := by
  have hle : ∀ {j k}, k ≤ j → rank (b j) ≤ rank (b k) := fun h => by
    induction h with
    | refl => exact Nat.le_refl _
    | step _ ih => exact Nat.le_trans (hrank _) ih
  have hreach : ∀ n k, rank (b k) = n → ∃ K, P (b K) := by
    intro n
    induction n using Nat.strongRecOn with
    | ind n ih =>
      intro k hk
      obtain ⟨j, hkj, hP | hlt⟩ := hfair k
      · exact ⟨j + 1, hP⟩
      · exact ih _ (hk ▸ Nat.lt_of_lt_of_le hlt (hle hkj)) (j + 1) rfl
  obtain ⟨K, hK⟩ := hreach _ 0 rfl
  refine ⟨K, fun k hk => ?_⟩
  induction hk with
  | refl => exact hK
  | step _ ih => exact hkeep _ ih

/-! ## Two machines that agree under a guard -/

section Agree

variable {step' : σ → α → σ} {g : σ → α → Prop}

theorem run_congr (hstep : ∀ s a, g s a → step s a = step' s a) {as : List α}
    (h : Along step g s as) : run step s as = run step' s as := by
  induction as generalizing s with
  | nil => rfl
  | cons a as ih =>
    rw [run_cons, run_cons, ← hstep s a h.1]
    exact ih h.2

theorem along_congr (hstep : ∀ s a, g s a → step s a = step' s a) {as : List α}
    (h : Along step g s as) : Along step c s as ↔ Along step' c s as := by
  induction as generalizing s with
  | nil => rfl
  | cons a as ih =>
    rw [along_cons, along_cons, ← hstep s a h.1]
    exact and_congr_right fun _ => ih h.2

theorem throughout_congr (hstep : ∀ s a, g s a → step s a = step' s a) {as : List α}
    (h : Along step g s as) : Throughout step P s as ↔ Throughout step' P s as := by
  induction as generalizing s with
  | nil => rfl
  | cons a as ih =>
    simp only [Throughout]
    rw [← hstep s a h.1]
    exact and_congr_right fun _ => ih h.2

theorem trace_congr {obs obs' : σ → α → β}
    (hstep : ∀ s a, g s a → step s a = step' s a)
    (hobs : ∀ s a, g s a → obs s a = obs' s a) {as : List α}
    (h : Along step g s as) : trace step obs s as = trace step' obs' s as := by
  induction as generalizing s with
  | nil => rfl
  | cons a as ih =>
    simp only [trace]
    rw [hobs s a h.1, ← hstep s a h.1, ih h.2]

end Agree

/-! ## Simulation -/

/-- A machine whose steps along `c` are, seen through `f`, the steps of
another on what `obs` shows of them runs as the other does. -/
theorem run_simulation {τ : Type*} {γ : Type*} {cstep : τ → γ → τ} {f : σ → τ}
    {obs : σ → α → γ} (hstep : ∀ s a, I s → c s a → I (step s a))
    (hsim : ∀ s a, I s → c s a → f (step s a) = cstep (f s) (obs s a)) {as : List α}
    (h : Along step c s as) (h0 : I s) :
    f (run step s as) = run cstep (f s) (trace step obs s as) := by
  induction as generalizing s with
  | nil => rfl
  | cons a as ih =>
    rw [run_cons, trace, run_cons, ← hsim s a h0 h.1]
    exact ih h.2 (hstep s a h0 h.1)

section Refines

variable {τ : Type*} {f : σ → τ} {cstep : τ → α → τ}
  (hI : ∀ s a, I s → I (step s a))
  (hsim : ∀ s a, I s → f (step s a) = cstep (f s) a)

include hI hsim

/-- The same with the same inputs: `f` is a refinement map. -/
theorem run_refines (as : List α) (h0 : I s) : f (run step s as) = run cstep (f s) as := by
  induction as generalizing s with
  | nil => rfl
  | cons a as ih =>
    rw [run_cons, run_cons, ← hsim s a h0]
    exact ih (hI s a h0)

/-- A refinement whose single steps answer alike answers alike. -/
theorem trace_refines {obs : σ → α → β} {cobs : τ → α → β}
    (hobs : ∀ s a, I s → obs s a = cobs (f s) a) (as : List α) (h0 : I s) :
    trace step obs s as = trace cstep cobs (f s) as := by
  induction as generalizing s with
  | nil => rfl
  | cons a as ih =>
    simp only [trace]
    rw [hobs s a h0, ← hsim s a h0, ih (hI s a h0)]

end Refines

section Related

variable {τ : Type*} {γ : Type*} {cstep : τ → γ → τ} {g : α → γ} {R : σ → τ → Prop}
  (hstep : ∀ s t a, R s t → c s a → R (step s a) (cstep t (g a)))

include hstep

theorem run_related {t : τ} {as : List α} (h : Along step c s as) (h0 : R s t) :
    R (run step s as) (run cstep t (as.map g)) := by
  induction as generalizing s t with
  | nil => exact h0
  | cons a as ih => exact ih h.2 (hstep s t a h0 h.1)

theorem trace_related {obs : σ → α → β} {cobs : τ → γ → β}
    (hobs : ∀ s t a, R s t → c s a → obs s a = cobs t (g a)) {t : τ} {as : List α}
    (h : Along step c s as) (h0 : R s t) :
    trace step obs s as = trace cstep cobs t (as.map g) := by
  induction as generalizing s t with
  | nil => rfl
  | cons a as ih =>
    rw [List.map_cons, trace, trace, hobs s t a h0 h.1, ih h.2 (hstep s t a h0 h.1)]

end Related

end Training.Lib
