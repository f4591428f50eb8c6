/-
Training.Lib.Loops — loops of programs that may fail.

A step of a program is `none` where it has no meaning: an access outside
an array, an overflow of a signed counter. `loop` is a `while` loop, with
the number of turns it is given bounded by `fuel`; `forLoop` is a loop
whose body leaves its counter alone, and `downLoop` counts down.

* `loop_spec` — the rule of total correctness: an invariant that each
  turn keeps, and a variant that each turn makes smaller, bring the loop
  to an end at which the test fails. `loop_spec_rank` is the same for an
  invariant indexed by the variant.
* `loop_invariant` — the rule of partial correctness.
* `forLoop_spec`, `forLoop_invariant`, `downLoop_spec` — the rules for an
  invariant indexed by the counter.
-/
import Mathlib.Tactic.Common

namespace Training.Lib

universe u

variable {σ : Type u} {test : σ → Option Bool} {body : σ → Option σ} {I : σ → Prop} {s s' : σ}
  {fuel : Nat}

/-- `while (test) body` -/
def loop (test : σ → Option Bool) (body : σ → Option σ) : Nat → σ → Option σ
  | 0, _ => none
  | fuel + 1, s =>
      match test s with
      | none => none
      | some false => some s
      | some true => (body s).bind (loop test body fuel)

/-- `for (; i < hi; i++) body`, where `hi - i` turns are left. -/
def forLoop (body : Nat → σ → Option σ) (i : Nat) : Nat → σ → Option σ
  | 0, s => some s
  | turns + 1, s => (body i s).bind (forLoop body (i + 1) turns)

/-- `for (i = turns - 1; i >= 0; i--) body` -/
def downLoop (body : Nat → σ → Option σ) : Nat → σ → Option σ
  | 0, s => some s
  | turns + 1, s => (body turns s).bind (downLoop body turns)

/-- The variant `n` need not be a function of the state. -/
theorem loop_spec_rank {I : Nat → σ → Prop} {n : Nat}
    (hturn : ∀ n s, I n s → test s = some false ∨
      test s = some true ∧ ∃ s' m, body s = some s' ∧ I m s' ∧ m < n)
    (h0 : I n s) (hfuel : n < fuel) :
    ∃ s' m, loop test body fuel s = some s' ∧ I m s' ∧ test s' = some false := by
  induction fuel generalizing n s with
  | zero => exact absurd hfuel (Nat.not_lt_zero _)
  | succ fuel ih =>
    rcases hturn n s h0 with hend | ⟨htest, s₁, m, hbody, h1, hlt⟩
    · exact ⟨s, n, by simp [loop, hend], h0, hend⟩
    · obtain ⟨s', m', hloop, hI, hend⟩ := ih h1 (by omega)
      exact ⟨s', m', by simp [loop, htest, hbody, hloop], hI, hend⟩

theorem loop_spec (variant : σ → Nat)
    (hturn : ∀ s, I s → test s = some false ∨
      test s = some true ∧ ∃ s', body s = some s' ∧ I s' ∧ variant s' < variant s)
    (h0 : I s) (hfuel : variant s < fuel) :
    ∃ s', loop test body fuel s = some s' ∧ I s' ∧ test s' = some false := by
  have hturn' : ∀ n s, (I s ∧ variant s = n) → test s = some false ∨
      test s = some true ∧ ∃ s' m, body s = some s' ∧ (I s' ∧ variant s' = m) ∧ m < n := by
    intro n s hs
    rcases hturn s hs.1 with hend | ⟨htest, s', hbody, h1, hlt⟩
    · exact .inl hend
    · exact .inr ⟨htest, s', variant s', hbody, ⟨h1, rfl⟩, hs.2 ▸ hlt⟩
  obtain ⟨s', m, hloop, hI, hend⟩ := loop_spec_rank hturn' ⟨h0, rfl⟩ hfuel
  exact ⟨s', hloop, hI.1, hend⟩

theorem loop_invariant
    (hturn : ∀ s s', I s → test s = some true → body s = some s' → I s')
    (h0 : I s) (h : loop test body fuel s = some s') : I s' ∧ test s' = some false := by
  induction fuel generalizing s with
  | zero => simp [loop] at h
  | succ fuel ih =>
    cases htest : test s with
    | none => simp [loop, htest] at h
    | some b =>
      cases b with
      | false =>
        simp only [loop, htest, Option.some.injEq] at h
        exact ⟨h ▸ h0, h ▸ htest⟩
      | true =>
        simp only [loop, htest, Option.bind_eq_some_iff] at h
        obtain ⟨s₁, hbody, hrest⟩ := h
        exact ih (hturn s s₁ h0 htest hbody) hrest

theorem forLoop_spec {body : Nat → σ → Option σ} {I : Nat → σ → Prop} {i turns : Nat}
    (hturn : ∀ k s, i ≤ k → k < i + turns → I k s → ∃ s', body k s = some s' ∧ I (k + 1) s')
    (h0 : I i s) : ∃ s', forLoop body i turns s = some s' ∧ I (i + turns) s' := by
  induction turns generalizing i s with
  | zero => exact ⟨s, rfl, h0⟩
  | succ turns ih =>
    obtain ⟨s₁, hbody, h1⟩ := hturn i s (Nat.le_refl i) (by omega) h0
    obtain ⟨s', hloop, hI⟩ := ih (fun k s hk hlt => hturn k s (by omega) (by omega)) h1
    refine ⟨s', by simp [forLoop, hbody, hloop], ?_⟩
    rwa [show i + (turns + 1) = i + 1 + turns by omega]

theorem forLoop_invariant {body : Nat → σ → Option σ} {I : Nat → σ → Prop} {i turns : Nat}
    (hturn : ∀ k s s', i ≤ k → k < i + turns → I k s → body k s = some s' → I (k + 1) s')
    (h0 : I i s) (h : forLoop body i turns s = some s') : I (i + turns) s' := by
  induction turns generalizing i s with
  | zero =>
    obtain rfl : s = s' := Option.some.inj h
    exact h0
  | succ turns ih =>
    simp only [forLoop, Option.bind_eq_some_iff] at h
    obtain ⟨s₁, hbody, hrest⟩ := h
    have h1 := hturn i s s₁ (Nat.le_refl i) (by omega) h0 hbody
    have hI := ih (fun k s s' hk hlt => hturn k s s' (by omega) (by omega)) h1 hrest
    rwa [show i + (turns + 1) = i + 1 + turns by omega]

theorem downLoop_spec {body : Nat → σ → Option σ} {I : Nat → σ → Prop} {turns : Nat}
    (hturn : ∀ k s, k < turns → I (k + 1) s → ∃ s', body k s = some s' ∧ I k s')
    (h0 : I turns s) : ∃ s', downLoop body turns s = some s' ∧ I 0 s' := by
  induction turns generalizing s with
  | zero => exact ⟨s, rfl, h0⟩
  | succ turns ih =>
    obtain ⟨s₁, hbody, h1⟩ := hturn turns s (Nat.lt_succ_self turns) h0
    obtain ⟨s', hloop, hI⟩ := ih (fun k s hk => hturn k s (by omega)) h1
    exact ⟨s', by simp [downLoop, hbody, hloop], hI⟩

end Training.Lib
