/-
Training.Lib.Calls — machines whose calls answer, and may fail.

`calls step s as` makes the calls `as` one after the other and gives the
last state and the answers, or nothing if a call fails. A machine that can
do each call that another one can, with the same answer and in related
states, can do every run of it (`calls_simulation`). Where the other one has
a choice, its runs are the traces of a relation (`calls_trace`).
-/
import Mathlib.Tactic.Common

namespace Training.Lib

universe u v w

variable {σ τ : Type u} {ι : Type v} {β : Type w} {step : σ → ι → Option (σ × β)}
  {spec : τ → ι → Option (τ × β)} {R : σ → τ → Prop} {s : σ} {t t' : τ} {as : List ι} {bs : List β}

def calls (step : σ → ι → Option (σ × β)) : σ → List ι → Option (σ × List β)
  | s, [] => some (s, [])
  | s, a :: as =>
    (step s a).bind fun r => (calls step r.1 as).map fun rest => (rest.1, r.2 :: rest.2)

@[simp] theorem calls_nil (step : σ → ι → Option (σ × β)) (s : σ) :
    calls step s [] = some (s, []) := rfl

theorem calls_cons (step : σ → ι → Option (σ × β)) (s : σ) (a : ι) (as : List ι) :
    calls step s (a :: as) =
      (step s a).bind fun r => (calls step r.1 as).map fun rest => (rest.1, r.2 :: rest.2) := rfl

theorem calls_simulation
    (hstep : ∀ s t a t' b, R s t → spec t a = some (t', b) →
      ∃ s', step s a = some (s', b) ∧ R s' t')
    (h0 : R s t) (h : calls spec t as = some (t', bs)) :
    ∃ s', calls step s as = some (s', bs) ∧ R s' t' := by
  induction as generalizing s t bs with
  | nil =>
    obtain ⟨rfl, rfl⟩ := Prod.mk.inj (Option.some.inj h)
    exact ⟨s, rfl, h0⟩
  | cons a as ih =>
    rw [calls_cons] at h
    obtain ⟨⟨t₁, b⟩, hfirst, hrest⟩ := Option.bind_eq_some_iff.mp h
    obtain ⟨⟨t₂, rest⟩, hcalls, heq⟩ := Option.map_eq_some_iff.mp hrest
    obtain ⟨rfl, rfl⟩ := Prod.mk.inj heq
    obtain ⟨s₁, hs₁, hR⟩ := hstep s t a t₁ b h0 hfirst
    obtain ⟨s', hs', hR'⟩ := ih hR hcalls
    exact ⟨s', by simp [calls_cons, hs₁, hs'], hR'⟩

/-- The runs of a machine that may do one thing or another. -/
inductive Trace (does : τ → ι → β → τ → Prop) : τ → List ι → List β → τ → Prop
  | nil (t : τ) : Trace does t [] [] t
  | cons {t t₁ t' : τ} {a : ι} {b : β} {as : List ι} {bs : List β} :
      does t a b t₁ → Trace does t₁ as bs t' → Trace does t (a :: as) (b :: bs) t'

/-- The calls can be done as long as no trace leaves the states that are
`ok`. -/
theorem calls_trace {does : τ → ι → β → τ → Prop} (ok : τ → Prop)
    (hstep : ∀ s t a, R s t → ok t → ∃ s' b t', step s a = some (s', b) ∧ does t a b t' ∧ R s' t')
    (h0 : R s t)
    (hok : ∀ as₁ bs t', as₁ <+: as → Trace does t as₁ bs t' → ok t') :
    ∃ s' bs t', calls step s as = some (s', bs) ∧ Trace does t as bs t' ∧ R s' t' := by
  induction as generalizing s t with
  | nil => exact ⟨s, [], t, rfl, .nil t, h0⟩
  | cons a as ih =>
    obtain ⟨s₁, b, t₁, hfirst, hdoes, hR⟩ :=
      hstep s t a h0 (hok [] [] t List.nil_prefix (.nil t))
    obtain ⟨s', bs, t', hrest, htrace, hR'⟩ := ih hR fun as₁ bs t' hprefix htrace =>
      hok (a :: as₁) (b :: bs) t' (List.cons_prefix_cons.mpr ⟨rfl, hprefix⟩) (.cons hdoes htrace)
    exact ⟨s', b :: bs, t', by simp [calls_cons, hfirst, hrest], .cons hdoes htrace, hR'⟩

/-- A machine that can do every call can do every run. -/
theorem exists_calls (hstep : ∀ s a, ∃ s' b, step s a = some (s', b)) (s : σ) (as : List ι) :
    ∃ s' bs, calls step s as = some (s', bs) := by
  induction as generalizing s with
  | nil => exact ⟨s, [], rfl⟩
  | cons a as ih =>
    obtain ⟨s₁, b, hfirst⟩ := hstep s a
    obtain ⟨s', bs, hrest⟩ := ih s₁
    exact ⟨s', b :: bs, by simp [calls_cons, hfirst, hrest]⟩

end Training.Lib
