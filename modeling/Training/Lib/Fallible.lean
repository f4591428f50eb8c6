/-
Training.Lib.Fallible — weakest preconditions for programs that can fault.

A C operation with undefined behaviour is a program in `Except ε`: the
error is the fault, and everything after it is unspecified. What such a
program guarantees is then `Returns x Q`: it ends without a fault, in a
value that meets `Q`. The rules compute `Returns` along the program, one
rule for each way to build it, and they are equivalences: the condition
they end in is the exact one under which the program is safe.
-/
import Mathlib.Tactic.Common

namespace Training.Lib

universe u v

variable {ε : Type u} {α β : Type v}

/-- `x` ends without a fault, in a value that meets `Q`. -/
def Returns (x : Except ε α) (Q : α → Prop) : Prop :=
  match x with
  | .ok a => Q a
  | .error _ => False

variable {x : Except ε α} {Q R : α → Prop}

@[simp] theorem returns_ok (a : α) : Returns (.ok a : Except ε α) Q ↔ Q a := Iff.rfl

@[simp] theorem returns_pure (a : α) : Returns (pure a : Except ε α) Q ↔ Q a := Iff.rfl

@[simp] theorem returns_error (e : ε) : Returns (.error e : Except ε α) Q ↔ False := Iff.rfl

@[simp] theorem returns_bind (f : α → Except ε β) (Q : β → Prop) :
    Returns (x >>= f) Q ↔ Returns x fun a => Returns (f a) Q := by
  cases x with
  | ok a => rfl
  | error e => rfl

/-- A check that faults when it fails. -/
theorem returns_check {c : Prop} [Decidable c] (a : α) (e : ε) :
    Returns (if c then .ok a else .error e : Except ε α) Q ↔ c ∧ Q a := by
  by_cases h : c
  · simp [h]
  · simp [h]

theorem returns_iff : Returns x Q ↔ ∃ a, x = .ok a ∧ Q a := by
  cases x with
  | ok a => simp
  | error e => simp

theorem Returns.mono (hQR : ∀ a, Q a → R a) (h : Returns x Q) : Returns x R := by
  cases x with
  | ok a => exact hQR a h
  | error e => exact h

/-- A condition on more than the value can be settled once the program is
known to return. -/
theorem Returns.and_left_iff {p : Prop} (h : Returns x R) :
    Returns x (fun a => p ∧ R a) ↔ p := by
  obtain ⟨a, rfl, ha⟩ := returns_iff.mp h
  simp [ha]

theorem returns_congr (h : ∀ a, Q a ↔ R a) : Returns x Q ↔ Returns x R :=
  ⟨Returns.mono fun a => (h a).mp, Returns.mono fun a => (h a).mpr⟩

end Training.Lib
