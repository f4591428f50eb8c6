/-
Training.Lib.Align — the next multiple.

`alignUp k x` is the least multiple of `k` from `x` on, which C programs
compute as `(x + (k - 1)) & ~(k - 1)` for a power of two.
-/
import Mathlib.Tactic.Common

namespace Training.Lib

variable {k x : Nat}

def alignUp (k x : Nat) : Nat := (x + (k - 1)) / k * k

theorem dvd_alignUp (k x : Nat) : k ∣ alignUp k x := Nat.dvd_mul_left _ _

theorem le_alignUp (hk : 0 < k) (x : Nat) : x ≤ alignUp k x := by
  have hdiv := Nat.div_add_mod (x + (k - 1)) k
  have hmod := Nat.mod_lt (x + (k - 1)) hk
  unfold alignUp
  rw [Nat.mul_comm]
  omega

theorem alignUp_of_dvd (hk : 0 < k) (h : k ∣ x) : alignUp k x = x := by
  obtain ⟨q, rfl⟩ := h
  unfold alignUp
  rw [Nat.mul_add_div hk, Nat.div_eq_of_lt (Nat.sub_lt hk Nat.one_pos), Nat.add_zero, Nat.mul_comm]

end Training.Lib
