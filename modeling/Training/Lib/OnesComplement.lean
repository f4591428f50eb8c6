/-
Training.Lib.OnesComplement — sums with an end-around carry.

In one's complement the base `n + 1` counts as 1, so that a sum of digits is
known modulo `n`. `fold n x` adds what is above a digit to the digit;
`reduce n x` is the digit that two such steps leave of a double digit. It is
`x` modulo `n`, and of the two digits that are 0 modulo `n` it is `n` but for
`x = 0` (`reduce_of_dvd`). So the complement of the digit of a sum completes
it to `n` (`reduce_add_complement`).
-/
import Mathlib.Algebra.Ring.Nat

namespace Training.Lib.OnesComplement

variable {n x : Nat}

def fold (n x : Nat) : Nat := x / (n + 1) + x % (n + 1)

def reduce (n x : Nat) : Nat := (fold n x + fold n x / (n + 1)) % (n + 1)

theorem fold_add_mul (n x : Nat) : fold n x + n * (x / (n + 1)) = x := by
  have hdiv := Nat.div_add_mod x (n + 1)
  rw [Nat.add_mul, Nat.one_mul] at hdiv
  unfold fold
  omega

theorem fold_mod (n x : Nat) : fold n x % n = x % n := by
  have hmod := congrArg (· % n) (fold_add_mul n x)
  simpa only [Nat.add_mul_mod_self_left] using hmod

theorem fold_le (hx : x < (n + 1) * (n + 1)) : fold n x ≤ 2 * n := by
  have hhigh : x / (n + 1) < n + 1 := Nat.div_lt_of_lt_mul hx
  have hlow : x % (n + 1) < n + 1 := Nat.mod_lt _ (Nat.succ_pos n)
  unfold fold
  omega

theorem fold_pos (hx : 0 < x) : 0 < fold n x := by
  refine Nat.pos_of_ne_zero fun hzero => ?_
  obtain ⟨hhigh, hlow⟩ := Nat.add_eq_zero_iff.mp hzero
  have hdiv := Nat.div_add_mod x (n + 1)
  rw [hhigh, hlow] at hdiv
  omega

/-- The carry of the second step is at most 1. -/
theorem reduce_eq (hx : x < (n + 1) * (n + 1)) :
    reduce n x = if fold n x ≤ n then fold n x else fold n x - n := by
  have hle := fold_le hx
  unfold reduce
  split
  · rw [Nat.div_eq_of_lt (by omega), Nat.add_zero, Nat.mod_eq_of_lt (by omega)]
  · have hcarry : fold n x / (n + 1) = 1 := by
      refine Nat.div_eq_of_lt_le ?_ ?_ <;> omega
    rw [hcarry, Nat.mod_eq_sub_mod (by omega), Nat.mod_eq_of_lt (by omega)]
    omega

theorem reduce_le (n x : Nat) : reduce n x ≤ n := Nat.le_of_lt_succ (Nat.mod_lt _ (Nat.succ_pos n))

theorem reduce_mod (hx : x < (n + 1) * (n + 1)) : reduce n x % n = x % n := by
  rw [reduce_eq hx]
  split
  · exact fold_mod n x
  · rw [← fold_mod n x, Nat.mod_eq_sub_mod (a := fold n x) (by omega)]

theorem reduce_pos (hx : x < (n + 1) * (n + 1)) (hpos : 0 < x) : 0 < reduce n x := by
  have hfold : 0 < fold n x := fold_pos hpos
  rw [reduce_eq hx]
  split <;> omega

theorem reduce_of_dvd (hx : x < (n + 1) * (n + 1)) (hpos : 0 < x) (hdvd : n ∣ x) :
    reduce n x = n := by
  have hmod := reduce_mod hx
  rw [Nat.mod_eq_zero_of_dvd hdvd] at hmod
  exact Nat.le_antisymm (reduce_le n x)
    (Nat.le_of_dvd (reduce_pos hx hpos) (Nat.dvd_of_mod_eq_zero hmod))

theorem reduce_add_complement (hn : 0 < n) (hx : x + n < (n + 1) * (n + 1)) :
    reduce n (x + (n - reduce n x)) = n := by
  have hle := reduce_le n x
  have hmod : reduce n x % n = x % n := reduce_mod (by omega)
  refine reduce_of_dvd (by omega) ?_ ?_
  · rcases Nat.eq_zero_or_pos x with rfl | hpos
    · have hzero : reduce n 0 = 0 := by simp [reduce, fold]
      omega
    · omega
  · have hsum : x + (n - reduce n x) + reduce n x = x + n := by omega
    have hdvd : n ∣ x + n - reduce n x :=
      Nat.dvd_of_mod_eq_zero (Nat.sub_mod_eq_zero_of_mod_eq (by rw [hmod, Nat.add_mod_right]))
    rwa [← hsum, Nat.add_sub_cancel] at hdvd

end Training.Lib.OnesComplement
