/-
Training.MaxSubArray.SubArray — the greatest sum of a subarray,
`C/job_interview/18_max_sub_array.c`.

Translation notes.

* An access outside the array and an `int` that overflows give `none`.
* The array of `maxSubArray_dp2` is not `NULL`.
* `main`, which prints, is left out.
-/
import Training.Lib.Arrays
import Training.Lib.Loops
import Training.Lib.Segments

namespace Training.MaxSubArray

open Training.Lib Training.Lib.Arrays Training.Lib.Segments

def intMax : Int := 2 ^ 31 - 1

def intMin : Int := -2 ^ 31

/-- An `int` holds it. -/
def Fits (x : Int) : Prop := intMin ≤ x ∧ x ≤ intMax

instance (x : Int) : Decidable (Fits x) := inferInstanceAs (Decidable (_ ∧ _))

def add (a b : Int) : Option Int := if Fits (a + b) then some (a + b) else none

structure Sums where
  maxSum : Int
  currentSum : Int

def dpTurn (nums : List Int) (i : Nat) (s : Sums) : Option Sums := do
  let x ← read nums i
  let currentSum ← if s.currentSum > 0 then add s.currentSum x else some x
  return { maxSum := if currentSum > s.maxSum then currentSum else s.maxSum, currentSum }

def maxSubArrayDp (nums : List Int) : Option Int := do
  let x ← read nums 0
  let s ← forLoop (dpTurn nums) 1 (nums.length - 1) { maxSum := x, currentSum := x }
  return s.maxSum

def max (a b : Int) : Int := if a ≥ b then a else b

/-- On `mymax` and `dp`. -/
def dp2Turn (arr : List Int) (i : Nat) (s : Sums) : Option Sums := do
  let x ← read arr i
  let sum ← add s.currentSum x
  let dp := max x sum
  return { maxSum := if dp > s.maxSum then dp else s.maxSum, currentSum := dp }

def maxSubArrayDp2 (arr : List Int) : Option Int :=
  if arr.length = 0 then some 0
  else do
    let x ← read arr 0
    let s ← forLoop (dp2Turn arr) 1 (arr.length - 1) { maxSum := x, currentSum := x }
    return s.maxSum

def txTurn (nums : List Int) (i : Nat) (s : Sums) : Option Sums := do
  let x ← read nums i
  let currentSum ← add s.currentSum x
  return {
    maxSum := if currentSum > s.maxSum then currentSum else s.maxSum
    currentSum := if currentSum < 0 then 0 else currentSum }

def maxSubArrayTx (nums : List Int) : Option Int := do
  let x ← read nums 0
  let s ← forLoop (txTurn nums) 0 nums.length { maxSum := x, currentSum := x }
  return s.maxSum

/-! ## What they are for -/

/-- The sum of every subarray fits. -/
def SumsFit (nums : List Int) : Prop :=
  ∀ l r : Nat, l < r → r ≤ nums.length → Fits (segSum nums l r)

instance (nums : List Int) : Decidable (SumsFit nums) :=
  decidable_of_iff (∀ r, r < nums.length + 1 → ∀ l, l < r → Fits (segSum nums l r))
    ⟨fun h l r hl hr => h r (Nat.lt_succ_of_le hr) l hl,
      fun h r hr l hl => h l r hl (Nat.le_of_lt_succ hr)⟩

/-- The greatest of the sums of the subarrays that are not empty. -/
def IsMaxSum (nums : List Int) (m : Int) : Prop := Best nums nums.length m

/-- The first element does no harm when it is counted twice: it is not
positive, and its double fits; or some subarray without it has a sum that is
not exceeded then. -/
def FirstHarmless (nums : List Int) : Prop :=
  -2 ^ 30 ≤ nums.headD 0 ∧ nums.headD 0 ≤ 0 ∨
    0 < nums.headD 0 ∧ ∃ l r, 0 < l ∧ l < r ∧ r ≤ nums.length ∧
      ∀ k : Nat, 0 < k → k ≤ nums.length → nums.headD 0 + segSum nums 0 k ≤ segSum nums l r

end Training.MaxSubArray
