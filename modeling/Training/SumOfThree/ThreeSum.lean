/-
Training.SumOfThree.ThreeSum — the triples that add up to 0,
`C/job_interview/12_sum_of_three.c`.

Translation notes.

* An access outside an array and an `int` that overflows give `none`. A
  loop that is still going after `fuel` turns gives `none` too.
* `qsort` sorts. Which elements it compares is not specified, so none of
  their differences may overflow.
* `malloc` returns memory, and `junk` is what its `int`s hold. Its
  argument is a `size_t`, and `(*returnSize) * 3` is an `int`.
* `left` is at least 1, so `right--` does not go below 0. `main`, which
  prints and frees, is left out.
-/
import Mathlib.Algebra.Ring.Int.Defs
import Mathlib.Algebra.Ring.Nat
import Training.Lib.Arrays
import Training.Lib.Loops

namespace Training.SumOfThree

open Training.Lib Training.Lib.Arrays

def intMax : Int := 2 ^ 31 - 1

def intMin : Int := -2 ^ 31

/-- An `int` holds it. -/
def Fits (x : Int) : Prop := intMin ≤ x ∧ x ≤ intMax

instance (x : Int) : Decidable (Fits x) := inferInstanceAs (Decidable (_ ∧ _))

def compare (a b : Int) : Int := a - b

/-- `qsort(nums, numsSize, sizeof(int), compare)` -/
def qsort (nums : List Int) : Option (List Int) :=
  if ∀ a ∈ nums, ∀ b ∈ nums, Fits (compare a b) then
    some (nums.mergeSort fun a b => compare a b ≤ 0)
  else none

def add (a b : Int) : Option Int := if Fits (a + b) then some (a + b) else none

/-- `sizeof(int) * numsSize * numsSize * 3` -/
def mallocSize (numsSize : Nat) : Nat := 4 * numsSize * numsSize * 3 % 2 ^ 64

/-- `*result` and `*returnSize` -/
structure Results where
  result : List Int
  returnSize : Nat

/-- `(*result)[(*returnSize) * 3 + k] = x` -/
def put (k : Nat) (x : Int) (r : Results) : Option Results :=
  if Fits (r.returnSize * 3 + k : Nat) then
    (write r.result (r.returnSize * 3 + k : Nat) x).map fun result => { r with result }
  else none

/-- A triple is stored. -/
def store (a b c : Int) (r : Results) : Option Results := do
  let r ← put 0 a r
  let r ← put 1 b r
  let r ← put 2 c r
  return { r with returnSize := r.returnSize + 1 }

structure Sweep where
  left : Nat
  right : Nat
  results : Results

/-- `(left < right) && (nums[left] == nums[left + 1])` -/
def skipLeftTest (nums : List Int) (right left : Nat) : Option Bool :=
  if left < right then do
    let x ← nums[left]?
    let y ← nums[left + 1]?
    return decide (x = y)
  else some false

/-- `(left < right) && (nums[right] == nums[right - 1])` -/
def skipRightTest (nums : List Int) (left right : Nat) : Option Bool :=
  if left < right then do
    let x ← nums[right]?
    let y ← nums[right - 1]?
    return decide (x = y)
  else some false

def sweepTest (s : Sweep) : Option Bool := some (decide (s.left < s.right))

def sweepTurn (fuel : Nat) (nums : List Int) (i : Nat) (s : Sweep) : Option Sweep := do
  let a ← nums[i]?
  let b ← nums[s.left]?
  let c ← nums[s.right]?
  let ab ← add a b
  let sum ← add ab c
  if sum = 0 then
    let results ← store a b c s.results
    let left ← loop (skipLeftTest nums s.right) (fun left => some (left + 1)) fuel s.left
    let right ← loop (skipRightTest nums left) (fun right => some (right - 1)) fuel s.right
    return { left := left + 1, right := right - 1, results }
  else if sum < 0 then return { s with left := s.left + 1 }
  else return { s with right := s.right - 1 }

/-- `i > 0 && nums[i] == nums[i - 1]` -/
def repeated (nums : List Int) (i : Nat) : Option Bool :=
  if i > 0 then do
    let x ← nums[i]?
    let y ← nums[i - 1]?
    return decide (x = y)
  else some false

/-- The body of the loop over `i`. -/
def sumTurn (fuel : Nat) (nums : List Int) (i : Nat) (r : Results) : Option Results := do
  if ← repeated nums i then return r
  else
    let s ← loop sweepTest (sweepTurn fuel nums i) fuel
      { left := i + 1, right := nums.length - 1, results := r }
    return s.results

def threeSum (fuel : Nat) (junk : Int) (nums : List Int) : Option Results := do
  let sorted ← qsort nums
  let memory := List.replicate (mallocSize nums.length / 4) junk
  forLoop (sumTurn fuel sorted) 0 (nums.length - 2) { result := memory, returnSize := 0 }

/-! ## What it is for -/

structure Triple where
  fst : Int
  snd : Int
  trd : Int
  deriving DecidableEq

/-- The triples that a caller reads. -/
def Results.triples (r : Results) : List Triple :=
  (List.range r.returnSize).map fun k => {
    fst := r.result.getD (k * 3) 0
    snd := r.result.getD (k * 3 + 1) 0
    trd := r.result.getD (k * 3 + 2) 0 }

/-- The values `t`, in order, stand at three places and add up to 0. -/
def IsZero (nums : List Int) (t : Triple) : Prop :=
  t.fst ≤ t.snd ∧ t.snd ≤ t.trd ∧ t.fst + t.snd + t.trd = 0 ∧
    ∃ i j k : Nat, i ≠ j ∧ i ≠ k ∧ j ≠ k ∧
      nums[i]? = some t.fst ∧ nums[j]? = some t.snd ∧ nums[k]? = some t.trd

/-- Each of the triples is returned once, and nothing else; no write is outside
the memory. -/
def Correct (nums : List Int) : Prop :=
  ∃ turns, ∀ fuel junk, turns ≤ fuel → ∃ r, threeSum fuel junk nums = some r ∧ r.triples.Nodup ∧
    ∀ t, t ∈ r.triples ↔ IsZero nums t

/-- What the sums and the differences are promised to be. -/
structure SumsFit (nums : List Int) : Prop where
  sums : ∀ (i j k : Nat) (x y z : Int), i ≠ j → i ≠ k → j ≠ k →
    nums[i]? = some x → nums[j]? = some y → nums[k]? = some z → Fits (x + y + z)
  differences : ∀ x ∈ nums, ∀ y ∈ nums, Fits (x - y)

/-- The sum of two elements does not fall below `INT_MIN`, where there are three. -/
def PairsFit (nums : List Int) : Prop :=
  nums.length < 3 ∨ ∀ (i j : Nat) (x y : Int), i ≠ j → nums[i]? = some x → nums[j]? = some y →
    intMin ≤ x + y

/-- There are so few triples that the index of the last `int` is an `int`, and
inside the memory. -/
def RoomFor (nums : List Int) : Prop :=
  ∀ ts : List Triple, ts.Nodup → (∀ t ∈ ts, IsZero nums t) →
    (ts.length * 3 : Int) ≤ intMax + 1 ∧ ts.length * 3 ≤ mallocSize nums.length / 4

end Training.SumOfThree
