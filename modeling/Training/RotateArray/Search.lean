/-
Training.RotateArray.Search — search in a rotated array,
`C/job_interview/10_rotate_array_find_target.c`, and its smallest and
greatest element, `C/job_interview/09_rotate_array_find_minmax.c`.

Translation notes.

* An access outside the array gives `none`, and so does a loop that is
  still going after `fuel` turns.
* The elements are compared, so they are integers without bounds. The
  indices stay between -1 and the length, so no sum of them overflows; and
  the length that is halved is not negative.
* A turn of `search2` gives the borders after it (`halve`).
* `main` is left out in both.
-/
import Mathlib.Data.List.Rotate
import Training.Lib.Arrays
import Training.Lib.Loops

namespace Training.RotateArray

open Training.Lib Training.Lib.Arrays

/-- `nums[mid] < target && target <= nums[right]` -/
def rightHolds (nums : List Int) (x target right : Int) : Option Bool :=
  if x < target then (read nums right).map fun y => decide (target ≤ y) else some false

/-- The loop, from `left` and `right`. -/
def searchLoop (nums : List Int) (target : Int) : Nat → Int → Int → Option Int
  | 0, _, _ => none
  | fuel + 1, left, right =>
    if left ≤ right then do
      let mid := left + (right - left) / 2
      let x ← read nums mid
      if x = target then return mid
      else
        let y ← read nums left
        if y ≤ x then
          if y ≤ target ∧ target < x then searchLoop nums target fuel left (mid - 1)
          else searchLoop nums target fuel (mid + 1) right
        else if ← rightHolds nums x target right then searchLoop nums target fuel (mid + 1) right
        else searchLoop nums target fuel left (mid - 1)
    else some (-1)

def search1 (fuel : Nat) (nums : List Int) (target : Int) : Option Int :=
  searchLoop nums target fuel 0 (nums.length - 1)

/-- The borders after a turn, where `x` and `y` are the elements at `left`
and at `mid`. -/
def halve (x y target left mid right : Int) : Int × Int :=
  if x < y ∧ (x ≤ target ∧ target ≤ y) then (left, mid)
  else if y < x ∧ (x ≤ target ∨ target ≤ y) then (left, mid)
  else (mid + 1, right)

/-- The loop of `search2`. -/
def search2Loop (arr : List Int) (target : Int) : Nat → Int → Int → Option Int
  | 0, _, _ => none
  | fuel + 1, left, right =>
    if left < right then do
      let mid := left + (right - left) / 2
      let x ← read arr left
      let y ← read arr mid
      let borders := halve x y target left mid right
      let z ← read arr borders.1
      if z = target then return borders.1
      else search2Loop arr target fuel borders.1 borders.2
    else some (-1)

def search2 (fuel : Nat) (arr : List Int) (target : Int) : Option Int :=
  if arr.length = 0 then some (-1) else search2Loop arr target fuel 0 (arr.length - 1)

/-! ## What it is for -/

/-- The index of the target, or -1. -/
def IsIndex (nums : List Int) (target i : Int) : Prop :=
  (∃ j : Nat, i = j ∧ nums[j]? = some target) ∨ i = -1 ∧ target ∉ nums

/-- Both searches end, with one result. -/
def SearchesAgree (nums : List Int) (target : Int) : Prop :=
  ∃ turns, ∀ fuel, turns ≤ fuel →
    ∃ i, search2 fuel nums target = some i ∧ search1 fuel nums target = some i

/-! ## The smallest and the greatest element -/

structure Borders where
  left : Int
  right : Int

/-- `left < right` -/
def Borders.apart (s : Borders) : Bool := decide (s.left < s.right)

def Borders.mid (s : Borders) : Int := s.left + (s.right - s.left) / 2

def minTurn (arr : List Int) (s : Borders) : Option Borders := do
  let x ← read arr s.mid
  let y ← read arr s.right
  return if x > y then { s with left := s.mid + 1 } else { s with right := s.mid }

def findMin (fuel : Nat) (arr : List Int) : Option Int :=
  if arr.length = 0 then some (-1)
  else do
    let s ← loop (fun s => some s.apart) (minTurn arr) fuel { left := 0, right := arr.length - 1 }
    read arr s.left

/-- The borders, and whether the loop has met its `break`. -/
structure Halving extends Borders where
  stopped : Bool

/-- The left border is kept when the right half is. -/
def maxTurn (arr : List Int) (s : Halving) : Option Halving := do
  let x ← read arr s.mid
  let y ← read arr s.right
  let b : Borders := if x > y then { s.toBorders with left := s.mid }
    else { s.toBorders with right := s.mid }
  return { toBorders := b, stopped := decide (b.right = b.left + 1) }

def findMax (fuel : Nat) (arr : List Int) : Option Int :=
  if arr.length = 0 then some (-1)
  else do
    let first ← read arr 0
    let last ← read arr (arr.length - 1)
    if first < last then return last
    else
      let s ← loop (fun s : Halving => some (!s.stopped && s.apart)) (maxTurn arr) fuel
        { left := 0, right := arr.length - 1, stopped := false }
      read arr s.left

end Training.RotateArray
