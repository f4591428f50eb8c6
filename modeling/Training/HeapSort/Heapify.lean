/-
Training.HeapSort.Heapify — heap sort,
`C/job_interview/22_heap_sort.c`.

Translation notes.

* An access outside the array, a child whose index does not fit in an
  `int`, and a recursion deeper than `fuel` give `none`.
* The elements are compared and moved, so they are integers without
  bounds.
* The same code sorts records in `23_top_k_in_list.c`, with another test
  and with the arguments of `swap` the other way round. It is written once
  for both: `above` is the test.
* `main`, which prints, is left out.
-/
import Mathlib.Algebra.Ring.Int.Defs
import Mathlib.Algebra.Ring.Nat
import Training.Lib.Arrays
import Training.Lib.Loops

namespace Training.HeapSort

open Training.Lib Training.Lib.Arrays

variable {α : Type}

def intMax : Nat := 2 ^ 31 - 1

def swap (arr : List α) (a b : Nat) : Option (List α) := do
  let temp ← read arr a
  let x ← read arr b
  let arr ← write arr a x
  write arr b temp

/-- `i * 2 + k` -/
def child (i k : Nat) : Option Nat := if i * 2 + k ≤ intMax then some (i * 2 + k) else none

/-- `if (j < n && arr[j] > arr[large]) large = j` -/
def larger (above : α → α → Bool) (arr : List α) (n j large : Nat) : Option Nat :=
  if j < n then do
    let x ← read arr j
    let y ← read arr large
    return if above x y then j else large
  else some large

def heapifyWith (above : α → α → Bool) : Nat → List α → Nat → Nat → Option (List α)
  | 0, _, _, _ => none
  | fuel + 1, arr, n, i => do
    let left ← child i 1
    let right ← child i 2
    let large ← larger above arr n left i
    let large ← larger above arr n right large
    if large ≠ i then
      let arr ← swap arr i large
      heapifyWith above fuel arr n large
    else return arr

/-- The body of the second loop, for `i + 1`. -/
def takeRoot (above : α → α → Bool) (fuel i : Nat) (arr : List α) : Option (List α) := do
  let arr ← swap arr 0 (i + 1)
  heapifyWith above fuel arr (i + 1) 0

def heapifySortWith (above : α → α → Bool) (fuel : Nat) (arr : List α) (n : Nat) :
    Option (List α) := do
  let arr ← downLoop (fun i arr => heapifyWith above fuel arr n i) (n / 2) arr
  downLoop (takeRoot above fuel) (n - 1) arr

def heapify (fuel : Nat) (arr : List Int) (n i : Nat) : Option (List Int) :=
  heapifyWith (fun x y => x > y) fuel arr n i

def heapifySort (fuel : Nat) (arr : List Int) (n : Nat) : Option (List Int) :=
  heapifySortWith (fun x y => x > y) fuel arr n

end Training.HeapSort
