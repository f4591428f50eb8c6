/-
Training.TopK.Frequencies — the most frequent elements of an array,
`C/job_interview/23_top_k_in_list.c`.

Translation notes.

* An access outside an array and an `int` that overflows give `none`, and
  so does a recursion deeper than `fuel`. The frequencies that `camp`
  subtracts lie between 0 and `INT_MAX`, so the difference fits.
* What is printed is the result. The array is not `NULL`; `mem` says
  whether `calloc` returns the memory for the records.
* `heapify` and `heapify_sort` are the code of `22_heap_sort.c` with
  another test.
-/
import Mathlib.Data.List.Dedup
import Training.HeapSort.Heapify

namespace Training.TopK

open Training.Lib Training.Lib.Arrays
open Training.HeapSort (intMax heapifyWith heapifySortWith)

abbrev maxNum : Nat := 100

structure NumFreq where
  val : Int
  freq : Int
  deriving DecidableEq, Inhabited

/-- The frequencies come in descending order, and the numbers of one
frequency in ascending order. -/
def camp (a b : NumFreq) : Int :=
  if a.freq ≠ b.freq then b.freq - a.freq else a.val - b.val

def heapify (fuel : Nat) (arr : List NumFreq) (n i : Nat) : Option (List NumFreq) :=
  heapifyWith (fun a b => camp a b > 0) fuel arr n i

def heapifySort (fuel : Nat) (arr : List NumFreq) (n : Nat) : Option (List NumFreq) :=
  heapifySortWith (fun a b => camp a b > 0) fuel arr n

/-- `freq[arr[i]]++` -/
def countTurn (arr : List Int) (i : Nat) (freq : List Int) : Option (List Int) := do
  let x ← read arr i
  let f ← read freq x
  if f < intMax then write freq x (f + 1) else none

def numTurn (freq : List Int) (i num : Nat) : Option Nat := do
  let f ← read freq i
  return if f > 0 then num + 1 else num

/-- On `idx` and `freq_arr`. -/
def fillTurn (freq : List Int) (i : Nat) (s : Nat × List NumFreq) :
    Option (Nat × List NumFreq) := do
  let f ← read freq i
  if f > 0 then
    let freqArr ← write s.2 s.1 { val := i, freq := f }
    return (s.1 + 1, freqArr)
  else return s

def printTurn (freqArr : List NumFreq) (i : Nat) (out : List NumFreq) : Option (List NumFreq) := do
  let e ← read freqArr i
  return out ++ [e]

def topMNum (mem : Bool) (fuel : Nat) (arr : List Int) (m : Nat) : Option (List NumFreq) :=
  if arr.length = 0 then some []
  else do
    let freq ← forLoop (countTurn arr) 0 arr.length (List.replicate maxNum 0)
    let num ← forLoop (numTurn freq) 0 maxNum 0
    if mem then
      let s ← forLoop (fillTurn freq) 0 maxNum (0, List.replicate num { val := 0, freq := 0 })
      let freqArr ← heapifySort fuel s.2 num
      forLoop (printTurn freqArr) 0 m []
    else return []

/-! ## What it is for -/

/-- `a` comes before `b`. -/
def Ranked (a b : NumFreq) : Prop := b.freq < a.freq ∨ a.freq = b.freq ∧ a.val < b.val

/-- How many numbers there are in `arr`. -/
def distinct (arr : List Int) : Nat := arr.dedup.length

/-- The `m` most frequent numbers of `arr`, in order, and with their
frequencies. -/
structure IsTop (arr : List Int) (m : Nat) (out : List NumFreq) : Prop where
  length_eq : out.length = min m (distinct arr)
  ranked : out.Pairwise Ranked
  count : ∀ e ∈ out, e.val ∈ arr ∧ e.freq = arr.count e.val
  rest : ∀ v ∈ arr, v ∉ out.map NumFreq.val → ∀ e ∈ out, Ranked e { val := v, freq := arr.count v }

end Training.TopK
