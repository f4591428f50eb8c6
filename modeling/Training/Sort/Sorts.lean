/-
Training.Sort.Sorts — three sorts of an array of `long`,
`C/00_data_structure_and_algorithms/01_sort`.

Translation notes.

* An access outside the array, and a `while` loop that is still going
  after `fuel` turns, give `none`.
* The elements are compared and moved, so they are integers without
  bounds. The indices stay between `-total` and `total`.
* The body of the loop over `i` is the same code in `insert_sort` and in
  `shell_sort`, with 1 in the place of `step` (`insertGapped`).
* The name that is written to the caller is left out.
-/
import Training.Lib.Arrays
import Training.Lib.Loops

namespace Training.Sort

open Training.Lib Training.Lib.Arrays

/-- `j >= 0 && tmp < data[j]`, on `j` and the array. -/
def shiftTest (tmp : Int) (s : Int × List Int) : Option Bool :=
  if 0 ≤ s.1 then (read s.2 s.1).map fun x => decide (tmp < x) else some false

/-- `data[j + step] = data[j]` and `j = j - step` -/
def shiftTurn (step : Nat) (s : Int × List Int) : Option (Int × List Int) := do
  let x ← read s.2 s.1
  let data ← write s.2 (s.1 + step) x
  return (s.1 - step, data)

/-- `data[i]` is put in its place among the elements `step` apart in front
of it. -/
def insertGapped (step fuel i : Nat) (data : List Int) : Option (List Int) := do
  let tmp ← read data i
  let s ← loop (shiftTest tmp) (shiftTurn step) fuel (i - step, data)
  write s.2 (s.1 + step) tmp

def insertSort (fuel : Nat) (data : List Int) (total : Nat) : Option (List Int) :=
  forLoop (insertGapped 1 fuel) 1 (total - 1) data

/-- The body of the loop over `step`, on `step` and the array. -/
def shellTurn (fuel total : Nat) (s : Nat × List Int) : Option (Nat × List Int) := do
  let data ← forLoop (insertGapped s.1 fuel) s.1 (total - s.1) s.2
  return (s.1 / 2, data)

def shellSort (fuel : Nat) (data : List Int) (total : Nat) : Option (List Int) :=
  (loop (fun s => some (decide (s.1 > 0))) (shellTurn fuel total) fuel (total / 2, data)).map Prod.snd

/-- `if (data[j] > data[j + 1])`, the two change places. -/
def compareSwap (j : Nat) (data : List Int) : Option (List Int) := do
  let x ← read data j
  let y ← read data (j + 1)
  if x > y then
    let data ← write data j y
    write data (j + 1) x
  else return data

/-- The body of the loop over `i`. -/
def bubbleTurn (total i : Nat) (data : List Int) : Option (List Int) :=
  forLoop compareSwap 0 (total - 1 - i) data

def bubbleSort (data : List Int) (total : Nat) : Option (List Int) :=
  forLoop (bubbleTurn total) 0 (total - 1) data

end Training.Sort
