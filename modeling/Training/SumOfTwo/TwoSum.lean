/-
Training.SumOfTwo.TwoSum — two elements with a given sum,
`C/job_interview/11_sum_of_two.c`.

Translation notes.

* An access outside an array, an `int` that overflows and `abs(INT_MIN)`
  give `none`.
* A chain of the table is the list of its nodes. `malloc` returns memory.
* `result` is a pair, and the index behind the elements is the end of the
  loop. `main`, which prints and frees the chains, is left out.
-/
import Mathlib.Algebra.Ring.Int.Defs
import Mathlib.Algebra.Ring.Nat
import Mathlib.Logic.Function.Basic
import Training.Lib.Arrays

namespace Training.SumOfTwo

open Training.Lib Training.Lib.Arrays

abbrev hashSize : Nat := 10000

def intMax : Int := 2 ^ 31 - 1

def intMin : Int := -2 ^ 31

/-- An `int` holds it. -/
def Fits (x : Int) : Prop := intMin ≤ x ∧ x ≤ intMax

instance (x : Int) : Decidable (Fits x) := inferInstanceAs (Decidable (_ ∧ _))

structure HashNode where
  key : Int
  value : Int

/-- `hashTable` -/
abbrev Table : Type := Fin hashSize → List HashNode

def Table.empty : Table := fun _ => []

def abs (x : Int) : Option Int := if x = intMin then none else some (if x < 0 then -x else x)

def hash (key : Int) : Option Int := (abs key).map fun x => x % hashSize

/-- The place in `hashTable`. -/
def slot (index : Int) : Option (Fin hashSize) :=
  if h : index.toNat < hashSize ∧ 0 ≤ index then some ⟨index.toNat, h.1⟩ else none

def insert (table : Table) (key value : Int) : Option Table := do
  let index ← hash key
  let i ← slot index
  return Function.update table i ({ key, value } :: table i)

def search (table : Table) (key : Int) : Option Int := do
  let index ← hash key
  let i ← slot index
  return ((table i).find? fun node => node.key = key).elim (-1) HashNode.value

/-- `target - x` -/
def sub (target x : Int) : Option Int := if Fits (target - x) then some (target - x) else none

/-- The loop from `i` on. -/
def twoSumLoop (nums : List Int) (target : Int) (result : Int × Int) :
    Nat → Nat → Table → Option (Int × Int)
  | 0, _, _ => some result
  | turns + 1, i, table => do
    let x ← read nums i
    let complement ← sub target x
    let complementIndex ← search table complement
    if complementIndex ≠ -1 ∧ complementIndex ≠ i then return (complementIndex, (i : Int))
    else
      let table ← insert table x i
      twoSumLoop nums target result turns (i + 1) table

def twoSum (nums : List Int) (target : Int) (result : Int × Int) : Option (Int × Int) :=
  twoSumLoop nums target result nums.length 0 Table.empty

/-! ## What it is for -/

/-- No two of the first `k` elements add up to `target`. -/
def NoPair (nums : List Int) (target : Int) (k : Nat) : Prop :=
  ∀ (i j : Nat) (x y : Int), i < j → j < k → nums[i]? = some x → nums[j]? = some y → x + y ≠ target

/-- Two different indices, or the result that was there if there are none. -/
def IsAnswer (nums : List Int) (target : Int) (result out : Int × Int) : Prop :=
  (∃ (i j : Nat) (x y : Int), i ≠ j ∧ out = ((i : Int), (j : Int)) ∧ nums[i]? = some x ∧
    nums[j]? = some y ∧ x + y = target) ∨ NoPair nums target nums.length ∧ out = result

/-- The function stores an answer, and no place outside the table is
touched. -/
def Correct (nums : List Int) (target : Int) (result : Int × Int) : Prop :=
  ∃ out, twoSum nums target result = some out ∧ IsAnswer nums target result out

/-- `INT_MIN` is neither looked up nor inserted before two elements are found. -/
def HashesDefined (nums : List Int) (target : Int) : Prop :=
  ∀ (i : Nat) (x : Int), nums[i]? = some x → NoPair nums target i →
    target - x ≠ intMin ∧ (NoPair nums target (i + 1) → x ≠ intMin)

end Training.SumOfTwo
