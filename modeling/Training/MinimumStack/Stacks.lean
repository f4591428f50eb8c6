/-
Training.MinimumStack.Stacks — what a minimum stack is for, and two of them:
`Fixed` has a minimum for each element,
`C/job_interview/27_minimum_stack2.c`, and `Growing` has a stack of the
minima, `C/job_interview/21_minimum_stack.c`.

Translation notes.

* The first element of the list in `step` is the top of the stack.
* Memory that has been allocated and not written holds `none`. To read it
  gives `none`, and so do an access outside the array, a `capacity` that
  overflows and `exit`.
* `malloc` and `realloc` find memory.
* `stackFree`, `minStackFree` and `main` are left out.
-/
import Training.Lib.Arrays
import Training.Lib.Calls

namespace Training.MinimumStack

/-- `MAX_SIZE` of `C/job_interview/27_minimum_stack2.c`. -/
def maxSize : Nat := 30000

inductive Op
  | push (val : Int)
  | pop
  | top
  | getMin

/-- The top and the least element are asked for when there is one, and the
stack does not get deeper than `maxSize`. A `pop` of nothing is allowed. -/
def step (xs : List Int) : Op → Option (List Int × Option Int)
  | .push val => if xs.length < maxSize then some (val :: xs, none) else none
  | .pop => some (xs.tail, none)
  | .top => xs.head?.map fun x => (xs, some x)
  | .getMin => xs.min?.map fun m => (xs, some m)

end Training.MinimumStack

namespace Training.MinimumStack.Fixed

open Training.Lib.Arrays

/-- The macro `MIN`. -/
def min (a b : Int) : Int := if a < b then a else b

structure MinStack where
  data : List (Option Int)
  minData : List (Option Int)
  top : Int

def minStackCreate : MinStack where
  data := List.replicate maxSize none
  minData := List.replicate maxSize none
  top := 0

def minStackPush (obj : MinStack) (val : Int) : Option MinStack := do
  let data ← write obj.data obj.top (some val)
  let m ← (if obj.top = 0 then some val
    else (read obj.minData (obj.top - 1)).join.map fun m => min m val)
  let minData ← write obj.minData obj.top (some m)
  return { data, minData, top := obj.top + 1 }

def minStackPop (obj : MinStack) : MinStack :=
  if obj.top > 0 then { obj with top := obj.top - 1 } else obj

def minStackTop (obj : MinStack) : Option Int := (read obj.data (obj.top - 1)).join

def minStackGetMin (obj : MinStack) : Option Int := (read obj.minData (obj.top - 1)).join

def step (obj : MinStack) : Op → Option (MinStack × Option Int)
  | .push val => (minStackPush obj val).map fun obj => (obj, none)
  | .pop => some (minStackPop obj, none)
  | .top => (minStackTop obj).map fun x => (obj, some x)
  | .getMin => (minStackGetMin obj).map fun m => (obj, some m)

end Training.MinimumStack.Fixed

namespace Training.MinimumStack.Growing

open Training.Lib.Arrays

def initCapacity : Nat := 4

def growthFactor : Int := 2

def intMax : Int := 2147483647

structure Stack where
  data : List (Option Int)
  top : Int
  capacity : Int

def stackInit : Stack where
  data := List.replicate initCapacity none
  top := -1
  capacity := initCapacity

def stackEmpty (s : Stack) : Bool := decide (s.top = -1)

def stackResize (s : Stack) : Option Stack :=
  let capacity := s.capacity * growthFactor
  if capacity ≤ intMax then
    some {
      data := s.data ++ List.replicate (capacity - s.capacity).toNat none
      top := s.top
      capacity }
  else none

def stackPush (s : Stack) (val : Int) : Option Stack := do
  let s ← (if s.top = s.capacity - 1 then stackResize s else some s)
  let data ← write s.data (s.top + 1) (some val)
  return { s with data, top := s.top + 1 }

def stackPop (s : Stack) : Option (Int × Stack) :=
  if stackEmpty s then none
  else do
    let val ← (read s.data s.top).join
    return (val, { s with top := s.top - 1 })

def stackPeek (s : Stack) : Option Int :=
  if stackEmpty s then none else (read s.data s.top).join

structure MinStack where
  dataStack : Stack
  minStack : Stack

def minStackCreate : MinStack where
  dataStack := stackInit
  minStack := stackInit

def minStackPush (obj : MinStack) (val : Int) : Option MinStack := do
  let dataStack ← stackPush obj.dataStack val
  let lower ← (if stackEmpty obj.minStack then some true
    else (stackPeek obj.minStack).map fun m => decide (val ≤ m))
  if lower then
    let minStack ← stackPush obj.minStack val
    return { dataStack, minStack }
  else return { obj with dataStack }

def minStackPop (obj : MinStack) : Option MinStack :=
  if stackEmpty obj.dataStack then some obj
  else do
    let (val, dataStack) ← stackPop obj.dataStack
    let m ← stackPeek obj.minStack
    if val = m then
      let (_, minStack) ← stackPop obj.minStack
      return { dataStack, minStack }
    else return { obj with dataStack }

def minStackTop (obj : MinStack) : Option Int := stackPeek obj.dataStack

def minStackGetMin (obj : MinStack) : Option Int := stackPeek obj.minStack

def step (obj : MinStack) : Op → Option (MinStack × Option Int)
  | .push val => (minStackPush obj val).map fun obj => (obj, none)
  | .pop => (minStackPop obj).map fun obj => (obj, none)
  | .top => (minStackTop obj).map fun x => (obj, some x)
  | .getMin => (minStackGetMin obj).map fun m => (obj, some m)

end Training.MinimumStack.Growing
