/-
Training.QueueStack.Stack — a stack made of two queues,
`C/job_interview/20_queue_implemented_stack.c`.

Translation notes.

* An access outside the array gives `none`, and so does a loop that is
  still going after `fuel` turns.
* The arrays hold anything before they are written.
* What is printed is appended to `out`.
* `main` is left out.
-/
import Training.Lib.Arrays
import Training.Lib.Calls
import Training.Lib.Loops

namespace Training.QueueStack

open Training.Lib Training.Lib.Arrays

def maxSize : Nat := 100

/-- An array of `maxSize` elements. -/
structure Queue where
  data : List Int
  length_data : data.length = maxSize
  front : Int
  rear : Int

def initQueue (q : Queue) : Queue := { q with front := -1, rear := -1 }

def isEmpty (q : Queue) : Bool := decide (q.front = -1)

/-- `q->data[j] = value` -/
def Queue.write (q : Queue) (j value : Int) : Option Queue :=
  if 0 ≤ j ∧ j < maxSize then
    some { q with
      data := q.data.set j.toNat value
      length_data := by rw [List.length_set, q.length_data] }
  else none

def enqueue (q : Queue) (value : Int) (out : String) : Option (Queue × String) :=
  if q.rear = maxSize - 1 then some (q, out ++ "Queue is full\n")
  else do
    let moved :=
      if isEmpty q then { q with front := 0, rear := 0 } else { q with rear := q.rear + 1 }
    let written ← moved.write moved.rear value
    return (written, out)

def dequeue (q : Queue) (out : String) : Option (Int × Queue × String) :=
  if isEmpty q then some (-1, q, out ++ "Queue is empty\n")
  else do
    let value ← read q.data q.front
    let moved :=
      if q.front = q.rear then { q with front := -1, rear := -1 }
      else { q with front := q.front + 1 }
    return (value, moved, out)

/-- The stack, and what has been printed. -/
structure Stack where
  q1 : Queue
  q2 : Queue
  out : String

def push (s : Stack) (value : Int) : Option Stack :=
  (enqueue s.q1 value s.out).map fun r => { s with q1 := r.1, out := r.2 }

/-- `enqueue(&s->q2, dequeue(&s->q1))` -/
def moveOne (s : Stack) : Option Stack := do
  let (value, q1, out) ← dequeue s.q1 s.out
  let (q2, out) ← enqueue s.q2 value out
  return { q1, q2, out }

def pop (fuel : Nat) (s : Stack) : Option (Int × Stack) :=
  if isEmpty s.q1 then some (-1, { s with out := s.out ++ "Stack is empty\n" })
  else do
    let s ← loop (fun s => some (decide (s.q1.front ≠ s.q1.rear))) moveOne fuel s
    let (value, q1, out) ← dequeue s.q1 s.out
    return (value, { q1 := s.q2, q2 := q1, out })

inductive Op
  | push (value : Int)
  | pop

/-- The answer of a `push` is nothing. -/
def step (fuel : Nat) (s : Stack) : Op → Option (Stack × Option Int)
  | .push value => (push s value).map fun s => (s, none)
  | .pop => (pop fuel s).map fun r => (r.2, some r.1)

def start (q1 q2 : Queue) : Stack := { q1 := initQueue q1, q2 := initQueue q2, out := "" }

/-! ## What it is for -/

/-- What a queue holds, from `front` to `rear`. -/
def stored (q : Queue) : List Int :=
  if isEmpty q then [] else (q.data.drop q.front.toNat).take (q.rear - q.front + 1).toNat

/-- A stack of at most `maxSize` values, the first of them the top. -/
structure Lifo where
  values : List Int
  out : String

def Lifo.step (t : Lifo) : Op → Option (Lifo × Option Int)
  | .push value =>
    if t.values.length = maxSize then some ({ t with out := t.out ++ "Queue is full\n" }, none)
    else some ({ t with values := value :: t.values }, none)
  | .pop =>
    match t.values with
    | [] => some ({ t with out := t.out ++ "Stack is empty\n" }, some (-1))
    | x :: xs => some ({ t with values := xs }, some x)

end Training.QueueStack
