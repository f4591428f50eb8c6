/-
Training.Lib.Fifo — the bounded first-in-first-out queue.

A queue with room for `cap` elements takes as many of the elements
offered as fit and says how many, and hands out as many as are asked for
and present. This is all a client may rely on; a ring, a linked list or
a pair of stacks implements it when its operations give the same answers
(`trace`) on every run.
-/
import Training.Lib.Machine

namespace Training.Lib.Fifo

universe u

variable {α : Type u} (cap : Nat)

inductive Op (α : Type u) where
  | write (xs : List α)
  | read (n : Nat)

/-- What a call answers: the number taken, or the elements handed out. -/
inductive Answer (α : Type u) where
  | count (n : Nat)
  | elems (xs : List α)

def step (q : List α) : Op α → List α
  | .write xs => q ++ xs.take (cap - q.length)
  | .read n => q.drop n

def answer (q : List α) : Op α → Answer α
  | .write xs => .count (min xs.length (cap - q.length))
  | .read n => .elems (q.take n)

@[simp] theorem step_write (q xs : List α) :
    step cap q (.write xs) = q ++ xs.take (cap - q.length) := rfl

variable {cap}

end Training.Lib.Fifo
