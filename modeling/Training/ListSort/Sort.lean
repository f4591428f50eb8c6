/-
Training.ListSort.Sort — merge sort of a linked list,
`C/job_interview/02_single_list_sort.c`.

Translation notes.

* A node is a cell of the heap. A read through the null pointer or at an
  address without a cell gives `none`.
* The values are compared and never computed with, so they are integers
  without bounds.
* A recursion gives `none` where it is deeper than `fuel`, and so does a
  loop that is still going after `fuel` turns.
* `dummy` in `merge_by_loop` is the address of the local variable, and
  `junk` is what it holds before it is written. The variable goes away
  when the function returns.
* `main`, which prints, is left out.
-/
import Training.Lib.Chains
import Training.Lib.Loops

namespace Training.ListSort

open Training.Lib Training.Lib.Chains

/-- `node_t` -/
abbrev Node : Type := Cell Int

abbrev Nodes : Type := Heap Int

abbrev Ptr : Type := Option Nat

def mergeByRecursive : Nat → Nodes → Ptr → Ptr → Option (Ptr × Nodes)
  | 0, _, _, _ => none
  | fuel + 1, heap, head1, head2 =>
    if head1 = none then some (head2, heap)
    else if head2 = none then some (head1, heap)
    else do
      let node1 ← deref heap head1
      let node2 ← deref heap head2
      if node1.val ≤ node2.val then
        let (rest, heap) ← mergeByRecursive fuel heap node1.next head2
        let heap ← setNext heap head1 rest
        return (head1, heap)
      else
        let (rest, heap) ← mergeByRecursive fuel heap head1 node2.next
        let heap ← setNext heap head2 rest
        return (head2, heap)

/-- The local variables of `merge_by_loop`, with the heap. -/
structure Merging where
  l1 : Ptr
  l2 : Ptr
  tail : Ptr
  heap : Nodes

def mergeTest (s : Merging) : Option Bool := some (s.l1.isSome && s.l2.isSome)

def mergeTurn (s : Merging) : Option Merging := do
  let node1 ← deref s.heap s.l1
  let node2 ← deref s.heap s.l2
  if node1.val ≤ node2.val then
    let heap ← setNext s.heap s.tail s.l1
    let node1 ← deref heap s.l1
    let tail ← deref heap s.tail
    return { s with l1 := node1.next, tail := tail.next, heap }
  else
    let heap ← setNext s.heap s.tail s.l2
    let node2 ← deref heap s.l2
    let tail ← deref heap s.tail
    return { s with l2 := node2.next, tail := tail.next, heap }

/-- The rest is linked in behind `tail`. -/
def mergeEnd (dummy : Nat) (s : Merging) : Option (Ptr × Nodes) := do
  let heap ← setNext s.heap s.tail (if s.l1.isSome then s.l1 else s.l2)
  let node ← heap dummy
  return (node.next, Function.update heap dummy none)

def mergeByLoop (fuel : Nat) (dummy : Nat) (junk : Node) (heap : Nodes) (l1 l2 : Ptr) :
    Option (Ptr × Nodes) := do
  let s ← loop mergeTest mergeTurn fuel
    { l1, l2, tail := some dummy, heap := Function.update heap dummy (some junk) }
  mergeEnd dummy s

/-- `slow` and `fast` -/
structure Halving where
  slow : Ptr
  fast : Ptr

def halveTest (heap : Nodes) (s : Halving) : Option Bool :=
  if s.fast = none then some false
  else do
    let node ← deref heap s.fast
    return node.next.isSome

def halveTurn (heap : Nodes) (s : Halving) : Option Halving := do
  let slow ← deref heap s.slow
  let fast ← deref heap s.fast
  let fast ← deref heap fast.next
  return { slow := slow.next, fast := fast.next }

def mergeSort : Nat → Nodes → Ptr → Option (Ptr × Nodes)
  | 0, _, _ => none
  | fuel + 1, heap, head =>
    if head = none then some (head, heap)
    else do
      let first ← deref heap head
      if first.next = none then return (head, heap)
      let s ← loop (halveTest heap) (halveTurn heap) fuel { slow := head, fast := first.next }
      let last ← deref heap s.slow
      let mid := last.next
      let heap ← setNext heap s.slow none
      let (left, heap) ← mergeSort fuel heap head
      let (right, heap) ← mergeSort fuel heap mid
      mergeByRecursive fuel heap left right

/-! ## What they are for -/

/-- The value at an address. -/
def valueAt (heap : Nodes) (a : Nat) : Int := (heap a).elim 0 Cell.val

/-- Nodes of one list come in the order of their values, and in the order
of the list where the values are the same. -/
def StablySorted (heap : Nodes) (xs ys : List Nat) : Prop :=
  ys.Perm xs ∧ ys.Pairwise (fun a b => valueAt heap a ≤ valueAt heap b) ∧
    ∀ v : Int, ys.filter (fun a => valueAt heap a = v) = xs.filter fun a => valueAt heap a = v

end Training.ListSort
