/-
Training.TreeLevels.Traversal — the level order of a binary tree,
`C/job_interview/04_traverse_binary_tree_hierarchy.c`.

Translation notes.

* `NULL` is the empty tree, or the address 0 of a queue node.
* `malloc` always finds memory, at an address it has not given before, and
  what is freed is not read again: an access to a node that is not there
  gives `none`, and so does a loop that is still going after `fuel` turns.
* Sizes and levels are integers without bounds. A level is no more than
  the calls of `getHeight` that are on the stack together, which has no
  room for 2^31 of them. A size counts nodes that are in the queue
  together: 2^31 of them, with the nodes of the tree, take 128 GiB, and
  such trees are left out.
* What is printed is appended to `out`.
* `createNode` and `main` are left out.
-/
import Mathlib.Logic.Function.Basic
import Training.Lib.Loops
import Training.Lib.Trees

namespace Training.TreeLevels

open Training.Lib Training.Lib.Trees

structure QueueNode where
  treeNode : BinaryTree Int
  next : Nat

/-- The queue and the memory its nodes are in: `fresh` is the address that
`malloc` gives next. -/
structure Queue where
  nodes : Nat → Option QueueNode
  fresh : Nat
  front : Nat
  rear : Nat

def createQueue : Queue where
  nodes _ := none
  fresh := 1
  front := 0
  rear := 0

def enqueue (q : Queue) (treeNode : BinaryTree Int) : Option Queue :=
  let newNode := q.fresh
  let nodes := Function.update q.nodes newNode (some { treeNode, next := 0 })
  if q.rear = 0 then some { nodes, fresh := newNode + 1, front := newNode, rear := newNode }
  else do
    let last ← nodes q.rear
    return {
      nodes := Function.update nodes q.rear (some { last with next := newNode })
      fresh := newNode + 1
      front := q.front
      rear := newNode }

def dequeue (q : Queue) : Option (BinaryTree Int × Queue) :=
  if q.front = 0 then some (.nil, q)
  else do
    let temp ← q.nodes q.front
    return (temp.treeNode, {
      nodes := Function.update q.nodes q.front none
      fresh := q.fresh
      front := temp.next
      rear := if temp.next = 0 then 0 else q.rear })

def isQueueEmpty (q : Queue) : Bool := decide (q.front = 0)

/-- The loop over the nodes from `temp` on. -/
def countNodes (q : Queue) : Nat → Nat → Option Nat
  | 0, _ => none
  | fuel + 1, temp =>
    if temp = 0 then some 0
    else do
      let node ← q.nodes temp
      let rest ← countNodes q fuel node.next
      return rest + 1

/-- The queue, and what has been printed. -/
structure Walk where
  queue : Queue
  out : String

/-- `printf("%d ", val)` -/
def put (out : String) (val : Int) : String := out ++ (toString val ++ " ")

def enqueueChild (q : Queue) (child : BinaryTree Int) : Option Queue :=
  if child ≠ .nil then enqueue q child else some q

/-- A turn of the loop over a level. -/
def visit (s : Walk) : Option Walk := do
  let (current, q) ← dequeue s.queue
  match current with
  | .nil => none
  | .node val left right =>
    let q ← enqueueChild q left
    let q ← enqueueChild q right
    return { queue := q, out := put s.out val }

/-- A turn of the outer loop. -/
def visitLevel (fuel : Nat) (s : Walk) : Option Walk := do
  let levelSize ← countNodes s.queue fuel s.queue.front
  let s ← forLoop (fun _ => visit) 0 levelSize s
  return { s with out := s.out ++ "\n" }

def levelOrderTraversal (fuel : Nat) (root : BinaryTree Int) : Option String :=
  if root = .nil then some ""
  else do
    let q ← enqueue createQueue root
    let s ← loop (fun s : Walk => some (!isQueueEmpty s.queue)) (visitLevel fuel) fuel
      { queue := q, out := "" }
    return s.out

def getHeight : BinaryTree Int → Int
  | .nil => 0
  | .node _ left right =>
    let leftHeight := getHeight left
    let rightHeight := getHeight right
    if leftHeight > rightHeight then leftHeight + 1 else rightHeight + 1

def printGivenLevel : BinaryTree Int → Int → String → String
  | .nil, _, out => out
  | .node val left right, level, out =>
    if level = 1 then put out val
    else if level > 1 then
      printGivenLevel right (level - 1) (printGivenLevel left (level - 1) out)
    else out

def levelOrderRecursive (root : BinaryTree Int) : Option String :=
  forLoop (fun i out => some (printGivenLevel root i out ++ "\n")) 1 (getHeight root).toNat ""

/-! ## What it is for -/

def printLine (out : String) (vals : List Int) : String := vals.foldl put out ++ "\n"

/-- A line for each level, with its values from left to right. -/
def page (root : BinaryTree Int) : String := (levels root).foldl printLine ""

end Training.TreeLevels
