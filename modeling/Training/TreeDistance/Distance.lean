/-
Training.TreeDistance.Distance — the distance of two nodes of a binary
tree, `C/job_interview/07_two_node_distance_in_tree.c`.

Translation notes.

* `NULL` is the empty tree, and the pointer to a node is the tree from
  there on.
* Levels and distances are integers without bounds: a level is the depth
  of the recursion it is computed at, a distance the sum of two, and the
  stack has no room for 2^30 calls.
* `createNode` and `main` are left out.
-/
import Training.Lib.Trees

namespace Training.TreeDistance

open Training.Lib.Trees

def findLCA : BinaryTree Int → Int → Int → BinaryTree Int
  | .nil, _, _ => .nil
  | .node v l r, p, q =>
    if v = p ∨ v = q then .node v l r
    else
      let left := findLCA l p q
      let right := findLCA r p q
      if left ≠ .nil ∧ right ≠ .nil then .node v l r
      else if left ≠ .nil then left else right

def findLevel : BinaryTree Int → Int → Int → Int
  | .nil, _, _ => -1
  | .node v l r, target, level =>
    if v = target then level
    else
      let left := findLevel l target (level + 1)
      if left ≠ -1 then left else findLevel r target (level + 1)

def shortestDistance (root : BinaryTree Int) (p q : Int) : Int :=
  let lca := findLCA root p q
  let d1 := findLevel lca p 0
  let d2 := findLevel lca q 0
  d1 + d2

/-! ## What it is for -/

def Holds (t : BinaryTree Int) (v : Int) : Prop := ∃ a, valueAt t a = some v

/-- No two nodes have one value. -/
def Distinct (t : BinaryTree Int) : Prop :=
  ∀ a b v, valueAt t a = some v → valueAt t b = some v → a = b

end Training.TreeDistance
