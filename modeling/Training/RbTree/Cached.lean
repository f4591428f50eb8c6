/-
Training.RbTree.Cached — trees with a cached leftmost node,
`struct rb_root_cached` of `C/05_rbtree/rbtree.h` and `rb_move_cached` of
`rbtree_ka.h`.

A user of the tree has keys in the nodes, and `less` compares the keys. A
`Call` is what such a user does: it sets the key of a node and hands the
node to a function of the tree. `Listing.step` is what the calls are for: a
list of nodes with their keys, in the order of the keys.
-/
import Training.RbTree.Rbtree

namespace Training.RbTree

open Training.Lib.RedBlack

universe u v

/-- `struct rb_root_cached` -/
structure Cached (α : Type u) where
  rbRoot : Memory α
  rbLeftmost : Option α

variable {α : Type u} [DecidableEq α] {κ : Type v}

namespace Cached

def rbFirstCached (root : Cached α) : Option α := root.rbLeftmost

def rbInsertColorCached (fuel : Nat) (root : Cached α) (node : α) (leftmost : Bool) :
    Option (Cached α) :=
  let root := if leftmost then { root with rbLeftmost := some node } else root
  (root.rbRoot.rbInsertColor fuel node).map fun m => { root with rbRoot := m }

/-- Gives the new leftmost node if `node` was the leftmost one. -/
def rbEraseCached (fuel : Nat) (root : Cached α) (node : α) : Option (Cached α × Option α) :=
  let leftmost : Option (Cached α × Option α) :=
    if root.rbLeftmost = some node then
      (root.rbRoot.rbNext fuel node).map fun next => ({ root with rbLeftmost := next }, next)
    else some (root, none)
  leftmost.bind fun (root, leftmost) =>
    (root.rbRoot.rbErase fuel node).map fun m => ({ root with rbRoot := m }, leftmost)

def rbReplaceNodeCached (root : Cached α) (victim new : α) : Cached α :=
  let root := if root.rbLeftmost = some victim then { root with rbLeftmost := some new } else root
  { root with rbRoot := root.rbRoot.rbReplaceNode victim new }

/-- Gives `node` if it is the new leftmost node. -/
def rbAddCached (less : α → α → Bool) (fuel : Nat) (tree : Cached α) (node : α) :
    Option (Cached α × Option α) :=
  (Memory.descend (Memory.lessSide less node) fuel tree.rbRoot none .root true).bind fun
    | .found _ => none
    | .free parent link leftmost =>
      let tree := { tree with rbRoot := tree.rbRoot.rbLinkNode node parent link }
      (rbInsertColorCached fuel tree node leftmost).map fun tree =>
        (tree, if leftmost then some node else none)

/-- `p && less(node, p)` -/
def lessIf (less : α → α → Bool) (a b : Option α) : Bool :=
  match a, b with
  | some a, some b => less a b
  | _, _ => false

def rbMoveCached (less : α → α → Bool) (fuel : Nat) (tree : Cached α) (node : α) :
    Option (Cached α) :=
  (tree.rbRoot.rbPrev fuel node).bind fun prev =>
    (tree.rbRoot.rbNext fuel node).bind fun next =>
      if lessIf less (some node) prev || lessIf less next (some node) then
        (rbEraseCached fuel tree node).bind fun (tree, _) =>
          (rbAddCached less fuel tree node).map fun (tree, _) => tree
      else some tree

end Cached

/-! ## A user -/

structure Keyed (α : Type u) (κ : Type v) where
  tree : Cached α
  key : α → κ

inductive Call (α : Type u) (κ : Type v)
  /-- A key for the node, and `rb_add_cached`. -/
  | add (node : α) (k : κ)
  | erase (node : α)
  /-- A key for `new`, and `rb_replace_node_cached`. -/
  | replace (victim new : α) (k : κ)
  /-- A new key for the node, and `rb_move_cached`. -/
  | move (node : α) (k : κ)
  | first
  | next (node : α)
  | prev (node : α)

namespace Keyed

def setKey (s : Keyed α κ) (node : α) (k : κ) : α → κ := fun x => if x = node then k else s.key x

/-- `RB_ROOT_CACHED` -/
def start (parent : α → Option α) (color : α → Color) (child : Side → α → Option α)
    (key : α → κ) : Keyed α κ :=
  ⟨⟨⟨parent, color, child, none⟩, none⟩, key⟩

def step (lt : κ → κ → Bool) (fuel : Nat) (s : Keyed α κ) :
    Call α κ → Option (Keyed α κ × Option α)
  | .add node k =>
    let key := s.setKey node k
    (s.tree.rbAddCached (fun a b => lt (key a) (key b)) fuel node).map fun (tree, r) =>
      (⟨tree, key⟩, r)
  | .erase node => (s.tree.rbEraseCached fuel node).map fun (tree, r) => (⟨tree, s.key⟩, r)
  | .replace victim new k =>
    some (⟨s.tree.rbReplaceNodeCached victim new, s.setKey new k⟩, none)
  | .move node k =>
    let key := s.setKey node k
    (s.tree.rbMoveCached (fun a b => lt (key a) (key b)) fuel node).map fun tree =>
      (⟨tree, key⟩, none)
  | .first => some (s, s.tree.rbFirstCached)
  | .next node => (s.tree.rbRoot.rbNext fuel node).map fun r => (s, r)
  | .prev node => (s.tree.rbRoot.rbPrev fuel node).map fun r => (s, r)

end Keyed

/-! ## What the calls are for -/

namespace Listing

/-- The nodes in order, with their keys. -/
abbrev Entries (α : Type u) (κ : Type v) := List (α × κ)

def nodes (l : Entries α κ) : List α := l.map Prod.fst

/-- Behind the entries with a key that is not greater. -/
def insert (lt : κ → κ → Bool) (node : α) (k : κ) (l : Entries α κ) : Entries α κ :=
  l.takeWhile (fun e => !lt k e.2) ++ (node, k) :: l.dropWhile (fun e => !lt k e.2)

def remove (node : α) (l : Entries α κ) : Entries α κ := l.filter fun e => e.1 ≠ node

def update (node new : α) (k : κ) (l : Entries α κ) : Entries α κ :=
  l.map fun e => if e.1 = node then (new, k) else e

def Sorted (lt : κ → κ → Bool) (l : Entries α κ) : Prop := l.Pairwise fun a b => lt b.2 a.2 = false

instance (lt : κ → κ → Bool) (l : Entries α κ) : Decidable (Sorted lt l) :=
  inferInstanceAs (Decidable (l.Pairwise fun a b => lt b.2 a.2 = false))

/-- The node behind `node` in the list. -/
def behind (node : α) (l : List α) : Option α := (l.dropWhile (· ≠ node)).tail.head?

/-- A call is answered when its nodes are in the tree, or not in it, as the
function asks, and there is room for less than `limit` nodes. -/
def step (lt : κ → κ → Bool) (limit : Nat) (l : Entries α κ) :
    Call α κ → Option (Entries α κ × Option α)
  | .add node k =>
    if node ∉ nodes l ∧ l.length + 1 < limit then
      let l' := insert lt node k l
      some (l', if (nodes l').head? = some node then some node else none)
    else none
  | .erase node =>
    if node ∈ nodes l then
      let l' := remove node l
      some (l', if (nodes l).head? = some node then (nodes l').head? else none)
    else none
  | .replace victim new k =>
    let l' := update victim new k l
    if victim ∈ nodes l ∧ new ∉ nodes l ∧ Sorted lt l' then some (l', none) else none
  | .move node k =>
    if node ∈ nodes l then
      let l' := update node node k l
      some (if Sorted lt l' then l' else insert lt node k (remove node l), none)
    else none
  | .first => some (l, (nodes l).head?)
  | .next node => if node ∈ nodes l then some (l, behind node (nodes l)) else none
  | .prev node => if node ∈ nodes l then some (l, behind node (nodes l).reverse) else none

end Listing

end Training.RbTree
