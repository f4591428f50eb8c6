/-
Training.Skip.Operations — the skip list,
`C/99_demo/12_skip_list/test_main.c`.

Translation notes.

* The nodes are addresses, and `forward i node` is `node->forward[i]`.
  `live` has the nodes that have been allocated and not freed, the header
  among them.
* A loop along the nodes of a level takes no more steps than there are
  nodes; one that would take more is at a node again, and never ends
  (`none`).
* `update` starts out with `NULL`s. The source leaves it uninitialised; the
  entries that are read have been written.
* The result of `randomLevel` is given to `insert`.
-/
import Mathlib.Logic.Function.Basic
import Training.Lib.Malloc

namespace Training.Skip

open Training.Lib

/-- `MAX_LEVEL` -/
def maxLevel : Nat := 16

/-- What `randomLevel` returns. -/
abbrev Height := { level : Nat // 1 ≤ level ∧ level ≤ maxLevel }

/-- `SkipList` and the nodes; `height` is the `level` of a node. -/
structure SkipList where
  level : Nat
  header : Nat
  key : Nat → Int
  height : Nat → Nat
  forward : Nat → Nat → Nat
  live : List Nat

def createNode (list : SkipList) (node : Nat) (key : Int) (level : Nat) : SkipList :=
  { list with
    key := Function.update list.key node key
    height := Function.update list.height node level
    forward := fun i =>
      if i < level then Function.update (list.forward i) node null else list.forward i
    live := node :: list.live }

/-- `createSkipList`, in a memory that has any contents. -/
def createSkipList (key : Nat → Int) (height : Nat → Nat) (forward : Nat → Nat → Nat)
    (malloc : Malloc) : SkipList :=
  let header := malloc.alloc []
  createNode { level := 1, header, key, height, forward, live := [] } header (-1) maxLevel

/-- The loop of a search along the level `i`, from `current` on. -/
def advance (list : SkipList) (i : Nat) (key : Int) : Nat → Nat → Option Nat
  | 0, current =>
      if list.forward i current ≠ null ∧ list.key (list.forward i current) < key then none
      else some current
  | fuel + 1, current =>
      if list.forward i current ≠ null ∧ list.key (list.forward i current) < key then
        advance list i key fuel (list.forward i current)
      else some current

/-- The loop over the levels below `i`; the result has `update` and `current`. -/
def descend (list : SkipList) (key : Int) : Nat → (Nat → Nat) → Nat → Option ((Nat → Nat) × Nat)
  | 0, update, current => some (update, current)
  | i + 1, update, current =>
      match advance list i key list.live.length current with
      | none => none
      | some current => descend list key i (Function.update update i current) current

/-- The first part of the three operations. -/
def locate (list : SkipList) (key : Int) : Option ((Nat → Nat) × Nat) :=
  descend list key list.level (fun _ => null) list.header

/-- The loop of `insert` that links the node into the levels from `i` on, `count` of them. -/
def link (list : SkipList) (update : Nat → Nat) (node : Nat) : Nat → Nat → SkipList
  | 0, _ => list
  | count + 1, i =>
      let next := Function.update (list.forward i) node (list.forward i (update i))
      let list := { list with
        forward := Function.update list.forward i (Function.update next (update i) node) }
      link list update node count (i + 1)

/-- The result says whether the key is new. -/
def insert (list : SkipList) (key : Int) (newLevel : Height) (malloc : Malloc) :
    Option (SkipList × Bool) :=
  match locate list key with
  | none => none
  | some (update, current) =>
      let current := list.forward 0 current
      if current ≠ null ∧ list.key current = key then some (list, false)
      else
        let update := fun i => if list.level ≤ i ∧ i < newLevel.val then list.header else update i
        let list := { list with level := max list.level newLevel.val }
        let newNode := malloc.alloc list.live
        let list := createNode list newNode key newLevel.val
        some (link list update newNode newLevel.val 0, true)

/-- The loop of `deleteNode` that takes the node out of the levels from `i` on, at most `count` of
them. -/
def unlink (list : SkipList) (update : Nat → Nat) (node : Nat) : Nat → Nat → SkipList
  | 0, _ => list
  | count + 1, i =>
      if list.forward i (update i) ≠ node then list
      else
        let next := Function.update (list.forward i) (update i) (list.forward i node)
        unlink { list with forward := Function.update list.forward i next } update node count (i + 1)

/-- The loop of `deleteNode` that lowers `list->level`. -/
def lower (list : SkipList) : Nat → SkipList
  | 0 => list
  | fuel + 1 =>
      if list.level > 1 ∧ list.forward (list.level - 1) list.header = null then
        lower { list with level := list.level - 1 } fuel
      else list

def deleteNode (list : SkipList) (key : Int) : Option (SkipList × Bool) :=
  match locate list key with
  | none => none
  | some (update, current) =>
      let current := list.forward 0 current
      if current = null ∨ list.key current ≠ key then some (list, false)
      else
        let list := unlink list update current list.level 0
        let list := { list with live := list.live.erase current }
        some (lower list list.level, true)

def search (list : SkipList) (key : Int) : Option (Option Nat) :=
  match locate list key with
  | none => none
  | some (_, current) =>
      let current := list.forward 0 current
      if current ≠ null ∧ list.key current = key then some (some current) else some none

inductive Event
  | insert (key : Int) (newLevel : Height) (malloc : Malloc)
  | delete (key : Int)
  | search (key : Int)

/-- After an operation that does not end there is no list. -/
abbrev State := Option SkipList

def step (s : State) : Event → State
  | .insert key newLevel malloc => s.bind fun list => (insert list key newLevel malloc).map Prod.fst
  | .delete key => s.bind fun list => (deleteNode list key).map Prod.fst
  | .search key => s.bind fun list => (search list key).map fun _ => list

end Training.Skip
