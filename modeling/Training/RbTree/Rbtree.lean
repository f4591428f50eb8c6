/-
Training.RbTree.Rbtree — the red-black tree, `C/05_rbtree/rbtree.c`,
`rbtree.h`, `rbtree_augmented.h` and `rbtree_ka.h`.

Translation notes.

* `α` are the addresses of the nodes, `NULL` is `none`. The word
  `__rb_parent_color` of an aligned node is the address and, in the lowest
  bit, the colour; they are two fields here. `rb_red_parent` takes the word
  for an address, which gives an address only where the colour is red.
* A function is `none` where it follows a `NULL`, and where a loop is still
  going after `fuel` turns.
* The branches of `__rb_insert`, `____rb_erase_color`, `rb_next` and
  `rb_prev` for the two sides are mirror images. They are one definition,
  with the side `d` of the branch as an argument: the branch of the source
  comes about when `left` or `right` is put for `d`, and the other one for
  `d.other`.
* `rb_insert_color` and `rb_erase` instantiate the augmented functions with
  callbacks that do nothing, and the callbacks are left out.
-/
import Training.Lib.RedBlack

namespace Training.RbTree

open Training.Lib.RedBlack

universe u

/-- The nodes and `struct rb_root`. -/
structure Memory (α : Type u) where
  parent : α → Option α
  color : α → Color
  /-- `rb_left` and `rb_right` -/
  child : Side → α → Option α
  /-- `root->rb_node` -/
  root : Option α

variable {α : Type u} [DecidableEq α]

namespace Memory

/-- `WRITE_ONCE(x->rb_left, v)` and `WRITE_ONCE(x->rb_right, v)` -/
def setChild (m : Memory α) (d : Side) (x : α) (v : Option α) : Memory α :=
  { m with child := fun e y => if e = d ∧ y = x then v else m.child e y }

def rbSetParentColor (m : Memory α) (rb : α) (p : Option α) (color : Color) : Memory α :=
  { m with
    parent := fun y => if y = rb then p else m.parent y
    color := fun y => if y = rb then color else m.color y }

/-- `if (tmp) rb_set_parent_color(tmp, p, color);` -/
def setParentColorIf (m : Memory α) (tmp : Option α) (p : Option α) (color : Color) : Memory α :=
  match tmp with
  | none => m
  | some tmp => m.rbSetParentColor tmp p color

def rbSetParent (m : Memory α) (rb : α) (p : Option α) : Memory α :=
  m.rbSetParentColor rb p (m.color rb)

/-- `if (tmp) rb_set_parent(tmp, p);` -/
def setParentIf (m : Memory α) (tmp : Option α) (p : Option α) : Memory α :=
  match tmp with
  | none => m
  | some tmp => m.rbSetParent tmp p

def rbSetBlack (m : Memory α) (rb : α) : Memory α := m.rbSetParentColor rb (m.parent rb) .black

def rbRedParent (m : Memory α) (red : α) : Option (Option α) :=
  match m.color red with
  | .red => some (m.parent red)
  | .black => none

/-- `tmp && rb_is_red(tmp)` -/
def isRed (m : Memory α) (tmp : Option α) : Bool :=
  match tmp with
  | none => false
  | some tmp => m.color tmp = .red

def rbChangeChild (m : Memory α) (old : α) (new : Option α) (parent : Option α) : Memory α :=
  match parent with
  | some parent =>
    if m.child .left parent = some old then m.setChild .left parent new
    else m.setChild .right parent new
  | none => { m with root := new }

def rbRotateSetParents (m : Memory α) (old new : α) (color : Color) : Memory α :=
  let parent := m.parent old
  let m := m.rbSetParentColor new (m.parent old) (m.color old)
  let m := m.rbSetParentColor old (some new) color
  m.rbChangeChild old (some new) parent

/-! ## Insertion -/

/-- Case 3. -/
def insertRotateGparent (m : Memory α) (d : Side) (parent gparent : α) (tmp : Option α) :
    Memory α :=
  let m := m.setChild d gparent tmp
  let m := m.setChild d.other parent (some gparent)
  let m := m.setParentColorIf tmp (some gparent) .black
  m.rbRotateSetParents gparent parent .red

/-- Case 2, and case 3 behind it. -/
def insertRotate (m : Memory α) (d : Side) (node parent gparent : α) : Memory α :=
  let tmp := m.child d.other parent
  if tmp = some node then
    let tmp := m.child d node
    let m := m.setChild d.other parent tmp
    let m := m.setChild d node (some parent)
    let m := m.setParentColorIf tmp (some parent) .black
    let m := m.rbSetParentColor parent (some node) .red
    m.insertRotateGparent d node gparent (m.child d.other node)
  else m.insertRotateGparent d parent gparent tmp

/-- The loop of `__rb_insert`. -/
def insertLoop : Nat → Memory α → α → Option α → Option (Memory α)
  | 0, _, _, _ => none
  | _ + 1, m, node, none => some (m.rbSetParentColor node none .black)
  | fuel + 1, m, node, some parent =>
    if m.color parent = .black then some m
    else
      (m.rbRedParent parent).bind fun gparent => gparent.bind fun gparent =>
        let d : Side := if m.child .right gparent ≠ some parent then .left else .right
        let tmp := m.child d.other gparent
        if m.isRed tmp then
          -- case 1
          let m := m.setParentColorIf tmp (some gparent) .black
          let m := m.rbSetParentColor parent (some gparent) .black
          let parent := m.parent gparent
          let m := m.rbSetParentColor gparent parent .red
          insertLoop fuel m gparent parent
        else some (m.insertRotate d node parent gparent)

/-- `__rb_insert` -/
def rbInsertColor (fuel : Nat) (m : Memory α) (node : α) : Option (Memory α) :=
  (m.rbRedParent node).bind fun parent => insertLoop fuel m node parent

/-- `rb_link`: where a pointer to a node is stored. -/
inductive Link (α : Type u)
  | root
  | child (d : Side) (x : α)

/-- `*rb_link` -/
def load (m : Memory α) : Link α → Option α
  | .root => m.root
  | .child d x => m.child d x

/-- `*rb_link = v` -/
def store (m : Memory α) (v : Option α) : Link α → Memory α
  | .root => { m with root := v }
  | .child d x => m.setChild d x v

def rbLinkNode (m : Memory α) (node : α) (parent : Option α) (rbLink : Link α) : Memory α :=
  let m := m.rbSetParentColor node parent .red
  let m := (m.setChild .right node none).setChild .left node none
  m.store (some node) rbLink

/-! ## Erasure -/

/-- Case 1 of `____rb_erase_color`; gives the new `sibling`. -/
def eraseRotateSibling (m : Memory α) (d : Side) (parent sibling : α) : Option (Memory α × α) :=
  if m.color sibling = .red then
    (m.child d sibling).bind fun tmp1 =>
      let m := m.setChild d.other parent (some tmp1)
      let m := m.setChild d sibling (some parent)
      let m := m.rbSetParentColor tmp1 (some parent) .black
      some (m.rbRotateSetParents parent sibling .red, tmp1)
  else some (m, sibling)

/-- Case 4. -/
def eraseRotateParent (m : Memory α) (d : Side) (parent sibling tmp1 : α) : Memory α :=
  let tmp2 := m.child d sibling
  let m := m.setChild d.other parent tmp2
  let m := m.setChild d sibling (some parent)
  let m := m.rbSetParentColor tmp1 (some sibling) .black
  let m := m.setParentIf tmp2 (some parent)
  m.rbRotateSetParents parent sibling .black

/-- Case 3. -/
def eraseRotateNephew (m : Memory α) (d : Side) (parent sibling tmp2 : α) : Memory α :=
  let tmp1 := m.child d.other tmp2
  let m := m.setChild d sibling tmp1
  let m := m.setChild d.other tmp2 (some sibling)
  let m := m.setChild d.other parent (some tmp2)
  m.setParentColorIf tmp1 (some sibling) .black

/-- The loop of `____rb_erase_color`. -/
def eraseLoop : Nat → Memory α → Option α → α → Option (Memory α)
  | 0, _, _, _ => none
  | fuel + 1, m, node, parent =>
    let d : Side := if node ≠ m.child .right parent then .left else .right
    (m.child d.other parent).bind fun sibling =>
      (m.eraseRotateSibling d parent sibling).bind fun (m, sibling) =>
        let tmp1 := m.child d.other sibling
        if m.isRed tmp1 then
          tmp1.bind fun tmp1 => some (m.eraseRotateParent d parent sibling tmp1)
        else
          let tmp2 := m.child d sibling
          if m.isRed tmp2 then
            tmp2.bind fun tmp2 =>
              let m := m.eraseRotateNephew d parent sibling tmp2
              some (m.eraseRotateParent d parent tmp2 sibling)
          else
            -- case 2
            let m := m.rbSetParentColor sibling (some parent) .red
            if m.color parent = .red then some (m.rbSetBlack parent)
            else
              match m.parent parent with
              | some grand => eraseLoop fuel m (some parent) grand
              | none => some m

/-- `do … while (tmp)`: gives `parent` and `successor`. -/
def successorLoop : Nat → Memory α → α → α → Option (α × α)
  | 0, _, _, _ => none
  | fuel + 1, m, successor, tmp =>
    let parent := successor
    let successor := tmp
    match m.child .left successor with
    | some tmp => successorLoop fuel m successor tmp
    | none => some (parent, successor)

/-- What the cases 2 and 3 of `__rb_erase_augmented` end with. -/
def replaceBySuccessor (m : Memory α) (node successor parent : α) (child2 : Option α) :
    Option (Memory α × Option α) :=
  (m.child .left node).bind fun tmp =>
    let m := m.setChild .left successor (some tmp)
    let m := m.rbSetParent tmp (some successor)
    let pcParent := m.parent node
    let pcColor := m.color node
    let m := m.rbChangeChild node (some successor) pcParent
    match child2 with
    | some child2 =>
      let m := m.rbSetParentColor child2 (some parent) .black
      some (m.rbSetParentColor successor pcParent pcColor, none)
    | none =>
      let rebalance := if m.color successor = .black then some parent else none
      some (m.rbSetParentColor successor pcParent pcColor, rebalance)

/-- Gives `rebalance`. -/
def rbEraseAugmented (fuel : Nat) (m : Memory α) (node : α) : Option (Memory α × Option α) :=
  match m.child .left node, m.child .right node with
  | none, child =>
    -- case 1
    let parent := m.parent node
    let color := m.color node
    let m := m.rbChangeChild node child parent
    match child with
    | some child => some (m.rbSetParentColor child parent color, none)
    | none => some (m, if color = .black then parent else none)
  | some tmp, none =>
    let parent := m.parent node
    let m := m.rbSetParentColor tmp parent (m.color node)
    some (m.rbChangeChild node (some tmp) parent, none)
  | some _, some child =>
    match m.child .left child with
    | none =>
      -- case 2
      m.replaceBySuccessor node child child (m.child .right child)
    | some tmp =>
      -- case 3
      (successorLoop fuel m child tmp).bind fun (parent, successor) =>
        let child2 := m.child .right successor
        let m := m.setChild .left parent child2
        let m := m.setChild .right successor (some child)
        let m := m.rbSetParent child (some successor)
        m.replaceBySuccessor node successor parent child2

def rbErase (fuel : Nat) (m : Memory α) (node : α) : Option (Memory α) :=
  (m.rbEraseAugmented fuel node).bind fun (m, rebalance) =>
    match rebalance with
    | some parent => eraseLoop fuel m none parent
    | none => some m

def rbReplaceNode (m : Memory α) (victim new : α) : Memory α :=
  let parent := m.parent victim
  let m := m.rbSetParentColor new (m.parent victim) (m.color victim)
  let m := (m.setChild .right new (m.child .right victim)).setChild .left new (m.child .left victim)
  let m := m.setParentIf (m.child .left victim) (some new)
  let m := m.setParentIf (m.child .right victim) (some new)
  m.rbChangeChild victim (some new) parent

/-! ## Neighbours -/

/-- `while (n->rb_left) n = n->rb_left;` for `d = left`. -/
def deepest (d : Side) : Nat → Memory α → α → Option α
  | 0, _, _ => none
  | fuel + 1, m, n =>
    match m.child d n with
    | some n => deepest d fuel m n
    | none => some n

/-- `rb_first` for `d = left`, `rb_last` for `d = right`. -/
def rbEnd (d : Side) (fuel : Nat) (m : Memory α) : Option (Option α) :=
  match m.root with
  | none => some none
  | some n => (deepest d fuel m n).map some

def rbFirst (fuel : Nat) (m : Memory α) : Option (Option α) := rbEnd .left fuel m

def rbLast (fuel : Nat) (m : Memory α) : Option (Option α) := rbEnd .right fuel m

/-- `while ((parent = rb_parent(node)) && node == parent->rb_right) node = parent;`
for `d = right`. -/
def climb (d : Side) : Nat → Memory α → α → Option (Option α)
  | 0, _, _ => none
  | fuel + 1, m, node =>
    match m.parent node with
    | none => some none
    | some parent =>
      if m.child d parent = some node then climb d fuel m parent else some (some parent)

/-- `RB_EMPTY_NODE(node)`: the word is the address of the node itself. -/
def rbEmptyNode (m : Memory α) (node : α) : Prop := m.parent node = some node ∧ m.color node = .red

instance (m : Memory α) (node : α) : Decidable (m.rbEmptyNode node) := by
  unfold rbEmptyNode; infer_instance

/-- `rb_next` for `d = right`, `rb_prev` for `d = left`. -/
def rbNeighbour (d : Side) (fuel : Nat) (m : Memory α) (node : α) : Option (Option α) :=
  if m.rbEmptyNode node then some none
  else
    match m.child d node with
    | some node1 => (deepest d.other fuel m node1).map some
    | none => climb d fuel m node

def rbNext (fuel : Nat) (m : Memory α) (node : α) : Option (Option α) :=
  rbNeighbour .right fuel m node

def rbPrev (fuel : Nat) (m : Memory α) (node : α) : Option (Option α) :=
  rbNeighbour .left fuel m node

def rbLeftDeepestNode : Nat → Memory α → α → Option α
  | 0, _, _ => none
  | fuel + 1, m, node =>
    match m.child .left node with
    | some node => rbLeftDeepestNode fuel m node
    | none =>
      match m.child .right node with
      | some node => rbLeftDeepestNode fuel m node
      | none => some node

def rbNextPostorder (fuel : Nat) (m : Memory α) (node : α) : Option (Option α) :=
  match m.parent node with
  | none => some none
  | some parent =>
    match m.child .right parent with
    | some right =>
      if m.child .left parent = some node then (rbLeftDeepestNode fuel m right).map some
      else some (some parent)
    | none => some (some parent)

def rbFirstPostorder (fuel : Nat) (m : Memory α) : Option (Option α) :=
  match m.root with
  | none => some none
  | some node => (rbLeftDeepestNode fuel m node).map some

/-! ## Trees in an order -/

/-- Where a search for a place ends. -/
inductive Descent (α : Type u)
  | found (x : α)
  /-- The place is free; `leftmost` says that the search only went left. -/
  | free (parent : Option α) (link : Link α) (leftmost : Bool)

/-- The loops of `rb_add`, `rb_add_cached` and `rb_find_add`: `go` says on
which side of a node to go on, or that the node is the one looked for. -/
def descend (go : α → Option Side) :
    Nat → Memory α → Option α → Link α → Bool → Option (Descent α)
  | 0, _, _, _, _ => none
  | fuel + 1, m, parent, link, leftmost =>
    match m.load link with
    | none => some (.free parent link leftmost)
    | some parent =>
      match go parent with
      | none => some (.found parent)
      | some d => descend go fuel m (some parent) (.child d parent) (leftmost && d = .left)

/-- Left of the nodes that `node` is less than. -/
def lessSide (less : α → α → Bool) (node : α) (parent : α) : Option Side :=
  if less node parent then some .left else some .right

/-- The side that a comparison with `parent` gives. -/
def cmpSide (c : Int) : Option Side :=
  if c < 0 then some .left else if c > 0 then some .right else none

def rbAdd (less : α → α → Bool) (fuel : Nat) (m : Memory α) (node : α) : Option (Memory α) :=
  (descend (lessSide less node) fuel m none .root true).bind fun
    | .found _ => none
    | .free parent link _ => rbInsertColor fuel (m.rbLinkNode node parent link) node

/-- Gives the node that is there already. -/
def rbFindAdd (cmp : α → α → Int) (fuel : Nat) (m : Memory α) (node : α) :
    Option (Memory α × Option α) :=
  (descend (fun parent => cmpSide (cmp node parent)) fuel m none .root true).bind fun
    | .found x => some (m, some x)
    | .free parent link _ =>
      (rbInsertColor fuel (m.rbLinkNode node parent link) node).map fun m => (m, none)

/-- The loop of `rb_find`; `cmp` is `cmp(key, node)`. -/
def findLoop (cmp : α → Int) : Nat → Memory α → Option α → Option (Option α)
  | 0, _, _ => none
  | _ + 1, _, none => some none
  | fuel + 1, m, some node =>
    let c := cmp node
    if c < 0 then findLoop cmp fuel m (m.child .left node)
    else if c > 0 then findLoop cmp fuel m (m.child .right node)
    else some (some node)

def rbFind (cmp : α → Int) (fuel : Nat) (m : Memory α) : Option (Option α) :=
  findLoop cmp fuel m m.root

/-- The loop of `rb_find_first`. -/
def findFirstLoop (cmp : α → Int) : Nat → Memory α → Option α → Option α → Option (Option α)
  | 0, _, _, _ => none
  | _ + 1, _, none, found => some found
  | fuel + 1, m, some node, found =>
    let c := cmp node
    if c ≤ 0 then
      let found := if c = 0 then some node else found
      findFirstLoop cmp fuel m (m.child .left node) found
    else findFirstLoop cmp fuel m (m.child .right node) found

def rbFindFirst (cmp : α → Int) (fuel : Nat) (m : Memory α) : Option (Option α) :=
  findFirstLoop cmp fuel m m.root none

def rbNextMatch (cmp : α → Int) (fuel : Nat) (m : Memory α) (node : α) : Option (Option α) :=
  (rbNext fuel m node).map fun
    | none => none
    | some node => if cmp node ≠ 0 then none else some node

/-- `rb_for_each_entry` and `rb_for_each`: the nodes that `next` leads to. -/
def forEach (next : α → Option (Option α)) : Nat → Option α → Option (List α)
  | 0, _ => none
  | _ + 1, none => some []
  | fuel + 1, some pos => (next pos).bind fun n => (forEach next fuel n).map (pos :: ·)

end Memory

end Training.RbTree
