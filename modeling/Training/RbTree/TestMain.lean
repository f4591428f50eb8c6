/-
Training.RbTree.TestMain — the program `C/05_rbtree/test_main.c`.

The program keeps records with a `long` key in a red-black tree: an argument
`key` is an `Int64`, and what `atol` gives is in that range. A command is a
call of one of its functions. `calloc` gives the node of the command,
or `NULL`, and `live` has the records that `calloc` gave and `free` did not
take back; a second `free`, or a string that is too long for `keystring`,
has no result. What goes to `stderr` is left out.
-/
import Mathlib.Algebra.Ring.Int.Defs
import Training.RbTree.Rbtree

namespace Training.RbTree

universe u

def longMin : Int := -2 ^ 63

def longMax : Int := 2 ^ 63 - 1

/-- `strtol` in base 10: white space, a sign, digits. What is out of the range
of `long` gives the end of the range. -/
def atol (string : List Char) : Int :=
  let string := string.dropWhile fun c => c = ' ' ∨ ('\t' ≤ c ∧ c ≤ '\r')
  let digits (cs : List Char) : Int :=
    ((cs.takeWhile Char.isDigit).foldl (fun n c => 10 * n + (c.toNat - '0'.toNat)) 0 : Nat)
  let value :=
    match string with
    | '-' :: cs => -digits cs
    | '+' :: cs => digits cs
    | cs => digits cs
  max longMin (min longMax value)

/-- What it gives is a `long`. -/
theorem atol_range (string : List Char) : longMin ≤ atol string ∧ atol string ≤ longMax :=
  ⟨Int.le_max_left _ _, Int.max_le.mpr ⟨by decide, Int.min_le_left _ _⟩⟩

def nameMax : Nat := 255

def ENOMEM : Int := 12

def EPERM : Int := 1

/-- The root, and what the records hold. -/
structure Mytree (α : Type u) where
  root : Memory α
  key : α → Int
  keystring : α → List Char
  live : List α

inductive Command (α : Type u)
  /-- The argument of `calloc`'s making, and `key`. -/
  | inster (calloc : Option α) (key : Int64)
  | search (string : List Char)
  | erase (string : List Char)
  | replace (calloc : Option α) (string : List Char)
  | iter
  | freeAll

/-- A line that is printed. -/
inductive Line
  | insterError (keystring : List Char)
  | notFind (string : List Char)
  | findKey (keystring : List Char)
  | key (keystring : List Char)
  | dashes
  | xDashes
  deriving DecidableEq

/-- What is printed, and what is returned. -/
abbrev Answer := List Line × Int

namespace Mytree

variable {α : Type u} [DecidableEq α]

/-- The result of the comparison in `mytype_search` and `mytype_insert`. -/
def result (key this : Int) : Int := if key = this then 0 else if key < this then -1 else 1

def free (t : Mytree α) (x : α) : Option (Mytree α) :=
  if x ∈ t.live then some { t with live := t.live.erase x } else none

/-- `calloc`, and the fields that are set. -/
def record (t : Mytree α) (x : α) (key : Int) (keystring : List Char) : Mytree α :=
  { t with
    key := fun y => if y = x then key else t.key y
    keystring := fun y => if y = x then keystring else t.keystring y
    live := x :: t.live }

def mytypeSearch (fuel : Nat) (t : Mytree α) (string : List Char) : Option (Option α) :=
  t.root.rbFind (fun x => result (atol string) (t.key x)) fuel

/-- Gives whether the record went in. -/
def mytypeInsert (fuel : Nat) (t : Mytree α) (data : α) : Option (Mytree α × Bool) :=
  (t.root.rbFindAdd (fun x y => result (t.key x) (t.key y)) fuel data).map fun (root, found) =>
    ({ t with root := root }, found.isNone)

def testInsterMynode (fuel : Nat) (t : Mytree α) (calloc : Option α) (key : Int64) :
    Option (Mytree α × Answer) :=
  match calloc with
  | none => some (t, [], -ENOMEM)
  | some mynode =>
    let keystring := (toString key.toInt).toList
    (mytypeInsert fuel (t.record mynode key.toInt keystring) mynode).bind fun (t, ok) =>
      if ok then some (t, [], 0)
      else (t.free mynode).map fun t => (t, [.insterError keystring], -EPERM)

def testSearchMytree (fuel : Nat) (t : Mytree α) (string : List Char) :
    Option (Mytree α × Answer) :=
  (t.mytypeSearch fuel string).map fun
    | none => (t, [.notFind string], 0)
    | some node => (t, [.findKey (t.keystring node)], 0)

def testEraseMynode (fuel : Nat) (t : Mytree α) (string : List Char) : Option (Mytree α × Answer) :=
  (t.mytypeSearch fuel string).bind fun
    | none => some (t, [], 0)
    | some data =>
      (t.root.rbErase fuel data).bind fun root =>
        (free { t with root := root } data).map fun t => (t, [], 0)

def testReplaceMynode (fuel : Nat) (t : Mytree α) (calloc : Option α) (string : List Char) :
    Option (Mytree α × Answer) :=
  (t.mytypeSearch fuel string).bind fun
    | none => some (t, [.notFind string], 0)
    | some data =>
      match calloc with
      | none => some (t, [], 0)
      | some newNode =>
        -- `keystring` has room for `NAME_MAX` characters, the 0 among them
        if string.length + 3 < nameMax then
          let t := t.record newNode (atol string) (string ++ ['3', '3', '3'])
          (free { t with root := t.root.rbReplaceNode data newNode } data).map fun t => (t, [], 0)
        else none

def testIterMytree (fuel : Nat) (t : Mytree α) : Option (Mytree α × Answer) :=
  (t.root.rbFirst fuel).bind fun first =>
    (Memory.forEach (t.root.rbNext fuel) fuel first).map fun nodes =>
      (t, nodes.map (fun x => .key (t.keystring x)) ++ [.dashes], 0)

/-- `rb_for_each_entry_safe`: the next node is looked up before the record
is erased and freed. -/
def freeLoop : Nat → Mytree α → Option α → List Line → Option (Mytree α × List Line)
  | 0, _, _, _ => none
  | _ + 1, t, none, lines => some (t, lines)
  | fuel + 1, t, some my, lines =>
    (t.root.rbNext (fuel + 1) my).bind fun myNext =>
      (t.root.rbErase (fuel + 1) my).bind fun root =>
        (free { t with root := root } my).bind fun t =>
          freeLoop fuel t myNext (lines ++ [.key (t.keystring my)])

def testFreeAll (fuel : Nat) (t : Mytree α) : Option (Mytree α × Answer) :=
  (t.root.rbFirst fuel).bind fun first =>
    (freeLoop fuel t first []).map fun (t, lines) => (t, lines ++ [.xDashes], 0)

def step (fuel : Nat) (t : Mytree α) : Command α → Option (Mytree α × Answer)
  | .inster calloc key => t.testInsterMynode fuel calloc key
  | .search string => t.testSearchMytree fuel string
  | .erase string => t.testEraseMynode fuel string
  | .replace calloc string => t.testReplaceMynode fuel calloc string
  | .iter => t.testIterMytree fuel
  | .freeAll => t.testFreeAll fuel

end Mytree

/-! ## What the commands are for -/

/-- A record: the node, its key and its string. -/
structure Entry (α : Type u) where
  node : α
  key : Int
  keystring : List Char
  deriving DecidableEq

namespace Table

variable {α : Type u} [DecidableEq α]

/-- The record with this key. -/
def find (key : Int) (l : List (Entry α)) : Option (Entry α) := l.find? fun e => e.key = key

def insert (e : Entry α) (l : List (Entry α)) : List (Entry α) :=
  l.filter (fun a => a.key < e.key) ++ e :: l.filter fun a => e.key < a.key

/-- The records in the order of their keys, no two with one key. A node of
`calloc` is not one of the table. -/
def step (limit : Nat) (l : List (Entry α)) : Command α → Option (List (Entry α) × Answer)
  | .inster none _ => some (l, [], -ENOMEM)
  | .inster (some x) key =>
    if x ∉ l.map (·.node) ∧ l.length + 1 < limit then
      let e : Entry α := ⟨x, key.toInt, (toString key.toInt).toList⟩
      match find key.toInt l with
      | none => some (insert e l, [], 0)
      | some _ => some (l, [.insterError e.keystring], -EPERM)
    else none
  | .search string =>
    match find (atol string) l with
    | none => some (l, [.notFind string], 0)
    | some e => some (l, [.findKey e.keystring], 0)
  | .erase string => some (l.filter (fun e => e.key ≠ atol string), [], 0)
  | .replace calloc string =>
    match find (atol string) l, calloc with
    | none, _ => some (l, [.notFind string], 0)
    | some _, none => some (l, [], 0)
    | some e, some x =>
      if x ∉ l.map (·.node) ∧ string.length + 3 < nameMax then
        some (l.map fun a => if a = e then ⟨x, a.key, string ++ ['3', '3', '3']⟩ else a, [], 0)
      else none
  | .iter => some (l, l.map (fun e => .key e.keystring) ++ [.dashes], 0)
  | .freeAll => some ([], l.map (fun e => .key e.keystring) ++ [.xDashes], 0)

end Table

end Training.RbTree
