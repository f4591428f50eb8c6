/-
Training.Rudp.Ring — the intrusive lists of the protocol,
`C/rudp_self/list.c`.

Translation notes.

* A node is an address; `next` and `prev` are what is stored there. A list is
  the address of its head.
* `last` in `list_move` is initialised with itself, and not with `data_last`.
  What it holds before is a parameter.
* `list_size` is given a number of turns, and is `none` when they are used up.
  A `size_t` counts all the nodes there can be.
-/
import Mathlib.Logic.Function.Basic
import Training.Lib.Splices

namespace Training.Rudp.Ring

open Training.Lib.Splices Function

variable {ν : Type} [DecidableEq ν]

structure Links (ν : Type) where
  next : ν → ν
  prev : ν → ν

def Links.setNext (l : Links ν) (node target : ν) : Links ν :=
  { l with next := update l.next node target }

def Links.setPrev (l : Links ν) (node target : ν) : Links ν :=
  { l with prev := update l.prev node target }

def listInit (l : Links ν) (head : ν) : Links ν := (l.setNext head head).setPrev head head

def listInsert (l : Links ν) (position data : ν) : Links ν × ν :=
  let result := data
  let l := l.setPrev result (l.prev position)
  let l := l.setNext result position
  let l := l.setNext (l.prev position) result
  let l := l.setPrev position result
  (l, result)

def listRemove (l : Links ν) (position : ν) : Links ν × ν :=
  let l := l.setPrev (l.next position) (l.prev position)
  let l := l.setNext (l.prev position) (l.next position)
  (l, position)

/-- `indeterminate` is what `last` holds. -/
def listMove (l : Links ν) (indeterminate position dataFirst _dataLast : ν) : Links ν × ν :=
  let first := dataFirst
  let last := indeterminate
  let l := l.setNext (l.prev first) (l.next last)
  let l := l.setPrev (l.next last) (l.prev first)
  let l := l.setPrev first (l.prev position)
  let l := l.setNext last position
  let l := l.setNext (l.prev first) first
  let l := l.setPrev position last
  (l, first)

def sizeFrom (l : Links ν) (listEnd : ν) : Nat → ν → Nat → Option Nat
  | 0, _, _ => none
  | turns + 1, position, size =>
      if position = listEnd then some size
      else sizeFrom l listEnd turns (l.next position) (size + 1)

def listSize (l : Links ν) (head : ν) (turns : Nat) : Option Nat :=
  sizeFrom l head turns (l.next head) 0

/-! ## What it is for -/

/-- The list of the nodes `xs`. -/
def Links.Holds (l : Links ν) (head : ν) (xs : List ν) : Prop := Ring l.next l.prev head xs

/-- An operation on a list. Its position is the first node of `back`, or the
head of the list where that is empty. -/
inductive Call (ν : Type)
  | insert (front back : List ν) (data : ν)
  | remove (front : List ν) (position : ν) (back : List ν)
  | move (before : List ν) (first : ν) (rest after front back : List ν)
  | size (xs : List ν)

namespace Call

/-- The nodes of the list before it. -/
def nodes : Call ν → List ν
  | insert front back _ => front ++ back
  | remove front position back => front ++ [position] ++ back
  | move before first rest after _ _ => before ++ first :: rest ++ after
  | size xs => xs

/-- What is inserted is no node yet, and `front` and `back` are the nodes
outside the range that is moved. -/
def Valid (head : ν) : Call ν → Prop
  | insert front back data => data ∉ head :: (front ++ back)
  | move before _ _ after front back => before ++ after = front ++ back
  | _ => True

/-- The operation of the list is that of the sequence of its nodes. -/
def Acts (l : Links ν) (head indeterminate : ν) : Call ν → Prop
  | insert front back data =>
      (listInsert l (back.headD head) data).1.Holds head (front ++ [data] ++ back) ∧
        (listInsert l (back.headD head) data).2 = data
  | remove front position back =>
      (listRemove l position).1.Holds head (front ++ back) ∧ (listRemove l position).2 = position
  | move _ first rest _ front back =>
      (listMove l indeterminate (back.headD head) first (rest.getLastD first)).1.Holds head
          (front ++ first :: rest ++ back) ∧
        (listMove l indeterminate (back.headD head) first (rest.getLastD first)).2 = first
  | size xs => ∀ turns, xs.length < turns → listSize l head turns = some xs.length

/-! ## When it does it -/

/-- The variable happens to hold the last node of the range. -/
def ReadsLast (indeterminate : ν) : Call ν → Prop
  | move _ first rest _ _ _ => indeterminate = rest.getLastD first
  | _ => True

end Call

end Training.Rudp.Ring
