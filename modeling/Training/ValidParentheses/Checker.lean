/-
Training.ValidParentheses.Checker — the bracket checker,
`C/job_interview/26_valid_parentheses.c`.

Translation notes.

* A string is the list of its bytes, without the terminator.
* Memory that has been allocated and not written holds `none`. To read it
  gives `none`, and so does an access outside the string or the stack.
* `int len = strlen(s)` keeps the low 32 bits of the length, as a signed
  number. Of a negative number of bytes `malloc` gives nothing, and the loop
  is not entered.
* `malloc` finds memory otherwise. `destroyStack` and `main` are left out.
-/
import Mathlib.Algebra.Ring.Int.Defs
import Mathlib.Algebra.Ring.Nat
import Training.Lib.Arrays
import Training.Lib.Brackets

namespace Training.ValidParentheses

open Training.Lib Training.Lib.Arrays

structure Stack where
  data : List (Option UInt8)
  top : Int
  capacity : Int

def createStack (capacity : Int) : Stack where
  data := List.replicate capacity.toNat none
  top := -1
  capacity := capacity

def isEmpty (stack : Stack) : Bool := decide (stack.top = -1)

def push (stack : Stack) (c : UInt8) : Option Stack := do
  let data ← write stack.data (stack.top + 1) (some c)
  return { stack with data, top := stack.top + 1 }

def pop (stack : Stack) : Option (UInt8 × Stack) := do
  let c ← (read stack.data stack.top).join
  return (c, { stack with top := stack.top - 1 })

def peek (stack : Stack) : Option UInt8 := (read stack.data stack.top).join

/-- `c == '(' || c == '{' || c == '['` -/
def isOpening (c : UInt8) : Bool :=
  decide (c = '('.toUInt8 ∨ c = '\x7b'.toUInt8 ∨ c = '['.toUInt8)

/-- The closing bracket `c` is not that of `top`. -/
def mismatch (c top : UInt8) : Bool :=
  decide ((c = ')'.toUInt8 ∧ top ≠ '('.toUInt8) ∨ (c = '\x7d'.toUInt8 ∧ top ≠ '\x7b'.toUInt8) ∨
    (c = ']'.toUInt8 ∧ top ≠ '['.toUInt8))

/-- The loop from `i` on, with what follows it. -/
def checkFrom (s : List UInt8) (i : Nat) : Nat → Stack → Option Bool
  | 0, stack => some (isEmpty stack)
  | turns + 1, stack => do
      let c ← read s i
      if isOpening c then
        let stack ← push stack c
        checkFrom s (i + 1) turns stack
      else if isEmpty stack then return false
      else
        let top ← peek stack
        if mismatch c top then return false
        else
          let (_, stack) ← pop stack
          checkFrom s (i + 1) turns stack

def isValid (s : List UInt8) : Option Bool :=
  let len := (s.length : Int).bmod (2 ^ 32)
  if len.tmod 2 ≠ 0 then some false
  else checkFrom s 0 len.toNat (createStack len)

/-! ## What it is for -/

inductive Pair : UInt8 → UInt8 → Prop
  | round : Pair '('.toUInt8 ')'.toUInt8
  | square : Pair '['.toUInt8 ']'.toUInt8
  | curly : Pair '\x7b'.toUInt8 '\x7d'.toUInt8

/-- `S → ε | (S)S | [S]S | {S}S` -/
def Balanced (s : List UInt8) : Prop := Nested Pair s

def AcceptsBalanced (s : List UInt8) : Prop :=
  ∃ b, isValid s = some b ∧ (b = true ↔ Balanced s)

/-! ## When it does it -/

def isClosing (c : UInt8) : Bool :=
  decide (c = ')'.toUInt8 ∨ c = '\x7d'.toUInt8 ∨ c = ']'.toUInt8)

def isForeign (c : UInt8) : Bool := !isOpening c && !isClosing c

/-- What may be read for `c`: a foreign character stands for any closing
bracket. -/
def Stands (c d : UInt8) : Prop := c = d ∨ (isForeign c = true ∧ isClosing d = true)

/-- The word is balanced once each foreign character is replaced by one of
the closing brackets. -/
def Fillable (s : List UInt8) : Prop := ∃ w, List.Forall₂ Stands s w ∧ Balanced w

/-- The characters before `len`. -/
def looked (s : List UInt8) : List UInt8 := s.take ((s.length : Int).bmod (2 ^ 32)).toNat

/-- The characters from `len` on, which nothing looks at. -/
def unlooked (s : List UInt8) : List UInt8 := s.drop ((s.length : Int).bmod (2 ^ 32)).toNat

/-- Where `int` holds the length, no foreign character passes for a bracket.
Where it does not, both parts of the string are balanced, or the string is
not and the part that is looked at cannot be filled up. -/
def Confined (s : List UInt8) : Prop :=
  s.length % 2 = 1 ∨
    if s.length < 2 ^ 31 then (∀ c ∈ s, isForeign c = false) ∨ ¬ Fillable s
    else Balanced (looked s) ∧ Balanced (unlooked s) ∨ ¬ Fillable (looked s) ∧ ¬ Balanced s

end Training.ValidParentheses
