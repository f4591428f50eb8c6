/-
Training.NonRepeat.Substring — the longest substring without repeated
characters, `C/job_interview/25_longest_non_repeat_substr.c`.

Translation notes.

* A string is the list of the codes of its characters, without the
  terminator. An access outside the string or a table gives `none`, and so
  does `right++` at `INT_MAX`.
* `int n = strlen(s)` keeps the low 32 bits of the length.
* The two functions differ in the size of the table, in the test for a
  character of the window, and in the test for the end of the string. The
  rest is the same code (`slideTurn`).
* `main`, which prints, is left out.
-/
import Mathlib.Algebra.Ring.Int.Defs
import Mathlib.Algebra.Ring.Nat
import Training.Lib.Arrays
import Training.Lib.Loops

namespace Training.NonRepeat

open Training.Lib Training.Lib.Arrays

def intMax : Nat := 2 ^ 31 - 1

/-- The `int` that a length is converted to. -/
def toInt (n : Nat) : Int :=
  if n % 2 ^ 32 < 2 ^ 31 then (n % 2 ^ 32 : Nat) else (n % 2 ^ 32 : Nat) - 2 ^ 32

/-- The local variables: where a character was last, where the window
starts, and the length of the longest one. -/
structure Window where
  last : List Int
  start : Int
  maxLen : Int

def Window.init (size : Nat) : Window where
  last := List.replicate size (-1)
  start := 0
  maxLen := 0

/-- `inside` is the test on the last place of the character and the start
of the window. -/
def slideTurn (inside : Int → Int → Bool) (s : List Nat) (i : Nat) (w : Window) :
    Option Window := do
  let c ← s[i]?
  let seen ← read w.last c
  let start := if inside seen w.start then seen + 1 else w.start
  let last ← write w.last c i
  let currentLen := i - start + 1
  return { last, start, maxLen := if currentLen > w.maxLen then currentLen else w.maxLen }

def lengthOfLongestSubstring1 (s : List Nat) : Option Int :=
  let n := toInt s.length
  if n = 0 then some 0
  else
    (forLoop (slideTurn (fun seen start => seen ≠ -1 ∧ seen ≥ start) s) 0 n.toNat
      (Window.init 256)).map Window.maxLen

/-- `s[right] != '\0'` -/
def endTest (s : List Nat) (state : Nat × Window) : Option Bool :=
  some (decide (state.1 < s.length))

def rightTurn (s : List Nat) (state : Nat × Window) : Option (Nat × Window) := do
  let w ← slideTurn (fun seen start => seen ≥ start) s state.1 state.2
  if state.1 < intMax then return (state.1 + 1, w) else none

def lengthOfLongestSubstring2 (fuel : Nat) (s : List Nat) : Option Int :=
  (loop (endTest s) (rightTurn s) fuel (0, Window.init 128)).map fun state => state.2.maxLen

/-! ## What they are for -/

/-- `n` is the greatest length of a substring whose characters differ. -/
def IsLongest (s : List Nat) (n : Int) : Prop :=
  (∃ l m : Nat, n = m ∧ l + m ≤ s.length ∧ ((s.drop l).take m).Nodup) ∧
    ∀ l m : Nat, l + m ≤ s.length → ((s.drop l).take m).Nodup → (m : Int) ≤ n

/-- Both functions return it. -/
def BothLongest (s : List Nat) : Prop :=
  ∃ n turns, IsLongest s n ∧ lengthOfLongestSubstring1 s = some n ∧
    ∀ fuel, turns ≤ fuel → lengthOfLongestSubstring2 fuel s = some n

end Training.NonRepeat
