/-
Training.IncreasingDigits.Digits — the longest ascending digits of a
string, `C/job_interview/05_max_continue_inc_num_str.c`.

Translation notes.

* A string is the list of its characters, without the terminator. An access
  outside the string or the array gives `none`.
* The `int` counters of `findMaxIncreasingDigits` count up to the length:
  in a string of more than `INT_MAX` characters `i++` overflows.
* `int n = strlen(str)` keeps the low 32 bits of the length, and there is no
  array of no or fewer elements. The array is filled with 1 at once.
* `isdigit` is 0 of a negative character.
* `main` is left out.
-/
import Mathlib.Algebra.Ring.Int.Defs
import Mathlib.Algebra.Ring.Nat
import Training.Lib.Arrays
import Training.Lib.Loops

namespace Training.IncreasingDigits

open Training.Lib Training.Lib.Arrays

def intMax : Nat := 2 ^ 31 - 1

/-- The `int` that a length is converted to. -/
def toInt (n : Nat) : Int :=
  if n % 2 ^ 32 < 2 ^ 31 then (n % 2 ^ 32 : Nat) else (n % 2 ^ 32 : Nat) - 2 ^ 32

/-- `'0' <= c && c <= '9'` -/
def isDigit (c : Int) : Bool := decide (48 ≤ c ∧ c ≤ 57)

/-- `'\n'` -/
def newline : Int := 10

structure Scan where
  max : Nat
  index : Nat
  len : Nat
  start : Nat

/-- `i == 0 || s[i-1] + 1 != s[i]` -/
def startsAt (s : List Int) (i : Nat) (c : Int) : Option Bool :=
  if i = 0 then some true else (read s (i - 1)).map fun p => decide (p + 1 ≠ c)

def scanTurn (s : List Int) (i : Nat) (st : Scan) : Option Scan := do
  let c ← read s i
  if isDigit c then
    if ← startsAt s i c then
      return {
        max := if st.len > st.max then st.len else st.max
        start := if st.len > st.max then st.index else st.start
        index := i
        len := 1 }
    else return { st with len := st.len + 1 }
  else return st

/-- What it prints. -/
def findMaxIncreasingDigits (s : List Int) : Option (List Int) :=
  if s.length ≤ intMax then do
    let st ← forLoop (scanTurn s) 0 s.length { max := 0, index := 0, len := 0, start := 0 }
    let out ← forLoop (fun i out => (read s i).map fun c => out ++ [c]) st.start st.max []
    return out ++ [newline]
  else none

structure Table where
  dp : List Int
  maxLength : Int

def dpTurn (str : List Int) (i : Nat) (t : Table) : Option Table := do
  let a ← read str (i - 1)
  let b ← read str i
  if a + 1 = b ∧ isDigit b ∧ isDigit a then
    let d ← read t.dp (i - 1)
    let dp ← write t.dp i (d + 1)
    return { dp, maxLength := if t.maxLength > d + 1 then t.maxLength else d + 1 }
  else return t

def longestIncreasingDigits (str : List Int) : Option Int :=
  let n := toInt str.length
  if n ≤ 0 then none
  else
    (forLoop (dpTurn str) 1 (n.toNat - 1)
      { dp := List.replicate n.toNat 1, maxLength := 1 }).map Table.maxLength

/-! ## What they are for -/

/-- Digits, each of them one greater than the one before. -/
def IsRun (r : List Int) : Prop := (∀ c ∈ r, isDigit c = true) ∧ r.IsChain fun a b => a + 1 = b

def LongestRun (s r : List Int) : Prop :=
  (r <:+: s ∧ IsRun r) ∧ ∀ r', r' <:+: s → IsRun r' → r'.length ≤ r.length

/-- A longest run is printed, and its length is returned. -/
def FunctionsAgree (s : List Int) : Prop :=
  ∃ r, LongestRun s r ∧ findMaxIncreasingDigits s = some (r ++ [newline]) ∧
    longestIncreasingDigits s = some (r.length : Int)

/-! ## When they do it -/

/-- A digit that does not follow the character before it. -/
def opens (s : List Int) (i : Nat) : Bool :=
  isDigit (view s i) && (decide (i = 0) || decide (view s (i - 1) + 1 ≠ view s i))

/-- The characters from an opening digit, or from the start of the string, up
to the next opening digit. -/
def Stretch (s : List Int) (a b : Nat) : Prop :=
  opens s b = true ∧ (a = 0 ∨ a < b ∧ opens s a = true) ∧ ∀ j, a < j → j < b → opens s j = false

/-- The digits from `a` up to `b`. -/
def digits (s : List Int) (a b : Nat) : Nat := ((s.take b).drop a).countP isDigit

/-- The first of the stretches with the most digits. -/
def FirstMost (s : List Int) (a b : Nat) : Prop :=
  Stretch s a b ∧ ∀ c d, Stretch s c d →
    digits s c d ≤ digits s a b ∧ (c < a → digits s c d < digits s a b)

/-- `'0'` behind `'/'`, which is the character before it: a digit that opens
nothing and follows no digit. -/
def ZeroBehindSlash (s : List Int) (j : Nat) : Prop := view s (j - 1) = 47 ∧ view s j = 48

/-- The first of the stretches with the most digits has no `0` behind a `/`,
and no run behind the last opening digit is longer than it has digits. -/
def LongestCloses (s : List Int) : Prop :=
  ∃ a b, FirstMost s a b ∧ 0 < digits s a b ∧
    (∀ j, a < j → j < b → ¬ZeroBehindSlash s j) ∧
    ∀ e n, (∀ j, e < j → opens s j = false) → e + n ≤ s.length → IsRun ((s.drop e).take n) →
      n ≤ digits s a b

end Training.IncreasingDigits
