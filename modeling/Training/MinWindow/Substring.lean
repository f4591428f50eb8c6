/-
Training.MinWindow.Substring — the shortest substring that covers a
string, `C/job_interview/15_min_coverage_substring.c`.

Translation notes.

* A string is the list of its characters, without the terminator, and the
  characters are below `CHAR_SET_SIZE`. A pointer to a string is not
  `NULL`. The result of `calloc` and of `malloc` is not `NULL`.
* `minWindow_self` and `minWindow` differ in when `formed` grows, in what
  it has to reach, and in the length that stands for no window. The rest
  is the same code (`minWindowWith`).
* The `int` that gets largest is `right`, and `right++` has no meaning at
  `INT_MAX`. A loop that is still going after `fuel` turns gives `none`,
  and so does a read behind the string.
* What `minWindow_self` prints is left out.
-/
import Mathlib.Algebra.Ring.Nat
import Mathlib.Logic.Function.Basic
import Training.Lib.Loops

namespace Training.MinWindow

open Training.Lib

abbrev charSetSize : Nat := 128

abbrev Ch : Type := Fin charSetSize

abbrev Str : Type := List Ch

def intMax : Nat := 2 ^ 31 - 1

/-- `int t_freq[CHAR_SET_SIZE]` -/
abbrev Table : Type := Ch → Int

def increment (table : Table) (c : Ch) : Table := Function.update table c (table c + 1)

def decrement (table : Table) (c : Ch) : Table := Function.update table c (table c - 1)

/-- The counts of the characters of `t`. -/
def frequencies (t : Str) : Table := t.foldl increment fun _ => 0

/-- The local variables of the loops. -/
structure Scan where
  left : Nat
  right : Nat
  minLen : Nat
  minLeft : Nat
  formed : Int
  window : Table

/-- `grows` is the test on the count in `t` and the one in the window. -/
def take (tFreq : Table) (grows : Int → Int → Bool) (c : Ch) (w : Scan) : Scan :=
  let window := increment w.window c
  { w with
    window
    formed := if tFreq c > 0 ∧ grows (tFreq c) (window c) then w.formed + 1 else w.formed }

def shrinkTest (required : Int) (w : Scan) : Option Bool :=
  some (decide (w.left ≤ w.right ∧ w.formed = required))

/-- A turn of the loop that moves the left border. -/
def shrinkTurn (s : Str) (tFreq : Table) (w : Scan) : Option Scan := do
  let c ← s[w.left]?
  let best : Nat × Nat :=
    if w.right - w.left + 1 < w.minLen then (w.right - w.left + 1, w.left) else (w.minLen, w.minLeft)
  let window := decrement w.window c
  return {
    left := w.left + 1
    right := w.right
    minLen := best.1
    minLeft := best.2
    formed := if tFreq c > 0 ∧ window c < tFreq c then w.formed - 1 else w.formed
    window }

/-- A turn of the loop that moves the right border. -/
def slideTurn (fuel : Nat) (s : Str) (tFreq : Table) (grows : Int → Int → Bool) (required : Int)
    (w : Scan) : Option Scan := do
  let c ← s[w.right]?
  let w ← loop (shrinkTest required) (shrinkTurn s tFreq) fuel (take tFreq grows c w)
  if w.right < intMax then return { w with right := w.right + 1 } else none

def slideTest (s : Str) (w : Scan) : Option Bool := some (decide (w.right < s.length))

/-- `unset` is the length that no window has been found with. -/
def Scan.init (unset : Nat) : Scan where
  left := 0
  right := 0
  minLen := unset
  minLeft := 0
  formed := 0
  window := fun _ => 0

def minWindowWith (grows : Int → Int → Bool) (required : Int) (unset fuel : Nat) (s t : Str) :
    Option Str :=
  if s.length < t.length then some []
  else do
    let w ← loop (slideTest s) (slideTurn fuel s (frequencies t) grows required) fuel
      (Scan.init unset)
    return if w.minLen = unset then [] else (s.drop w.minLeft).take w.minLen

/-- The kinds of characters in `t`. -/
def kinds (tFreq : Table) : Nat := (List.finRange charSetSize).countP fun c => tFreq c > 0

def minWindowSelf (fuel : Nat) (s t : Str) : Option Str :=
  minWindowWith (fun inT inWindow => inT = inWindow) (kinds (frequencies t)) 0xffff fuel s t

def minWindow (fuel : Nat) (s t : Str) : Option Str :=
  minWindowWith (fun inT inWindow => inWindow ≤ inT) t.length intMax fuel s t

/-! ## What they are for -/

/-- `w` has every character of `t` at least as often as `t`. -/
def Covers (t w : Str) : Prop := ∀ c, t.count c ≤ w.count c

/-- A substring of `s`, which covers `t`, with its place and its length. -/
def Window (s t : Str) (l n : Nat) : Prop := l + n ≤ s.length ∧ Covers t ((s.drop l).take n)

instance (t w : Str) : Decidable (Covers t w) :=
  inferInstanceAs (Decidable (∀ c : Ch, t.count c ≤ w.count c))

instance (s t : Str) (l n : Nat) : Decidable (Window s t l n) :=
  inferInstanceAs (Decidable (_ ∧ _))

/-- The leftmost of the shortest substrings of `s` that cover `t`. -/
def IsMinWindow (s t w : Str) : Prop :=
  ∃ l, w = (s.drop l).take w.length ∧ Window s t l w.length ∧
    ∀ l' n', Window s t l' n' → w.length ≤ n' ∧ (n' = w.length → l ≤ l')

/-- What `minWindow` returns is the window that is looked for, and the empty
string stands for no window. -/
def Correct (s t : Str) : Prop :=
  ∃ turns, ∀ fuel, turns ≤ fuel → ∃ v, minWindow fuel s t = some v ∧
    (v ≠ [] → IsMinWindow s t v) ∧ (v = [] ↔ ∀ l n, ¬Window s t l n)

/-- Both functions return one string. -/
def Agree (s t : Str) : Prop :=
  ∃ turns, ∀ fuel, turns ≤ fuel → ∃ v, minWindowSelf fuel s t = some v ∧ minWindow fuel s t = some v

end Training.MinWindow
