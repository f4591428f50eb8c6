/-
Training.HttpServer.Decode — the percent-decoding of the server,
`url_decode` in
`Warehouse/C/C-套接字（CS模型代码）/C-HttpServer-Socket/server.c`.

Translation notes.

* The source is its bytes with the terminator; a pointer into it is the rest
  of them, and to read behind the terminator gives `none`.
* The result is what has been written from `dest` on, and where `p` is then.
* `strtoul(code, NULL, 16)` skips white space, takes a sign and `0x` in front
  of a digit, and ends at the first character that is no digit. A minus sign
  negates the number modulo 2^64, and the cast to `char` keeps the low byte.
-/
import Mathlib.Algebra.Ring.Nat
import Training.HttpServer.Request

namespace Training.HttpServer

def hexDigit (c : UInt8) : Option Nat :=
  if 48 ≤ c.toNat ∧ c.toNat ≤ 57 then some (c.toNat - 48)
  else if 97 ≤ c.toNat ∧ c.toNat ≤ 102 then some (c.toNat - 87)
  else if 65 ≤ c.toNat ∧ c.toNat ≤ 70 then some (c.toNat - 55)
  else none

/-- `v`, with the digits at the start of the string behind it. -/
def hexNumber (v : Nat) : List UInt8 → Nat
  | [] => v
  | c :: s => (hexDigit c).elim v fun d => hexNumber (16 * v + d) s

def skipRadix : List UInt8 → List UInt8
  | z :: x :: d :: s =>
      if z = 48 ∧ (x = 120 ∨ x = 88) ∧ (hexDigit d).isSome then d :: s else z :: x :: d :: s
  | s => s

/-- `strtoul` of base 16. -/
def strtoul (s : List UInt8) : Nat :=
  let s := s.dropWhile isSpace
  let minus := s.head? = some 45
  let s := if s.head? = some 45 ∨ s.head? = some 43 then s.tail else s
  let v := hexNumber 0 (skipRadix s)
  if 2 ^ 64 ≤ v then 2 ^ 64 - 1
  else if minus then (2 ^ 64 - v) % 2 ^ 64
  else v

/-- `'%'` -/
def percent : UInt8 := 37

/-- `'?'` -/
def question : UInt8 := 63

def urlDecode : List UInt8 → Option (List UInt8 × List UInt8)
  | [] => none
  | c :: p =>
      if c = 0 ∨ c = question then some ([0], c :: p)
      else if c = percent then
        match p with
        | a :: b :: p => do
            let (dest, q) ← urlDecode p
            return (UInt8.ofNat (strtoul [a, b, 0]) :: dest, q)
        | _ => none
      else do
        let (dest, q) ← urlDecode p
        return (c :: dest, q)

/-! ## What it is for -/

/-- A string, without its terminator. -/
structure CString where
  bytes : List UInt8
  nonzero : 0 ∉ bytes

/-- What the scan steps over: escapes of three characters, and others that are
neither `%` nor `?`. -/
inductive Pieces : List UInt8 → Prop
  | nil : Pieces []
  | escape (a b : UInt8) {s : List UInt8} (h : Pieces s) : Pieces (percent :: a :: b :: s)
  | plain {c : UInt8} (hp : c ≠ percent) (hq : c ≠ question) {s : List UInt8} (h : Pieces s) :
      Pieces (c :: s)

/-- Behind every `%` there are two digits. -/
def WellEscaped (s : List UInt8) : Prop :=
  ∀ before t, s = before ++ percent :: t →
    ∃ a b u, t = a :: b :: u ∧ (hexDigit a).isSome ∧ (hexDigit b).isSome

def percentDecode : List UInt8 → List UInt8
  | [] => []
  | c :: s =>
      if c = percent then
        match s with
        | a :: b :: s =>
            UInt8.ofNat (16 * (hexDigit a).getD 0 + (hexDigit b).getD 0) :: percentDecode s
        | s => c :: s
      else c :: percentDecode s

/-- The decoding of `before`, up to the terminator or the first `?` outside an
escape, with no access behind the terminator. -/
structure DecodedUpTo (s dest p before after : List UInt8) : Prop where
  source : s = before ++ after
  pieces : Pieces before
  stop : after = [] ∨ after.head? = some question
  stopped : p = after ++ [0]
  short : dest.length ≤ before.length + 1
  decoded : WellEscaped s → dest = percentDecode before ++ [0]

def Decodes (s : CString) : Prop :=
  ∃ dest p before after, urlDecode (s.bytes ++ [0]) = some (dest, p) ∧
    DecodedUpTo s.bytes dest p before after

/-! ## When it does it -/

/-- Each escape that the scan comes to has two characters behind its `%`. -/
def EscapesWhole (s : List UInt8) : Prop :=
  ∀ before t, Pieces before → s = before ++ percent :: t → 2 ≤ t.length

end Training.HttpServer
