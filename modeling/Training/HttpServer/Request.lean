/-
Training.HttpServer.Request — how the server takes a request line apart,
`Warehouse/C/C-套接字（CS模型代码）/C-HttpServer-Socket/server.c`.

Translation notes.

* A pointer into a buffer is the rest of the buffer from there on; the one
  behind the last byte is the empty list, and to read through it gives
  `none`. A store outside an array gives `none` as well.
* What `recv` has put into the buffer is a list of bytes, the empty one when
  it returns 0 or less.
* `isspace` is 0 of a negative character.
* Of the calls of `printf` only what they read is kept. `unimplemented`,
  `not_found`, the files and the sockets are left out.
-/
import Training.Lib.Arrays

namespace Training.HttpServer

open Training.Lib.Arrays

def maxRequestLen : Nat := 2048

def maxMethodLen : Nat := 32

def maxUriLen : Nat := 256

/-- The blank, and `\t` to `\r`. -/
def isSpace (c : UInt8) : Bool := decide (c = 32 ∨ (9 ≤ c ∧ c ≤ 13))

/-- What `%s` prints. -/
def readString : List UInt8 → Option (List UInt8)
  | [] => none
  | c :: cur => if c = 0 then some [] else (readString cur).map fun s => c :: s

/-- `while (i < max && !isspace(*cur)) out[i++] = *cur++` -/
def copyToken (max : Nat) (out : List UInt8) (i : Nat) :
    List UInt8 → Option (List UInt8 × Nat × List UInt8)
  | [] => if i < max then none else some (out, i, [])
  | c :: cur =>
      if i < max ∧ isSpace c = false then
        (write out i c).bind fun out => copyToken max out (i + 1) cur
      else some (out, i, c :: cur)

/-- `while (isspace(*cur)) cur++` -/
def skipSpaces : List UInt8 → Option (List UInt8)
  | [] => none
  | c :: cur => if isSpace c then skipSpaces cur else some (c :: cur)

/-- A token with its terminator, and where `cur` is then. -/
def storeToken (max : Nat) (out cur : List UInt8) : Option (List UInt8 × List UInt8) := do
  let (out, i, cur) ← copyToken max out 0 cur
  let out ← write out i 0
  return (out, cur)

structure Parsed where
  ret : Int
  method : List UInt8
  uri : List UInt8

/-- `char buff[MAX_REQUEST_LEN] = {0}` after `recv`. -/
def buffer (received : List UInt8) : List UInt8 :=
  received ++ List.replicate (maxRequestLen - received.length) 0

def parseRequest (received method uri : List UInt8) : Option Parsed := do
  if received.length = 0 then return { ret := -1, method, uri }
  let buff := buffer received
  let _ ← readString buff
  let (method, cur) ← storeToken maxMethodLen method buff
  let cur ← skipSpaces cur
  let (uri, _) ← storeToken maxUriLen uri cur
  let _ ← readString method
  let _ ← readString uri
  return { ret := 0, method, uri }

/-! ## What it is for -/

/-- What has been received. -/
structure Request where
  bytes : List UInt8
  nonempty : bytes ≠ []
  fits : bytes.length ≤ maxRequestLen

/-- In the arrays of the caller there are two strings then, and no access was
outside them or outside the buffer. -/
def ParsesInside (request : Request) : Prop :=
  ∀ method uri : List UInt8, method.length = maxMethodLen → uri.length = maxUriLen →
    ∃ method' uri', parseRequest request.bytes method uri =
        some { ret := 0, method := method', uri := uri' } ∧
      (method'.length = maxMethodLen ∧ 0 ∈ method') ∧ uri'.length = maxUriLen ∧ 0 ∈ uri'

/-! ## When it does it -/

/-- A token that fits, with white space behind it. -/
structure TokenAt (max : Nat) (token cur : List UInt8) : Prop where
  fits : token.length < max
  visible : ∀ c ∈ token, isSpace c = false
  ends : ∃ c rest, cur = c :: rest ∧ isSpace c = true

/-- A method, white space, and an URI that is not empty, each of them short
enough and with white space behind it, and a NUL anywhere. -/
def Separated (buff : List UInt8) : Prop :=
  0 ∈ buff ∧ ∃ method spaces uri rest, buff = method ++ spaces ++ uri ++ rest ∧
    (spaces ≠ [] ∧ ∀ c ∈ spaces, isSpace c = true) ∧ uri ≠ [] ∧
    TokenAt maxMethodLen method (spaces ++ uri ++ rest) ∧ TokenAt maxUriLen uri rest

end Training.HttpServer
