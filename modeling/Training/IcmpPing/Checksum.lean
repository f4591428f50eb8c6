/-
Training.IcmpPing.Checksum — the checksum of the ping,
`C/99_demo/04_icmp_ping/test_main.c`.

Translation notes.

* A packet is its bytes. Numbers of more than one byte are stored in the
  order of the host, which is a parameter.
* The `int` that `checksum` returns has the bits of `sum`.
* `struct icmp` has 28 bytes. The sockets, the name service, the replies and
  the log are left out.
-/
import Mathlib.Algebra.Ring.Nat
import Training.Lib.Words

namespace Training.IcmpPing

open Training.Lib

inductive ByteOrder
  | little
  | big
  deriving DecidableEq

/-- The `k` bytes of a number in memory. -/
def bytesOf (order : ByteOrder) (k n : Nat) : List UInt8 :=
  match order with
  | .little => toBytesLE k n
  | .big => (toBytesLE k n).reverse

/-- The `unsigned short` that two bytes are. -/
def short (order : ByteOrder) (a b : UInt8) : UInt16 :=
  match order with
  | .little => UInt16.ofNat (ofBytesLE [a, b])
  | .big => UInt16.ofNat (ofBytesLE [b, a])

/-- The loop, with the byte that may be left over. -/
def addShorts (order : ByteOrder) (sum : UInt32) : List UInt8 → UInt32
  | a :: b :: buf => addShorts order (sum + (short order a b).toUInt32) buf
  | [a] => sum + a.toUInt32
  | [] => sum

def checksum (order : ByteOrder) (b : List UInt8) : UInt32 :=
  let sum := addShorts order 0 b
  let sum := (sum >>> 16) + (sum &&& 0xffff)
  let sum := sum + (sum >>> 16)
  ~~~sum

def storeAt (packet : List UInt8) (off : Nat) (bytes : List UInt8) : List UInt8 :=
  packet.take off ++ bytes ++ packet.drop (off + bytes.length)

def storeShort (order : ByteOrder) (packet : List UInt8) (off : Nat) (v : UInt16) : List UInt8 :=
  storeAt packet off (bytesOf order 2 v.toNat)

/-- `checksum` of the packet, with zeros in the field, is stored in the
field. -/
def sealAt (order : ByteOrder) (off : Nat) (packet : List UInt8) : List UInt8 :=
  let packet := storeShort order packet off 0
  storeShort order packet off (checksum order packet).toUInt16

def pktSize : Nat := 92

def icmpEcho : UInt8 := 8

structure Timeval where
  sec : UInt64
  usec : UInt64

/-- `icmp_type`, `icmp_code`, `icmp_id` and `icmp_seq`. -/
def storeHeader (order : ByteOrder) (icmpPkt : List UInt8) (pid : UInt32) : List UInt8 :=
  let pkt := storeAt icmpPkt 0 [icmpEcho]
  let pkt := storeAt pkt 1 [0]
  let pkt := storeShort order pkt 4 pid.toUInt16
  storeShort order pkt 6 0

/-- The field of the checksum is at 2, and the data of the packet at 8. -/
def createPacket (order : ByteOrder) (icmpPkt : List UInt8) (pid : UInt32) (tv : Timeval) :
    List UInt8 :=
  let pkt := storeHeader order icmpPkt pid
  let pkt := storeShort order pkt 2 0
  let pkt := storeAt pkt 8 (bytesOf order 8 tv.sec.toNat)
  let pkt := storeAt pkt 16 (bytesOf order 8 tv.usec.toNat)
  storeShort order pkt 2 (checksum order pkt).toUInt16

/-! ## What it is for -/

/-- The sum of the shorts, without a bound. -/
def shortSum (order : ByteOrder) : List UInt8 → Nat
  | a :: b :: buf => (short order a b).toNat + shortSum order buf
  | [a] => a.toNat
  | [] => 0

/-- The sum is exact after each part of the packet. -/
def ExactSums (order : ByteOrder) (packet : List UInt8) : Prop :=
  ∀ k, (addShorts order 0 (packet.take k)).toNat = shortSum order (packet.take k)

end Training.IcmpPing
