/-
Training.Rpc.Server — the receive path of the RPC server,
`C/04_tools/04_rpc/server.c`: `epoll_recv` with `recv_head`, `recv_data`
and `switch_cmd`, for one connection.

Translation notes.

* `read` is `Training.Lib.Reads`: an argument of `epollRecv` lists the
  outcomes of the reads of the call. A `read` that asks for more than
  SSIZE_MAX bytes, as one with a negative count does, fails (on Linux,
  which `epoll` is of). `calloc` may fail; `mem` says for which sizes it
  does not.
* `head` and what `data` points to are functions from offsets to bytes.
  Nothing keeps a `read` of the code inside the allocation: a piece that
  does not fit sets `overflow`, and there the model ends.
* `head_total_size` is `PACKAGE_HEAD_LEN` in every record and is not
  assigned after `init_client`. `body_recv_size` and `head_recv_size` are
  sums of what reads returned, and natural numbers here.
* `remove_client` frees `data` and sets it to `NULL`, so a record that is
  used again starts as a new one. The other fields a removal moves around
  belong to other connections.
* The test `data_len > 0xffffffff` is false for every `uint32_t`.
* What `switch_cmd` answers does not depend on the request; `answers` has
  the answers to come with the outcomes of their writes. `dispatched` is
  the data `switch_cmd` is called with, `responses` the answers given, with
  the bytes of each that the socket has taken, and `sent` these bytes.
* What reads returned, the calls of `read` and the assignments to the
  record are logged in `received`, `requests` and `records`, which the
  code never reads.
-/
import Training.Lib.Reads
import Training.Rpc.Response
import Training.Udp.RingBuffer

namespace Training.Rpc

open Training.Lib
open Training.Udp (memcpy bytesAt)

/-! ## The record -/

/-- What `calloc` returned. -/
structure Alloc where
  size : Nat
  bytes : Nat → UInt8

structure Client where
  headReady : Bool
  headRecvSize : Nat
  bodyReady : Bool
  bodyTotalSize : Int
  bodyRecvSize : Nat
  head : Nat → UInt8
  data : Option Alloc

/-- A record of the static table, before it is used. -/
def Client.zero : Client where
  headReady := false
  headRecvSize := 0
  bodyReady := false
  bodyTotalSize := 0
  bodyRecvSize := 0
  head := fun _ => 0
  data := none

/-- `init_client`: the counters are reset, `data` stays. -/
def initClient (client : Client) : Client :=
  { client with
    headReady := false
    headRecvSize := 0
    bodyReady := false
    bodyTotalSize := -1
    bodyRecvSize := 0 }

/-- The length the header in the record announces. -/
def Client.announced (client : Client) : Nat :=
  dataLen (bytesAt client.head 0 packageHeadLen)

/-- A call of `read`: what it asks for, and the bytes between the place it
writes to and the end of the buffer. -/
structure Request where
  count : Int
  room : Int

/-- An answer, and the bytes of it that have been written. -/
structure Response where
  answer : Answer
  written : List UInt8

structure Conn where
  client : Client
  /-- the descriptor is open and the record in the table -/
  connected : Bool
  source : Source UInt8
  outcomes : List Outcome
  overflow : Bool
  /-- `data` at each call of `switch_cmd`, up to `body_total_size` -/
  dispatched : List (List UInt8)
  answers : List Answer
  sent : List UInt8
  responses : List Response
  received : List UInt8
  requests : List Request
  records : List Client

/-- `add_client` for a new connection. -/
def Conn.init (source : Source UInt8) : Conn where
  client := initClient .zero
  connected := true
  source := source
  outcomes := []
  overflow := false
  dispatched := []
  answers := []
  sent := []
  responses := []
  received := []
  requests := []
  records := []

/-- The connection will be answered with `answers`. -/
def Conn.answering (c : Conn) (answers : List Answer) : Conn := { c with answers }

/-- More bytes arrive. -/
def Conn.arrive (c : Conn) (bytes : List UInt8) : Conn :=
  { c with source := { c.source with unread := c.source.unread ++ bytes } }

/-- An assignment to the record. -/
def Conn.assign (c : Conn) (client : Client) : Conn :=
  { c with client, records := c.records ++ [client] }

/-- `epoll_del_fd` and `remove_client`. -/
def Conn.remove (c : Conn) : Conn :=
  { c with connected := false, client := { c.client with data := none } }

/-- The conversion of an `int` to `size_t`. -/
def sizeT (count : Int) : Nat := (count % 18446744073709551616).toNat

def ssizeMax : Nat := 9223372036854775807

/-! ## Receiving -/

inductive Errno where
  | again
  | intr
  | perm
  | inval
  | nomem
  | other
  deriving DecidableEq, Repr

/-- 0, or `-errno`. -/
inductive Rc where
  | ok
  | failed (errno : Errno)
  deriving DecidableEq, Repr

/-- A call of `read`, and the branches behind it for an error and for 0,
which `recv_head` and `recv_data` have in common. -/
def Conn.recv (c : Conn) (count room : Int) : Except (Errno × Conn) (List UInt8 × Conn) :=
  let c := { c with requests := c.requests ++ [Request.mk count room] }
  if ssizeMax < sizeT count then .error (.other, c.remove)
  else
    let (got, source) := c.source.read (c.outcomes.headD .whole) (sizeT count)
    let c := { c with source, outcomes := c.outcomes.tail }
    match got with
    | .elems bs => .ok (bs, { c with received := c.received ++ bs })
    | .eof => .error (.perm, c.remove)
    | .again => .error (.again, c)
    | .intr => .error (.intr, c)
    | .error => .error (.other, c.remove)

/-- `recv_head` once the header is there. -/
def headDone (mem : Nat → Bool) (c : Conn) (client : Client) : Rc × Conn :=
  let len := client.announced
  match client.data with
  | some _ =>
      (.ok, c.assign { client with headReady := true, bodyTotalSize := intOfUInt32 len })
  | none =>
      if mem len then
        (.ok, c.assign { client with
          headReady := true
          data := some { size := len, bytes := fun _ => 0 }
          bodyTotalSize := intOfUInt32 len })
      else (.failed .nomem, ({ c with client }).remove)

/-- `head` with the bytes of a read. -/
def Client.storeHead (client : Client) (bs : List UInt8) : Client :=
  { client with
    head := memcpy client.head client.headRecvSize bs
    headRecvSize := client.headRecvSize + bs.length }

/-- The loop of `recv_head`; every turn reads a byte at least. -/
def recvHeadLoop (mem : Nat → Bool) : Nat → Conn → Rc × Conn
  | 0, c => (.failed .again, c)
  | fuel + 1, c =>
      let count := packageHeadLen - c.client.headRecvSize
      match c.recv count count with
      | .error (errno, c) => (.failed errno, c)
      | .ok (bs, c) =>
          let client := c.client.storeHead bs
          if client.headRecvSize = packageHeadLen then headDone mem c client
          else recvHeadLoop mem fuel (c.assign client)

def recvHead (mem : Nat → Bool) (c : Conn) : Rc × Conn :=
  if c.client.headRecvSize = packageHeadLen then (.ok, c)
  else recvHeadLoop mem packageHeadLen c

/-- The bytes from `client->data + body_recv_size` to the end of the
allocation. -/
def Client.room (client : Client) : Int :=
  match client.data with
  | some a => (a.size : Int) - client.bodyRecvSize
  | none => 0

/-- `data` with the bytes of a read. -/
def Client.store (client : Client) (bs : List UInt8) : Client :=
  { client with
    data := client.data.map fun a => { a with bytes := memcpy a.bytes client.bodyRecvSize bs }
    bodyRecvSize := client.bodyRecvSize + bs.length }

/-- The loop of `recv_data`; every turn reads a byte at least. -/
def recvDataLoop : Nat → Conn → Rc × Conn
  | 0, c => (.failed .again, c)
  | fuel + 1, c =>
      match c.recv (c.client.bodyTotalSize - c.client.bodyRecvSize) c.client.room with
      | .error (errno, c) => (.failed errno, c)
      | .ok (bs, c) =>
          if c.client.room < bs.length then (.failed .other, { c with overflow := true })
          else
            let client := c.client.store bs
            if (client.bodyRecvSize : Int) = client.bodyTotalSize then
              (.ok, c.assign { client with bodyReady := true })
            else if client.bodyRecvSize < client.bodyTotalSize then
              recvDataLoop fuel (c.assign client)
            else (.failed .inval, (c.assign client).remove)

def recvData (c : Conn) : Rc × Conn :=
  if c.client.bodyTotalSize = c.client.bodyRecvSize then (.ok, c)
  else recvDataLoop ((c.client.bodyTotalSize - c.client.bodyRecvSize).toNat + 1) c

/-- The data `switch_cmd` finds. -/
def Client.request (client : Client) : List UInt8 :=
  match client.data with
  | some a => bytesAt a.bytes 0 client.bodyTotalSize.toNat
  | none => []

/-- The response: the result of sending it is not looked at. -/
def Conn.respond (c : Conn) : Conn :=
  let answer := c.answers.headD { msg := [], granted := true, outcomes := [] }
  let written := (serverStreamCallPackAndSend answer).2
  { c with
    answers := c.answers.tail
    sent := c.sent ++ written
    responses := c.responses ++ [{ answer, written }] }

def switchCmd (c : Conn) : Conn :=
  let c := { c with dispatched := c.dispatched ++ [c.client.request] }
  let c := c.respond
  c.assign (initClient c.client)

/-- `epoll_recv` past its `recv_head`. -/
def epollRecvBody (c : Conn) : Conn :=
  let (rc, c) := if c.client.bodyReady then (.ok, c) else recvData c
  if rc ≠ .ok then c
  else if c.client.headReady && c.client.bodyReady then switchCmd c
  else c

/-- The outcomes of the reads of a call. -/
def Conn.event (c : Conn) (outcomes : List Outcome) : Conn := { c with outcomes }

/-- `epoll_recv`, with the outcomes of its reads. -/
def epollRecv (mem : Nat → Bool) (outcomes : List Outcome) (c : Conn) : Conn :=
  if c.overflow || !c.connected then c
  else
    let c := c.event outcomes
    let (rc, c) := if c.client.headReady then (.ok, c) else recvHead mem c
    if rc ≠ .ok then c else epollRecvBody c

end Training.Rpc
