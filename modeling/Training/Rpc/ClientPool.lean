/-
Training.Rpc.ClientPool — the client table of the RPC server,
`C/04_tools/04_rpc/server.c`, with the buffers its records point to.

* `addClient`, `removeClient`, `findClient`, `epollRecv` — the functions
  over the array of slots.
* `Reference` — a finite map from descriptors to records.

Translation notes.

* One thread runs the event loop, so each call is one step. A pointer to a
  client is the index of its slot, and the loops over the slots stop at the
  first one with the `fd`: they are `Slots.find`.
* `data` is an address, 0 for `NULL`. `heap` has the addresses `calloc`
  gave out and `free` did not take back, `freed` the calls of `free` in
  their order, and `faulted` is set by a `free` of anything else. The bytes
  of a body go to `data`, and are in `Training.Rpc.Server`.
* `epollRecv` reads as `Training.Rpc.Server` has it, with the results of
  its reads and the result of `calloc` as arguments; where the list of the
  results ends there is nothing to read yet. `head_total_size` is
  `PACKAGE_HEAD_LEN` in every record that is used.
* The second test of the `fd` in `epoll_recv` cannot fail.
-/
import Training.Lib.Slots
import Training.Lib.Machine
import Training.Rpc.Frame
import Training.Udp.RingBuffer
import Mathlib.Data.Finmap

namespace Training.Rpc.Table

open Training.Lib
open Training.Udp (memcpy bytesAt)

def maxEvents : Nat := 1024

def eperm : Int := 1

structure SockaddrIn where
  sinFamily : UInt16 := 0
  sinPort : UInt16 := 0
  sinAddr : UInt32 := 0
deriving Repr, DecidableEq

/-- A record, as the static table has it before it is used. -/
structure Client where
  fd : Int := 0
  addr : SockaddrIn := {}
  headReady : Bool := false
  headRecvSize : Nat := 0
  bodyReady : Bool := false
  bodyTotalSize : Int := 0
  bodyRecvSize : Int := 0
  head : Nat → UInt8 := fun _ => 0
  data : Nat := 0

def initClient (client : Client) : Client :=
  { client with
    headReady := false
    headRecvSize := 0
    bodyReady := false
    bodyTotalSize := -1
    bodyRecvSize := 0 }

/-- The record with the bytes of `head` that were received. -/
def Client.known (client : Client) : Client :=
  { client with head := fun k => if k < client.headRecvSize then client.head k else 0 }

/-! ## Receiving -/

/-- What a `read` returns: bytes, none at the end of the stream; `EAGAIN` or
`EINTR`; another error. -/
inductive ReadResult where
  | got (bytes : List UInt8)
  | again
  | failed
deriving Repr, DecidableEq

/-- 0; an error after which the client stays; an error after which
`remove_client` is called. -/
inductive Status where
  | ok
  | again
  | gone
deriving Repr, DecidableEq

/-- A record after a receive function, the reads to come, and what `calloc`
gave out. -/
structure Recv where
  client : Client
  status : Status
  reads : List ReadResult
  took : List Nat := []

/-- `recv_head` once the header is there. -/
def headDone (p : Nat) (client : Client) (reads : List ReadResult) : Recv :=
  let total := intOfUInt32 (dataLen (bytesAt client.head 0 packageHeadLen))
  let client := { client with headReady := true }
  if client.data = 0 then
    if p = 0 then { client, status := .gone, reads }
    else
      { client := { client with data := p, bodyTotalSize := total }, status := .ok, reads,
        took := [p] }
  else { client := { client with bodyTotalSize := total }, status := .ok, reads }

/-- `head` with the bytes of a read. -/
def Client.storeHead (client : Client) (bytes : List UInt8) : Client :=
  { client with
    head := memcpy client.head client.headRecvSize bytes
    headRecvSize := client.headRecvSize + bytes.length }

def recvHeadLoop (p : Nat) (client : Client) : List ReadResult → Recv
  | [] => { client, status := .again, reads := [] }
  | .again :: reads => { client, status := .again, reads }
  | .failed :: reads => { client, status := .gone, reads }
  | .got bytes :: reads =>
      let bytes := bytes.take (packageHeadLen - client.headRecvSize)
      if bytes.isEmpty then { client, status := .gone, reads }
      else
        let client := client.storeHead bytes
        if client.headRecvSize = packageHeadLen then headDone p client reads
        else recvHeadLoop p client reads

def recvHead (p : Nat) (client : Client) (reads : List ReadResult) : Recv :=
  if client.headRecvSize = packageHeadLen then { client, status := .ok, reads }
  else recvHeadLoop p client reads

/-- A `read` of a negative count fails. -/
def recvDataLoop (client : Client) : List ReadResult → Recv
  | [] => { client, status := .again, reads := [] }
  | .again :: reads => { client, status := .again, reads }
  | .failed :: reads => { client, status := .gone, reads }
  | .got bytes :: reads =>
      let len := client.bodyTotalSize - client.bodyRecvSize
      let bytes := bytes.take len.toNat
      if bytes.isEmpty then { client, status := .gone, reads }
      else
        let client := { client with bodyRecvSize := client.bodyRecvSize + bytes.length }
        if client.bodyRecvSize = client.bodyTotalSize then
          { client := { client with bodyReady := true }, status := .ok, reads }
        else if client.bodyRecvSize < client.bodyTotalSize then recvDataLoop client reads
        else { client, status := .gone, reads }

def recvData (client : Client) (reads : List ReadResult) : Recv :=
  if client.bodyTotalSize = client.bodyRecvSize then { client, status := .ok, reads }
  else recvDataLoop client reads

/-- The next receive function, unless the one before failed. -/
def Recv.andThen (r : Recv) (next : Client → List ReadResult → Recv) : Recv :=
  if r.status = .ok then
    let s := next r.client r.reads
    { s with took := r.took ++ s.took }
  else r

/-- `switch_cmd`, for a request that is complete. -/
def dispatch (client : Client) (reads : List ReadResult) : Recv :=
  { client := if client.headReady && client.bodyReady then initClient client else client,
    status := .ok, reads }

/-- `epoll_recv` behind its `find_client`. -/
def receive (p : Nat) (client : Client) (reads : List ReadResult) : Recv :=
  let head := if client.headReady then { client, status := .ok, reads } else recvHead p client reads
  (head.andThen fun client reads =>
    if client.bodyReady then { client, status := .ok, reads } else recvData client reads).andThen
      dispatch

/-! ## The table -/

structure State where
  count : Int := 0
  clients : Int → Client := fun _ => {}
  heap : List Nat := []
  freed : List Nat := []
  faulted : Bool := false

/-- `clients[i] = client` -/
def State.store (s : State) (i : Int) (client : Client) : State :=
  { s with clients := Function.update s.clients i client }

/-- `SAFE_FREE`; the caller sets the pointer. -/
def State.safeFree (s : State) (p : Nat) : State :=
  if p = 0 then s
  else
    { s with
      heap := s.heap.erase p
      freed := s.freed ++ [p]
      faulted := s.faulted || p ∉ s.heap }

def findClient (fd : Int) (s : State) : Option Nat :=
  Slots.find Client.fd s.clients maxEvents fd

def addClient (fd : Int) (addr : SockaddrIn) (s : State) : Int × State :=
  if s.count ≥ maxEvents then (-eperm, s)
  else
    let client := initClient { s.clients s.count with fd := fd, addr := addr }
    (0, { s.store s.count client with count := s.count + 1 })

/-- What `remove_client` leaves in a slot that is not used any more. -/
def Client.cleared (client : Client) : Client :=
  { client with fd := -1, addr := {}, data := 0 }

/-- The client in the slot `i` is removed, and the last one has its slot. -/
def State.vacate (s : State) (i : Nat) : State :=
  let s := (s.safeFree (s.clients i).data).store i (s.clients i).cleared
  let last := s.count - 1
  let s :=
    if (i : Int) < last then
      (s.store i (s.clients last)).store last (initClient (s.clients last)).cleared
    else s
  { s with count := last }

def removeClient (fd : Int) (s : State) : State :=
  (Slots.find Client.fd s.clients maxEvents fd).elim s s.vacate

/-- The record in the slot `i` after `receive`. -/
def State.received (s : State) (i : Nat) (r : Recv) : State :=
  { s.store i r.client with heap := r.took ++ s.heap }

def epollRecv (fd : Int) (p : Nat) (reads : List ReadResult) (s : State) : State :=
  (findClient fd s).elim s fun i =>
    let r := receive p (s.clients i) reads
    let s := s.received i r
    if r.status = .gone then removeClient fd s else s

/-! ## Runs -/

inductive Event where
  | add (fd : Int) (addr : SockaddrIn)
  | remove (fd : Int)
  | find (fd : Int)
  /-- `epoll_recv`, where `calloc` would return `p` -/
  | recv (fd : Int) (p : Nat) (reads : List ReadResult)
deriving Repr, DecidableEq

def step (s : State) : Event → State
  | .add fd addr => (addClient fd addr s).2
  | .remove fd => removeClient fd s
  | .find _ => s
  | .recv fd p reads => epollRecv fd p reads s

/-- What a call returns: an `int`, or the record behind a pointer. -/
inductive Answer where
  | none
  | int (rc : Int)
  | client (found : Option Client)

def answer (s : State) : Event → Answer
  | .add fd addr => .int (addClient fd addr s).1
  | .find fd => .client ((findClient fd s).map fun i : Nat => (s.clients i).known)
  | .remove _ | .recv .. => .none

/-- Descriptors are positive, and the kernel does not give out one that is
in the table; `calloc` does not give out memory that is allocated. -/
def Granted (s : State) : Event → Prop
  | .add fd _ => 0 < fd ∧ ∀ i : Nat, i < s.count → (s.clients i).fd ≠ fd
  | .remove fd => 0 < fd
  | .find fd => 0 < fd
  | .recv fd p _ => 0 < fd ∧ p ∉ s.heap

/-! ## The finite map -/

structure Reference where
  clients : Finmap fun _ : Int => Client := ∅
  freed : List Nat := []

def Reference.add (fd : Int) (addr : SockaddrIn) (m : Reference) : Int × Reference :=
  if maxEvents ≤ m.clients.keys.card then (-eperm, m)
  else (0, { m with clients := m.clients.insert fd (initClient { fd := fd, addr := addr }) })

/-- The buffer of the record is freed with it. -/
def Reference.remove (fd : Int) (m : Reference) : Reference :=
  match m.clients.lookup fd with
  | none => m
  | some client =>
      { clients := m.clients.erase fd,
        freed := m.freed ++ if client.data = 0 then [] else [client.data] }

def Reference.recv (fd : Int) (p : Nat) (reads : List ReadResult) (m : Reference) : Reference :=
  match m.clients.lookup fd with
  | none => m
  | some client =>
      let r := receive p client reads
      let m := { m with clients := m.clients.insert fd r.client }
      if r.status = .gone then m.remove fd else m

def Reference.step (m : Reference) : Event → Reference
  | .add fd addr => (m.add fd addr).2
  | .remove fd => m.remove fd
  | .find _ => m
  | .recv fd p reads => m.recv fd p reads

def Reference.answer (m : Reference) : Event → Answer
  | .add fd addr => .int (m.add fd addr).1
  | .find fd => .client ((m.clients.lookup fd).map Client.known)
  | .remove _ | .recv .. => .none

/-- The table has the records of the map in its first slots, and what is
allocated are their buffers. -/
structure Refines (s : State) (m : Reference) : Prop where
  lookups : ∀ fd, 0 < fd → ((findClient fd s).map fun i : Nat => (s.clients i).known) =
    (m.clients.lookup fd).map Client.known
  count : s.count = m.clients.keys.card
  live : ∀ i : Nat, i < maxEvents → ((i : Int) < s.count ↔ (s.clients i).fd ∈ m.clients)
  unshared : ∀ i j : Nat, i < maxEvents → j < maxEvents → (s.clients i).data ≠ 0 →
    (s.clients i).data = (s.clients j).data → i = j
  owned : ∀ p, p ∈ s.heap ↔
    p ≠ 0 ∧ ∃ fd client, m.clients.lookup fd = some client ∧ client.data = p
  once : s.heap.Nodup
  freed : s.freed = m.freed
  sound : s.faulted = false

end Training.Rpc.Table
