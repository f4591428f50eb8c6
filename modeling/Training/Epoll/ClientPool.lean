/-
Training.Epoll.ClientPool — the client table of the epoll server,
`C/03_socket/04_epoll/server.c`.

Translation notes.

* Each function holds the mutex of the pool from its first access to its
  last, so a call is one step.
* A pointer to a client is the index of its slot, and the loops over the
  slots stop at the first one with the `fd`: they are `Slots.find`.
* `count` is an `int` that the code does not compare with 0, so the slots
  have an `Int` for their index; only the ones from 0 to `MAX_EVENTS - 1`
  are part of the table. `data` is the array as a function.
* The sockets, the epoll instance and the messages are left out.
-/
import Training.Lib.Slots
import Training.Lib.Machine

namespace Training.Epoll

open Training.Lib

def maxEvents : Nat := 1024

def eperm : Int := 1

structure SockaddrIn where
  sinFamily : UInt16 := 0
  sinPort : UInt16 := 0
  sinAddr : UInt32 := 0
deriving Repr, DecidableEq

structure Client where
  fd : Int := 0
  addr : SockaddrIn := {}
  recvLen : Int := 0
  data : Nat → UInt8 := fun _ => 0

structure ClientPool where
  count : Int := 0
  clients : Int → Client := fun _ => {}

def initClient (client : Client) : Client := { client with recvLen := 0, data := fun _ => 0 }

/-- `client_pool.clients[i] = client` -/
def ClientPool.store (pool : ClientPool) (i : Int) (client : Client) : ClientPool :=
  { pool with clients := Function.update pool.clients i client }

def findClient (fd : Int) (pool : ClientPool) : Option Nat :=
  Slots.find Client.fd pool.clients maxEvents fd

def addClient (fd : Int) (addr : SockaddrIn) (pool : ClientPool) : Int × ClientPool :=
  if pool.count ≥ maxEvents then (-eperm, pool)
  else
    let client := initClient { pool.clients pool.count with fd := fd, addr := addr }
    (0, { pool.store pool.count client with count := pool.count + 1 })

/-- The last client is moved to the slot `i`. -/
def ClientPool.vacate (pool : ClientPool) (i : Nat) : ClientPool :=
  let moved :=
    if (i : Int) < pool.count - 1 then pool.store i (pool.clients (pool.count - 1)) else pool
  { moved with count := pool.count - 1 }

def removeClient (fd : Int) (pool : ClientPool) : ClientPool :=
  (Slots.find Client.fd pool.clients maxEvents fd).elim pool pool.vacate

/-! ## Runs -/

inductive Event where
  | add (fd : Int) (addr : SockaddrIn)
  | remove (fd : Int)
  | find (fd : Int)
deriving Repr, DecidableEq

/-- The pool, and the descriptors that were added and not removed since. -/
structure State where
  pool : ClientPool := {}
  live : List Int := []

def step (s : State) : Event → State
  | .add fd addr =>
      let added := addClient fd addr s.pool
      { pool := added.2, live := if added.1 = 0 then fd :: s.live else s.live }
  | .remove fd => { pool := removeClient fd s.pool, live := s.live.erase fd }
  | .find _ => s

/-- Descriptors are positive, and the kernel does not give out one that is
in the table. -/
def Granted (s : State) : Event → Prop
  | .add fd _ => 0 < fd ∧ fd ∉ s.live
  | .remove fd => 0 < fd
  | .find fd => 0 < fd

/-- What the table owes the caller. -/
def Answers (s : State) : Event → Prop
  | .add .. => True
  | .remove fd => fd ∉ s.live → removeClient fd s.pool = s.pool
  | .find fd => (findClient fd s.pool).isSome ↔ fd ∈ s.live

structure Right (s : State) (e : Event) : Prop where
  answers : Answers s e
  count : (step s e).pool.count = (step s e).live.length

/-- A vacated slot has the descriptor. -/
def Vacated (pool : ClientPool) (fd : Int) : Prop :=
  ∃ i : Nat, pool.count ≤ i ∧ i < maxEvents ∧ (pool.clients i).fd = fd

/-- A descriptor that is looked up or removed is live or in no vacated slot. -/
def Unstale (s : State) : Event → Prop
  | .add .. => True
  | .remove fd => fd ∉ s.live → ¬ Vacated s.pool fd
  | .find fd => fd ∉ s.live → ¬ Vacated s.pool fd

end Training.Epoll
