/-
Training.Udp.Flushers — `flush_buffer` run by two threads at once.

The send worker calls `flush_buffer` in its loop, and `rdt_send` calls it
while it waits for space. Nothing keeps the two calls apart: each reads a
chunk off `send_buffer`, numbers it and inserts the packet, and the other
can do the same in between. `Flusher` is where a thread is in the loop of
`flush_buffer`; the steps are the calls the loop makes, each of them
atomic.

`Training.Udp.Protocol` has the loop's iteration in one piece. That is the
run of one thread's steps with nothing in between (`iteration_alone`).

Translation notes.

* The buffer of an `rdt_send` call is a function and its length, as
  `char *buff, int len` is. The bytes are looked at when they are written.
* What the other threads do to the connection (`flush_queue`, the timer,
  datagrams, `rdt_recv`) is a step of `Peer`.
* `resend_expire_packet`, which a full window calls, is such a step too.
-/
import Training.Udp.Peer

namespace Training.Udp

open Training.Lib

/-! ## Threads -/

inductive Flushing where
  /-- in `rdt_send` -/
  | app
  | worker
  deriving DecidableEq, Repr

/-- Where a thread is in `flush_buffer`, with its locals. -/
inductive Flusher where
  /-- not in a call -/
  | out
  /-- at the head of the loop, before the window test -/
  | test
  /-- before `ringbuff_read` -/
  | read
  /-- in `make_packet`, before `get_and_update_current` -/
  | stamp (tmp : List UInt8)
  /-- before `get_and_update_seq` -/
  | number (tmp : List UInt8) (ts : Nat)
  /-- before `list_insert` -/
  | insert (packet : Packet)
  deriving DecidableEq

/-- The call of `rdt_send` the application is in. -/
structure SendCall where
  buff : Nat → UInt8
  len : Nat

structure Flushers where
  peer : Peer
  call : Option SendCall
  app : Flusher
  worker : Flusher
  /-- bytes read off `send_buffer` -/
  removed : List UInt8
  /-- chunks read off `send_buffer` and not numbered yet, oldest first -/
  held : List (Flushing × List UInt8)

def Flushers.init (cfg : Config) (seq0 : Nat) : Flushers where
  peer := Peer.init cfg seq0
  call := none
  app := .out
  worker := .out
  removed := []
  held := []

def Flushers.flusher (n : Flushers) : Flushing → Flusher
  | .app => n.app
  | .worker => n.worker

def Flushers.setFlusher (n : Flushers) (t : Flushing) (f : Flusher) : Flushers :=
  match t with
  | .app => { n with app := f }
  | .worker => { n with worker := f }

def Flushers.setRdt (n : Flushers) (rdt : Rdt) : Flushers :=
  { n with peer := { n.peer with rdt } }

/-! ## Steps -/

/-- The next step of a thread that is in `flush_buffer`. -/
def Flushers.flush (n : Flushers) (t : Flushing) (now : Nat) : Flushers :=
  match n.flusher t with
  | .out => n
  | .test =>
      if windowFull .uInt32 n.peer.rdt then n.setFlusher t .out else n.setFlusher t .read
  | .read =>
      let (sendBuffer, tmp) := ringbuffRead n.peer.rdt.sendBuffer n.peer.rdt.mtu
      let n := n.setRdt { n.peer.rdt with sendBuffer }
      if tmp.length > 0 then
        { n with removed := n.removed ++ tmp, held := n.held ++ [(t, tmp)] }.setFlusher t
          (.stamp tmp)
      else n.setFlusher t .out
  | .stamp tmp =>
      let (rdt, ts) := getAndUpdateCurrent now n.peer.rdt
      (n.setRdt rdt).setFlusher t (.number tmp ts)
  | .number tmp ts =>
      let (rdt, seq) := getAndUpdateSeq .uInt32 n.peer.rdt
      let packet : Packet := { seq, cmd := .send, ack := 0, ts, data := tmp }
      { n with
        peer := { n.peer with rdt, made := n.peer.made ++ [packet] }
        held := n.held.filter (·.1 ≠ t) }.setFlusher t (.insert packet)
  | .insert packet =>
      (n.setRdt { n.peer.rdt with sendQueue := packet :: n.peer.rdt.sendQueue }).setFlusher t .test

/-- The next step of the application in `rdt_send`: out of `flush_buffer`
it looks at the free size, and calls again or writes. -/
def Flushers.stepApp (n : Flushers) (now : Nat) : Flushers :=
  match n.app, n.call with
  | .out, none => n
  | .out, some call =>
      if call.len > ringbuffFreeSize n.peer.rdt.sendBuffer then n.setFlusher .app .test
      else
        let buff := bytesAt call.buff 0 call.len
        let (sendBuffer, numbytes) := ringbuffWrite n.peer.rdt.sendBuffer buff
        { n with
          peer := { n.peer with
            rdt := { n.peer.rdt with sendBuffer }
            accepted := n.peer.accepted ++ buff.take numbytes }
          call := none }
  | _, _ => n.flush .app now

/-- The next step of the send worker, which calls again at once. -/
def Flushers.stepWorker (n : Flushers) (now : Nat) : Flushers :=
  match n.worker with
  | .out => n.setFlusher .worker .test
  | _ => n.flush .worker now

/-- What else happens on the connection. -/
inductive Elsewhere where
  | flushQueue
  | resend (place now : Nat)
  | rdtRecv (len : Nat)
  | recv (p : Packet) (now : Nat)

def Elsewhere.act : Elsewhere → Act
  | .flushQueue => .op .flushQueue
  | .resend place now => .op (.resend place now)
  | .rdtRecv len => .op (.rdtRecv len)
  | .recv p now => .recv p now

inductive FlushAct where
  /-- the application calls `rdt_send` -/
  | call (buff : Nat → UInt8) (len : Nat)
  | app (now : Nat)
  | worker (now : Nat)
  | elsewhere (e : Elsewhere)

def Flushers.step (n : Flushers) (a : FlushAct) : Flushers :=
  if n.peer.exited then n
  else
    match a with
    | .call buff len => if n.call.isSome then n else { n with call := some { buff, len } }
    | .app now => n.stepApp now
    | .worker now => n.stepWorker now
    | .elsewhere e => { n with peer := n.peer.step .uInt32 e.act }

def Flushers.after (cfg : Config) (seq0 : Nat) (acts : List FlushAct) : Flushers :=
  run Flushers.step (Flushers.init cfg seq0) acts

/-! ## Order -/

/-- The packets in increasing order of their numbers. -/
def bySeq (packets : List Packet) : List Packet :=
  packets.mergeSort fun p q => decide (p.seq ≤ q.seq)

/-- The payloads of the packets made, in the order of their numbers, and
then what is read but not in a packet yet, are the bytes read off
`send_buffer`; these and what is left in it are the bytes written. -/
structure Flushers.InOrder (n : Flushers) : Prop where
  packets : (bySeq n.peer.made).flatMap Packet.data ++ n.held.flatMap (·.2) = n.removed
  removed : n.removed ++ n.peer.rdt.sendBuffer.contents = n.peer.accepted

/-- The thread whose next step is `get_and_update_seq`. -/
def Flushers.numbering (n : Flushers) : FlushAct → Option Flushing
  | .app _ => match n.app with
    | .number _ _ => some .app
    | _ => none
  | .worker _ => match n.worker with
    | .number _ _ => some .worker
    | _ => none
  | _ => none

/-- The chunk that gets a number is the oldest one without, and the number
is greater than every number given. -/
def NumberedInTurn (n : Flushers) (a : FlushAct) : Prop :=
  ∀ t, n.numbering a = some t →
    n.held.head?.map Prod.fst = some t ∧ ∀ p ∈ n.peer.made, p.seq < n.peer.rdt.currentSendSeq

instance (n : Flushers) (a : FlushAct) : Decidable (NumberedInTurn n a) :=
  match h : n.numbering a with
  | none => isTrue fun _ ht => nomatch h.symm.trans ht
  | some t =>
      decidable_of_iff (n.held.head?.map Prod.fst = some t ∧
          ∀ p ∈ n.peer.made, p.seq < n.peer.rdt.currentSendSeq)
        ⟨fun hc _ ht => Option.some.inj (h.symm.trans ht) ▸ hc, fun hc => hc t h⟩

end Training.Udp
