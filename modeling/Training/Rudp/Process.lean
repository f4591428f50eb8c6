/-
Training.Rudp.Process — the connections of a process, and two processes
that talk to each other.

A `Conn` is a connection record with the history of what its operations
have done; the history is never read by an operation. What all the
connections of a process share is `Shared`: the marker
`blame_packet_for_expire`, and that `exit` was called. A step on a
connection is a step of a `Peer`, which is the connection together with
what is shared; a `Process` takes such a step on any of its connections.

The send worker tests the window when it enters `flush_queue` and then
sends packet by packet. The other threads run in between: the application
in `flush_buffer` while `rdt_send` waits for space, and the receive
worker. `Conn.sending` says that the worker is inside the loop.
-/
import Mathlib.Logic.Function.Basic
import Training.Lib.Machine
import Training.Rudp.Protocol

namespace Training.Rudp

open Training.Lib
open Training.Udp (Packet Cmd Config findPacket timeDiff)

/-! ## One connection -/

structure Conn where
  rdt : Rdt
  /-- the send worker is in the loop of `flush_queue` -/
  sending : Bool
  /-- packets handed to `udt_send` -/
  sent : List Packet
  /-- sequence numbers of packets in flight that an ACK took out -/
  acked : List Nat
  /-- for each number, the retransmissions of the packet that was sent
  with it last -/
  resends : Nat → Nat
  /-- `resend_expire_packet` reached `exit (-1)` -/
  disconnected : Bool

def Conn.init (cfg : Config) (seq0 : Nat) : Conn where
  rdt := createRdt cfg seq0
  sending := false
  sent := []
  acked := []
  resends := fun _ => 0
  disconnected := false

/-- What the connections of a process share. -/
structure Shared where
  blamePacketForExpire : Nat
  exited : Bool

def Shared.init : Shared where
  blamePacketForExpire := 0
  exited := false

structure Peer where
  shared : Shared
  conn : Conn

def Peer.init (cfg : Config) (seq0 : Nat) : Peer where
  shared := .init
  conn := .init cfg seq0

inductive Act where
  | rdtSend (buff : Nat → UInt8) (len : Nat)
  /-- a turn of `flush_buffer`, by the send worker or in `rdt_send` -/
  | flushBuffer (now : Nat)
  /-- the next step of the send worker in `flush_queue` -/
  | flushQueue
  /-- `resend_expire_packet` at this place of `flight_send_queue`, with
  the two readings of the clock -/
  | resend (place now later : Nat)
  | rdtRecv (len : Nat)
  | recv (p : Packet) (now : Nat)

def Conn.flushBuffer (n : Conn) (now : Nat) : Conn :=
  { n with rdt := (flushBufferIter now n.rdt).1 }

/-- The worker enters `flush_queue` when `send_queue` is not empty and,
past the window test, sends until it is. -/
def Conn.flushQueue (n : Conn) : Conn :=
  if n.sending then
    match flushQueueIter n.rdt with
    | none => { n with sending := false }
    | some (rdt, packet) =>
        { n with
          rdt
          sent := n.sent ++ [packet]
          resends :=
            if packet.cmd = .send then Function.update n.resends packet.seq 0 else n.resends }
  else if n.rdt.sendQueue.isEmpty || windowFull n.rdt then n
  else { n with sending := true }

/-- The timer check is the send worker's, outside `flush_queue`. -/
def Peer.resend (n : Peer) (place now later : Nat) : Peer :=
  if n.conn.sending then n
  else
    match n.conn.rdt.flightSendQueue[place]? with
    | none => n
    | some position =>
        if timeDiff now position.ts > packetExpireTime then
          let (packet, blame, rdt, exited) :=
            resendPacket later n.shared.blamePacketForExpire n.conn.rdt position
          { shared := { blamePacketForExpire := blame, exited }
            conn := { n.conn with
              rdt := { rdt with flightSendQueue := rdt.flightSendQueue.set place packet }
              sent := n.conn.sent ++ [packet]
              resends := Function.update n.conn.resends position.seq
                (n.conn.resends position.seq + 1)
              disconnected := exited } }
        else n

def Peer.recvAck (n : Peer) (ack : Nat) : Peer :=
  let (blame, rdt) := Rudp.recvAck n.shared.blamePacketForExpire n.conn.rdt ack
  { shared := { n.shared with blamePacketForExpire := blame }
    conn := { n.conn with
      rdt
      acked :=
        if (findPacket n.conn.rdt.flightSendQueue ack).isSome then n.conn.acked ++ [ack]
        else n.conn.acked } }

/-- The handling of one datagram by `recv_worker_thread`. -/
def Peer.recv (n : Peer) (p : Packet) (now : Nat) : Peer :=
  match p.cmd with
  | .ack => n.recvAck p.ack
  | .send | .test => { n with conn := { n.conn with rdt := recvData now n.conn.rdt p } }
  | .null => n

def Peer.step (n : Peer) (a : Act) : Peer :=
  if n.shared.exited then n
  else
    match a with
    | .rdtSend buff len =>
        { n with conn := { n.conn with rdt := Rudp.rdtSend n.conn.rdt buff len } }
    | .flushBuffer now => { n with conn := n.conn.flushBuffer now }
    | .flushQueue => { n with conn := n.conn.flushQueue }
    | .resend place now later => n.resend place now later
    | .rdtRecv len => { n with conn := { n.conn with rdt := Rudp.rdtRecv n.conn.rdt len } }
    | .recv p now => n.recv p now

/-! ## The connections of a process -/

variable {ι : Type} [DecidableEq ι]

structure Process (ι : Type) where
  shared : Shared
  conn : ι → Conn

def Process.init (cfg : Config) (seq0 : ι → Nat) : Process ι where
  shared := .init
  conn := fun c => .init cfg (seq0 c)

/-- A connection of a process and what it shares with the others. -/
def Process.peer (p : Process ι) (c : ι) : Peer where
  shared := p.shared
  conn := p.conn c

def Process.step (p : Process ι) (a : ι × Act) : Process ι where
  shared := ((p.peer a.1).step a.2).shared
  conn := Function.update p.conn a.1 ((p.peer a.1).step a.2).conn

def Process.after (cfg : Config) (seq0 : ι → Nat) (acts : List (ι × Act)) : Process ι :=
  run Process.step (Process.init cfg seq0) acts

/-! ## Two peers -/

inductive Side where
  | left
  | right
  deriving DecidableEq, Repr

def Side.other : Side → Side
  | .left => .right
  | .right => .left

/-- What a peer has handed to `udt_send` stays on the network and may
arrive late, out of order, more than once or never. -/
structure Link where
  left : Peer
  right : Peer

def Link.peer (l : Link) : Side → Peer
  | .left => l.left
  | .right => l.right

def Link.init (cfg : Config) (seqL seqR : Nat) : Link where
  left := .init cfg seqL
  right := .init cfg seqR

inductive LinkAct where
  /-- a step of one side that no datagram causes -/
  | own (side : Side) (a : Act)
  /-- the packet at this place of what the other side has sent arrives -/
  | deliver (side : Side) (place now : Nat)

/-- The step of a peer that a step of the link is. -/
def Link.resolve (l : Link) : LinkAct → Option (Side × Act)
  | .own _ (.recv _ _) => none
  | .own side a => some (side, a)
  | .deliver side place now =>
      (l.peer side.other).conn.sent[place]?.map fun p => (side, .recv p now)

def Link.stepAt (l : Link) : Side → Act → Link
  | .left, a => { l with left := l.left.step a }
  | .right, a => { l with right := l.right.step a }

def Link.step (l : Link) (a : LinkAct) : Link :=
  match l.resolve a with
  | none => l
  | some (side, a) => l.stepAt side a

def Link.after (cfg : Config) (seqL seqR : Nat) (acts : List LinkAct) : Link :=
  run Link.step (Link.init cfg seqL seqR) acts

end Training.Rudp
