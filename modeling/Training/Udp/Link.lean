/-
Training.Udp.Link — two peers and the network between them.

Everything a peer has handed to `udt_send` stays on the network: a step
of the link delivers any packet ever sent, by its place in the sender's
history. A packet may be delivered late, out of order, more than once or
never, so every behaviour of a network that loses, duplicates, delays and
reorders is a run of the link. Both peers send and receive; `snd` and
`rcv` are the two ends of one stream.

`Peer.decision` is what a step makes of the packet it deals with: whether
`flush_buffer` admits it, whether an ACK is acted on, where a SEND packet
falls in the window and what is delivered. Sequence numbers are no part
of it, so that two runs with different numbers can be compared.
-/
import Training.Udp.Peer

namespace Training.Udp

open Training.Lib

/-! ## The machine -/

inductive Side where
  | snd
  | rcv
  deriving DecidableEq, Repr

def Side.other : Side → Side
  | .snd => .rcv
  | .rcv => .snd

structure Link where
  snd : Peer
  rcv : Peer

def Link.peer (l : Link) : Side → Peer
  | .snd => l.snd
  | .rcv => l.rcv

def Link.init (cfg : Config) (seqS seqR : Nat) : Link where
  snd := Peer.init cfg seqS
  rcv := Peer.init cfg seqR

inductive LinkAct where
  | op (side : Side) (o : Op)
  /-- the packet at this place of what the other side has sent arrives -/
  | deliver (side : Side) (place now : Nat)

/-- The step of a peer that a step of the link is; none when there is no
packet to deliver. -/
def Link.resolve (l : Link) : LinkAct → Option (Side × Act)
  | .op side o => some (side, .op o)
  | .deliver side place now =>
      (l.peer side.other).sent[place]?.map fun p => (side, .recv p now)

def Link.stepAt (ar : SeqArith) (l : Link) : Side → Act → Link
  | .snd, a => { l with snd := l.snd.step ar a }
  | .rcv, a => { l with rcv := l.rcv.step ar a }

def Link.step (ar : SeqArith) (l : Link) (a : LinkAct) : Link :=
  match l.resolve a with
  | none => l
  | some (side, a) => l.stepAt ar side a

/-- The state after the steps `acts` of a new connection. -/
def Link.after (ar : SeqArith) (cfg : Config) (seqS seqR : Nat) (acts : List LinkAct) : Link :=
  run (Link.step ar) (Link.init cfg seqS seqR) acts

/-! ## What a step decides -/

inductive Decision where
  /-- nothing that depends on a sequence number -/
  | other
  | blocked
  | bufferEmpty
  | admitted (data : List UInt8)
  | ack (accepted : Bool)
  | data (window : Window) (delivered : List (List UInt8 × Nat))
  deriving DecidableEq, Repr

def Peer.decision (ar : SeqArith) (n : Peer) (a : Act) : Decision :=
  if n.exited then .other
  else
    match a with
    | .op (.flushBuffer now) =>
        match (flushBufferIter ar now n.rdt).2 with
        | .windowFull => .blocked
        | .made packet => .admitted packet.data
        | .bufferEmpty => .bufferEmpty
    | .op _ => .other
    | .recv p now =>
        if n.spinning then .other
        else
          match p.cmd with
          | .ack => .ack (ackAccepted n.rdt p.ack)
          | .send =>
              .data (recvWindow ar n.rdt p.seq)
                ((recvPacket ar now n.rdt p).pushes.map fun e => (e.1.data, e.2))
          | _ => .other

def Link.decision (ar : SeqArith) (l : Link) (a : LinkAct) : Decision :=
  match l.resolve a with
  | none => .other
  | some (side, a) => (l.peer side).decision ar a

/-! ## Conditions on a step -/

/-- No sequence-number addition of the step reaches the word size; a step
without an effect makes none. -/
def Link.NoWrap (l : Link) (a : LinkAct) : Prop :=
  match l.resolve a with
  | none => True
  | some (side, a) => (l.peer side).Running a → Training.Udp.NoWrap (l.peer side) a

/-- The first SEND packet `rcv` handles is the one numbered `seqS`. -/
def Link.StartsAt (seqS : Nat) (l : Link) (a : LinkAct) : Prop :=
  match l.resolve a with
  | some (.rcv, .recv p _) =>
      p.cmd = .send → l.rcv.exited = false → l.rcv.rdt.recvWndBase = 0 → p.seq = seqS
  | _ => True

instance (l : Link) (a : LinkAct) : Decidable (l.NoWrap a) :=
  match h : l.resolve a with
  | none => isTrue (by simp [Link.NoWrap, h])
  | some (side, b) =>
      decidable_of_iff ((l.peer side).Running b → Training.Udp.NoWrap (l.peer side) b)
        (by simp [Link.NoWrap, h])

instance (seqS : Nat) (l : Link) (a : LinkAct) : Decidable (l.StartsAt seqS a) :=
  match h : l.resolve a with
  | none => isTrue (by simp [Link.StartsAt, h])
  | some (.snd, _) => isTrue (by simp [Link.StartsAt, h])
  | some (.rcv, .op _) => isTrue (by simp [Link.StartsAt, h])
  | some (.rcv, .recv p _) =>
      decidable_of_iff
        (p.cmd = .send → l.rcv.exited = false → l.rcv.rdt.recvWndBase = 0 → p.seq = seqS)
        (by simp [Link.StartsAt, h])

end Training.Udp
