/-
Training.Udp.Peer — one end of a connection as a machine.

A `Peer` is the connection record together with the history of what its
operations have done; the history is never read by an operation. An
`Act` is one atomic step of the workers or the application, with the
choices the environment makes in it: the bytes the user sends, the
datagram that arrives, the clock. `Peer.step` runs the operation of
`Training.Udp.Protocol` and records it.

Two histories end early. After `exit (-1)` in `resend_expire_packet` no
step has an effect. A receive worker that is caught in the drain loop
handles no further datagram; the other steps go on.

`NoWrap` says, before a step, that no sequence-number addition of the
step reaches the word size. A run along it is a run before the
wrap-around, and `step_uInt32_eq` makes it a run of the machine on
unbounded numbers.
-/
import Training.Lib.Machine
import Training.Udp.Protocol

namespace Training.Udp

open Training.Lib

/-! ## The machine -/

structure Peer where
  rdt : Rdt
  /-- the receive worker is caught in the drain loop -/
  spinning : Bool
  /-- `exit (-1)` was reached -/
  exited : Bool
  /-- bytes accepted by `rdt_send` -/
  accepted : List UInt8
  /-- SEND packets made, in order -/
  made : List Packet
  /-- sequence numbers whose acknowledgement was acted on -/
  acked : List Nat
  /-- packets handed to `udt_send` -/
  sent : List Packet
  /-- SEND packets handled by the receive worker -/
  handled : List Packet
  /-- calls of `push_to_recv_buff` and what they wrote -/
  pushes : List (Packet × Nat)

def Peer.init (cfg : Config) (seq0 : Nat) : Peer where
  rdt := createRdt cfg seq0
  spinning := false
  exited := false
  accepted := []
  made := []
  acked := []
  sent := []
  handled := []
  pushes := []

/-- The steps that involve no datagram. -/
inductive Op where
  | rdtSend (buff : List UInt8)
  | flushBuffer (now : Nat)
  | flushQueue
  /-- retransmission of the packet at this place of `flight_send_queue` -/
  | resend (place now : Nat)
  | rdtRecv (len : Nat)

inductive Act where
  | op (o : Op)
  | recv (p : Packet) (now : Nat)

def Peer.flushBuffer (ar : SeqArith) (n : Peer) (now : Nat) : Peer :=
  match flushBufferIter ar now n.rdt with
  | (rdt, .made packet) => { n with rdt, made := n.made ++ [packet] }
  | (rdt, _) => { n with rdt }

def Peer.flushQueue (n : Peer) : Peer :=
  match flushQueueIter n.rdt with
  | none => n
  | some (rdt, packet) => { n with rdt, sent := n.sent ++ [packet] }

def Peer.resend (n : Peer) (place now : Nat) : Peer :=
  match n.rdt.flightSendQueue[place]? with
  | none => n
  | some position =>
      let (packet, rdt, exited) := resendPacket now n.rdt position
      { n with
        rdt := { rdt with flightSendQueue := rdt.flightSendQueue.set place packet }
        sent := n.sent ++ [packet]
        exited }

def Peer.stepOp (ar : SeqArith) (n : Peer) : Op → Peer
  | .rdtSend buff =>
      let (rdt, numbytes) := rdtSend n.rdt buff
      { n with rdt, accepted := n.accepted ++ buff.take numbytes }
  | .flushBuffer now => n.flushBuffer ar now
  | .flushQueue => n.flushQueue
  | .resend place now => n.resend place now
  | .rdtRecv len => { n with rdt := (rdtRecv n.rdt len).1 }

def Peer.recv (ar : SeqArith) (n : Peer) (p : Packet) (now : Nat) : Peer :=
  let h := recvPacket ar now n.rdt p
  { n with
    rdt := h.rdt
    spinning := !h.returned
    acked := if p.cmd = .ack ∧ ackAccepted n.rdt p.ack then n.acked ++ [p.ack] else n.acked
    handled := if p.cmd = .send then n.handled ++ [p] else n.handled
    pushes := n.pushes ++ h.pushes }

def Peer.step (ar : SeqArith) (n : Peer) (a : Act) : Peer :=
  if n.exited then n
  else
    match a with
    | .op o => n.stepOp ar o
    | .recv p now => if n.spinning then n else n.recv ar p now

theorem Peer.step_op (ar : SeqArith) (n : Peer) (o : Op) :
    n.step ar (.op o) = if n.exited then n else n.stepOp ar o := rfl

theorem Peer.step_recv (ar : SeqArith) (n : Peer) (p : Packet) (now : Nat) :
    n.step ar (.recv p now)
      = if n.exited then n else if n.spinning then n else n.recv ar p now := rfl

/-- The step has an effect: the process runs, and the receive worker is not
caught in the loop. -/
def Peer.Running (n : Peer) : Act → Prop
  | .op _ => n.exited = false
  | .recv _ _ => n.exited = false ∧ n.spinning = false

instance (n : Peer) : ∀ a, Decidable (n.Running a)
  | .op _ => inferInstanceAs (Decidable (n.exited = false))
  | .recv _ _ => inferInstanceAs (Decidable (n.exited = false ∧ n.spinning = false))

theorem Peer.step_of_not_running {ar : SeqArith} {n : Peer} {a : Act} (h : ¬ n.Running a) :
    n.step ar a = n := by
  cases a with
  | op o => rw [Peer.step_op, if_pos (by simpa [Running] using h)]
  | recv p now =>
    rw [Peer.step_recv]
    split_ifs with hexited hspinning
    · rfl
    · rfl
    · exact absurd ⟨by simpa using hexited, by simpa using hspinning⟩ h

/-- The state after the steps `acts` of a new connection. -/
def Peer.after (ar : SeqArith) (cfg : Config) (seq0 : Nat) (acts : List Act) : Peer :=
  run (Peer.step ar) (Peer.init cfg seq0) acts

/-! ## What the history says -/

/-- Everything `push_to_recv_buff` wrote. -/
def Peer.written (n : Peer) : List UInt8 :=
  n.pushes.flatMap fun e => e.1.data.take e.2

/-- What `push_to_recv_buff` wrote for SEND packets. -/
def Peer.writtenSend (n : Peer) : List UInt8 :=
  (n.pushes.filter (·.1.cmd = .send)).flatMap fun e => e.1.data.take e.2

/-- The number of the first SEND packet handled, 0 before there is one. -/
def Peer.firstSeq (n : Peer) : Nat := (n.handled.head?.map Packet.seq).getD 0

/-- Every call of `push_to_recv_buff` found room for its whole payload. -/
def Peer.NeverFull (n : Peer) : Prop :=
  ∀ e ∈ n.pushes, e.2 = e.1.len

instance (n : Peer) : Decidable n.NeverFull :=
  inferInstanceAs (Decidable (∀ e ∈ n.pushes, e.2 = e.1.len))

/-- The sequence numbers assigned to SEND packets whose acknowledgement
has not been processed, in increasing order. -/
def Peer.unacked (n : Peer) : List Nat :=
  (n.made.map Packet.seq).filter (· ∉ n.acked)

/-! ## Before the wrap-around -/

/-- The packets at the front of the queue that the drain loop takes when it
starts at `base`. -/
def readyRun (ar : SeqArith) : Nat → List Packet → List Packet
  | _, [] => []
  | base, nextPacket :: rest =>
      if nextPacket.seq = base then nextPacket :: readyRun ar (ar.add base 1) rest else []

/-- No addition that the handling of this datagram makes reaches the word
size. The ACK branch adds at the base when no number follows in
`unack_list`; the window test adds for a packet that is not before the
base; and in order the base goes up by one for the packet and for each
one that is drained. -/
def NoWrapRecv (s : Rdt) (p : Packet) : Prop :=
  (p.cmd = .ack → p.ack = s.sendWndBase → (findPacket s.flightSendQueue p.ack).isSome →
    findUnack s.unackList p.ack = [p.ack] → s.sendWndBase + 1 < uInt32Size) ∧
  (p.cmd = .send → s.recvWndBase = 0 → p.seq + 1 < uInt32Size) ∧
  (p.cmd = .send → s.recvWndBase ≠ 0 → s.recvWndBase ≤ p.seq →
    s.recvWndBase + s.wndSize < uInt32Size) ∧
  (p.cmd = .send → s.recvWndBase ≠ 0 → p.seq = s.recvWndBase →
    s.recvWndBase + 1 + (readyRun .unbounded (s.recvWndBase + 1) s.recvQueue).length
      < uInt32Size)

/-- No addition in `flush_buffer` reaches its modulus. -/
def NoWrapFlush (s : Rdt) : Prop :=
  0 < s.sendWndBase + s.wndSize ∧ s.sendWndBase + s.wndSize ≤ uInt32Size ∧
    (s.currentSendSeq < s.sendWndBase + s.wndSize → 0 < ringbuffDataSize s.sendBuffer →
      s.currentSendSeq + 1 < seqNumMax)

def NoWrap (n : Peer) : Act → Prop
  | .op (.flushBuffer _) => NoWrapFlush n.rdt
  | .op _ => True
  | .recv p _ => NoWrapRecv n.rdt p

instance (s : Rdt) (p : Packet) : Decidable (NoWrapRecv s p) :=
  inferInstanceAs (Decidable (_ ∧ _ ∧ _ ∧ _))

instance (s : Rdt) : Decidable (NoWrapFlush s) :=
  inferInstanceAs (Decidable (_ ∧ _ ∧ _))

instance (n : Peer) : ∀ a, Decidable (NoWrap n a)
  | .op (.flushBuffer _) => inferInstanceAs (Decidable (NoWrapFlush n.rdt))
  | .op (.rdtSend _) => isTrue trivial
  | .op .flushQueue => isTrue trivial
  | .op (.resend _ _) => isTrue trivial
  | .op (.rdtRecv _) => isTrue trivial
  | .recv p _ => inferInstanceAs (Decidable (NoWrapRecv n.rdt p))

/-- The run `acts` of a new connection stays before the wrap-around. -/
def BeforeWrap (cfg : Config) (seq0 : Nat) (acts : List Act) : Prop :=
  Along (Peer.step .uInt32) NoWrap (Peer.init cfg seq0) acts

instance (cfg : Config) (seq0 : Nat) (acts : List Act) :
    Decidable (BeforeWrap cfg seq0 acts) :=
  inferInstanceAs (Decidable (Along (Peer.step .uInt32) NoWrap (Peer.init cfg seq0) acts))

end Training.Udp
