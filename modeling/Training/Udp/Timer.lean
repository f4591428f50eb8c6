/-
Training.Udp.Timer — one iteration of `send_worker_thread`'s loop.

The operations of `Training.Udp.Protocol` are what the workers
interleave; here the send worker runs them to the end of its loop body:
`flush_buffer` until its loop breaks, with the timer check
`resend_expire_packet` in the branch of the closed window, then
`flush_queue` until `send_queue` is empty. An iteration is a run of the
peer's own steps (`Training.Udp.TimerTheorems`).

`get_current ()` is read once for every packet made, once for every
packet the timer looks at and once more for one it retransmits. The
readings of an iteration are the values of a function `clock`, numbered
from 0; an index `i` is the number of readings so far.

`flush_buffer`'s loop takes fuel. Every turn of it takes bytes off
`send_buffer`, so one unit more than there are bytes is enough.
-/
import Mathlib.Logic.Function.Iterate
import Training.Udp.Peer

namespace Training.Udp

/-- `resend_expire_packet`, from the packet before place `place` of
`flight_send_queue` to its head; `list_back` is the greatest place. The
second component is the packets it retransmits, as they were. -/
def Peer.resendExpirePacket (clock : Nat → Nat) : Nat → Nat → Peer → Peer × List Packet
  | 0, _, n => (n, [])
  | place + 1, i, n =>
      match n.rdt.flightSendQueue[place]? with
      | none => (n, [])
      | some position =>
          if timeDiff (clock i) position.ts > packetExpireTime then
            let n := n.resend place (clock (i + 1))
            -- `exit (-1)` ends the process with the packets left unsent
            if n.exited then (n, [position])
            else
              let (n, resent) := Peer.resendExpirePacket clock place (i + 2) n
              (n, position :: resent)
          else Peer.resendExpirePacket clock place (i + 1) n

/-- The loop of `flush_buffer`. -/
def Peer.flushBufferLoop (ar : SeqArith) (clock : Nat → Nat) :
    Nat → Nat → Peer → Option (Peer × List Packet)
  | 0, _, _ => none
  | fuel + 1, i, n =>
      match (flushBufferIter ar (clock i) n.rdt).2 with
      | .windowFull => some (n.resendExpirePacket clock n.rdt.flightSendQueue.length i)
      | .made _ => Peer.flushBufferLoop ar clock fuel (i + 1) (n.flushBuffer ar (clock i))
      | .bufferEmpty => some (n.flushBuffer ar (clock i), [])

/-- The loop of `flush_queue`, for a `send_queue` of this length. -/
def Peer.flushQueueLoop : Nat → Peer → Peer
  | 0, n => n
  | len + 1, n => Peer.flushQueueLoop len n.flushQueue

/-- `flush_queue` after `flush_buffer`, unless that ended the process. -/
def Peer.thenFlushQueue (e : Peer × List Packet) : Peer × List Packet :=
  if e.1.exited then e else (e.1.flushQueueLoop e.1.rdt.sendQueue.length, e.2)

/-- One iteration of `send_worker_thread`'s loop: the state after it and
the packets in flight that it retransmitted. -/
def Peer.sendWorkerIter (ar : SeqArith) (clock : Nat → Nat) (n : Peer) :
    Option (Peer × List Packet) :=
  (n.flushBufferLoop ar clock (ringbuffDataSize n.rdt.sendBuffer + 1) 0).map
    Peer.thenFlushQueue

/-! ## Conditions -/

/-- Older than `PACKET_EXPIRE_TIME` at every reading of the clock. -/
def Expired (clock : Nat → Nat) (p : Packet) : Prop :=
  ∀ i, timeDiff (clock i) p.ts > packetExpireTime

/-- The packets that the bytes in `send_buffer` make. -/
def pendingPackets (s : Rdt) : Nat :=
  (ringbuffDataSize s.sendBuffer + s.mtu - 1) / s.mtu

/-- The send window is closed, or some of the pending packets close it. -/
def WindowFills (ar : SeqArith) (s : Rdt) : Prop :=
  ∃ k ≤ pendingPackets s,
    windowFull ar { s with currentSendSeq := ar.nextSeq^[k] s.currentSendSeq } = true

end Training.Udp
