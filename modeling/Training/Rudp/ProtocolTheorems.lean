/-
Training.Rudp.ProtocolTheorems — what each operation of the earlier
protocol does.

One specification for each operation, with the record it leaves in each
case. `flushQueue_sent` is the one `disciplined_iff_keepsOpen` rests on: a
call of `flush_queue` sends the whole of `send_queue` or nothing, and only
the window test decides which.
-/
import Mathlib.Data.List.Induction
import Training.Udp.Wrap
import Training.Rudp.Process

namespace Training.Rudp

open Training.Lib
open Training.Udp (Packet Cmd Config SeqArith uInt32Size seqNumMax ringbuffRead ringbuffDataSize
  seqInsertToList findPacket)

/-! ## `flush_buffer` -/

/-- The SEND packet made next. -/
def nextPacket (s : Rdt) (now : Nat) (data : List UInt8) : Packet where
  seq := s.currentSendSeq
  cmd := .send
  ack := 0
  ts := now
  data := data

theorem flushBufferIter_data {s : Rdt} (now : Nat) (hmtu : 0 < s.mtu)
    (h : 0 < ringbuffDataSize s.sendBuffer) :
    ∃ data, flushBufferIter now s =
      ({ s with
          sendBuffer := (ringbuffRead s.sendBuffer s.mtu).1
          current := now
          currentSendSeq := SeqArith.uInt32.nextSeq s.currentSendSeq
          sendQueue := nextPacket s now data :: s.sendQueue },
        some (nextPacket s now data)) := by
  refine ⟨s.sendBuffer.contents.take s.mtu, ?_⟩
  have hlen : 0 < (s.sendBuffer.contents.take s.mtu).length := by
    rw [List.length_take, Udp.length_contents]
    omega
  unfold flushBufferIter
  dsimp only
  rw [Udp.ringbuffRead_bytes, if_pos hlen]
  rfl

theorem flushBufferIter_empty {s : Rdt} (now : Nat)
    (h : ringbuffDataSize s.sendBuffer = 0) :
    flushBufferIter now s =
      ({ s with sendBuffer := (ringbuffRead s.sendBuffer s.mtu).1 }, none) := by
  have hlen : ¬ 0 < (s.sendBuffer.contents.take s.mtu).length := by
    rw [List.length_take, Udp.length_contents]
    omega
  unfold flushBufferIter
  dsimp only
  rw [Udp.ringbuffRead_bytes, if_neg hlen]

/-! ## The window test -/

theorem lastWnd_eq {s : Rdt} (h0 : 0 < s.sendWndBase + s.wndSize)
    (h : s.sendWndBase + s.wndSize ≤ uInt32Size) :
    lastWnd s = s.sendWndBase + s.wndSize - 1 := by
  unfold lastWnd
  exact Udp.uInt32_last_eq h0 h

theorem windowFull_eq_false {s : Rdt} (h0 : 0 < s.sendWndBase + s.wndSize)
    (h : s.sendWndBase + s.wndSize ≤ uInt32Size) :
    windowFull s = false ↔ s.currentSendSeq < s.sendWndBase + s.wndSize := by
  unfold windowFull
  rw [decide_eq_false_iff_not, lastWnd_eq h0 h]
  omega

/-! ## `flush_queue` -/

theorem flushQueueIter_nil {s : Rdt} (h : s.sendQueue = []) : flushQueueIter s = none := by
  simp [flushQueueIter, h]

theorem flushQueueIter_concat {s : Rdt} {rest : List Packet} {packet : Packet}
    (h : s.sendQueue = rest ++ [packet]) :
    flushQueueIter s =
      if packet.cmd = .send then
        some ({ s with
          sendQueue := rest
          flightSendQueue := packet :: s.flightSendQueue
          unackList := seqInsertToList id packet.seq s.unackList }, packet)
      else some ({ s with sendQueue := rest }, packet) := by
  simp only [flushQueueIter, h, List.getLast?_concat, List.dropLast_concat]

/-- The loop sends the whole queue, its tail first. -/
theorem flushQueueLoop_sent (s : Rdt) :
    (flushQueueLoop s.sendQueue.length s).2 = s.sendQueue.reverse := by
  generalize hq : s.sendQueue = queue
  induction queue using List.reverseRecOn generalizing s with
  | nil => rfl
  | append_singleton rest packet ih =>
    rw [List.length_append, List.length_singleton, flushQueueLoop, flushQueueIter_concat hq,
      List.reverse_append, List.reverse_singleton, List.singleton_append]
    split_ifs
    · simp only
      rw [ih _ rfl]
    · simp only
      rw [ih _ rfl]

/-- A call of `flush_queue` sends everything or nothing. -/
theorem flushQueue_sent (s : Rdt) :
    (flushQueue s).2 = if windowFull s then [] else s.sendQueue.reverse := by
  unfold flushQueue
  split
  · rfl
  · exact flushQueueLoop_sent s

/-! ## Retransmission -/

theorem countRetry_eq (blame : Nat) (s : Rdt) (seq : Nat) :
    ∃ blame' retry exited,
      countRetry blame s seq = (blame', { s with resendRetry := retry }, exited) := by
  unfold countRetry
  dsimp only
  generalize (if blame = 0 then seq else blame) = marker
  split
  · exact ⟨_, _, _, rfl⟩
  · exact ⟨_, s.resendRetry, _, rfl⟩

/-! ## Receiving -/

theorem clearBlame_eq (blame : Nat) (s : Rdt) (seq : Nat) :
    ∃ blame' retry, clearBlame blame s seq = (blame', { s with resendRetry := retry }) := by
  unfold clearBlame
  split
  · exact ⟨_, _, rfl⟩
  · exact ⟨_, s.resendRetry, rfl⟩

theorem recvAck_none {blame : Nat} {s : Rdt} {ack : Nat}
    (h : findPacket s.flightSendQueue ack = none) : recvAck blame s ack = (blame, s) := by
  unfold recvAck
  rw [h]

/-- The base after an ACK of a packet in flight. -/
def baseAfterAck (s : Rdt) (ack : Nat) : Nat :=
  if ack = s.sendWndBase then SeqArith.uInt32.add s.sendWndBase 1 else s.sendWndBase

theorem recvAck_some {blame : Nat} {s : Rdt} {ack : Nat} {position : Packet}
    (h : findPacket s.flightSendQueue ack = some position) :
    recvAck blame s ack =
      ((clearBlame blame s ack).1,
        { s with
          resendRetry := (clearBlame blame s ack).2.resendRetry
          sendWndBase := baseAfterAck s ack
          flightSendQueue := s.flightSendQueue.eraseP (·.seq == ack) }) := by
  obtain ⟨blame', retry, hclear⟩ := clearBlame_eq blame s ack
  unfold recvAck baseAfterAck
  simp only [h, Udp.findPacket_seq h, hclear]
  split <;> rfl

/-- The ACK packet for `seq`. -/
def ackPacket (now seq : Nat) : Packet where
  seq := 0
  cmd := .ack
  ack := seq
  ts := now
  data := []

/-- Data never touches the send window: a SEND packet queues its ACK. -/
theorem recvData_eq (now : Nat) (s : Rdt) (p : Packet) :
    ∃ current buffer, recvData now s p =
      { s with
        current
        sendQueue :=
          if p.cmd = .send then ackPacket now p.seq :: s.sendQueue else s.sendQueue
        recvBuffer := buffer } := by
  have hpush : ∀ s : Rdt, ∃ buffer, pushToRecvBuff s p = { s with recvBuffer := buffer } := by
    intro s
    unfold pushToRecvBuff
    split
    · exact ⟨s.recvBuffer, rfl⟩
    · exact ⟨_, rfl⟩
  unfold recvData
  dsimp only
  split
  · obtain ⟨buffer, h⟩ := hpush (queueAck now s p.seq)
    exact ⟨now, buffer, h⟩
  · obtain ⟨buffer, h⟩ := hpush s
    exact ⟨s.current, buffer, h⟩

/-! ## The steps of a peer -/

section Steps

variable {n : Peer}

theorem step_exited (h : n.shared.exited = true) (a : Act) : n.step a = n := by
  simp [Peer.step, h]

theorem step_rdtSend (h : n.shared.exited = false) (buff : Nat → UInt8) (len : Nat) :
    n.step (.rdtSend buff len) =
      { n with conn := { n.conn with rdt := rdtSend n.conn.rdt buff len } } := by
  simp [Peer.step, h]

theorem step_flushBuffer (h : n.shared.exited = false) (now : Nat) :
    n.step (.flushBuffer now) = { n with conn := n.conn.flushBuffer now } := by
  simp [Peer.step, h]

theorem step_flushQueue (h : n.shared.exited = false) :
    n.step .flushQueue = { n with conn := n.conn.flushQueue } := by
  simp [Peer.step, h]

theorem step_resend (h : n.shared.exited = false) (place now later : Nat) :
    n.step (.resend place now later) = n.resend place now later := by
  simp [Peer.step, h]

theorem step_rdtRecv (h : n.shared.exited = false) (len : Nat) :
    n.step (.rdtRecv len) = { n with conn := { n.conn with rdt := rdtRecv n.conn.rdt len } } := by
  simp [Peer.step, h]

theorem step_recv (h : n.shared.exited = false) (p : Packet) (now : Nat) :
    n.step (.recv p now) = n.recv p now := by
  simp [Peer.step, h]

/-- A datagram is an ACK, or data, or neither. -/
theorem recv_cases (n : Peer) (p : Packet) (now : Nat) :
    p.cmd = .ack ∧ n.recv p now = n.recvAck p.ack ∨
      p.cmd ≠ .ack ∧ p.cmd ≠ .null ∧
        n.recv p now = { n with conn := { n.conn with rdt := recvData now n.conn.rdt p } } ∨
      p.cmd = .null ∧ n.recv p now = n := by
  unfold Peer.recv
  cases p.cmd <;> simp

end Steps

section FlushQueue

variable {n : Conn}

/-- Outside its loop a step in `flush_queue` is the window test. -/
theorem flushQueue_outside (h : n.sending = false) :
    n.flushQueue = { n with
      sending := !(n.rdt.sendQueue.isEmpty || windowFull n.rdt) } := by
  unfold Conn.flushQueue
  rw [if_neg (by simp [h])]
  cases n.rdt.sendQueue.isEmpty || windowFull n.rdt
  · simp
  · simp [← h]

theorem flushQueue_done (h : n.sending = true) (hqueue : n.rdt.sendQueue = []) :
    n.flushQueue = { n with sending := false } := by
  unfold Conn.flushQueue
  rw [if_pos h, flushQueueIter_nil hqueue]

/-- In its loop the worker sends the packet at the tail. -/
theorem flushQueue_concat (h : n.sending = true) {rest : List Packet} {packet : Packet}
    (hqueue : n.rdt.sendQueue = rest ++ [packet]) :
    n.flushQueue =
      if packet.cmd = .send then
        { n with
          rdt := { n.rdt with
            sendQueue := rest
            flightSendQueue := packet :: n.rdt.flightSendQueue
            unackList := seqInsertToList id packet.seq n.rdt.unackList }
          sent := n.sent ++ [packet]
          resends := Function.update n.resends packet.seq 0 }
      else { n with rdt := { n.rdt with sendQueue := rest }, sent := n.sent ++ [packet] } := by
  unfold Conn.flushQueue
  rw [if_pos h, flushQueueIter_concat hqueue]
  split_ifs with hcmd <;> simp [hcmd]

end FlushQueue

/-- A retransmission sends a packet in flight once more. -/
theorem resend_cases (n : Peer) (place now later : Nat) :
    n.resend place now later = n ∨
      ∃ position packet blame retry exited,
        n.conn.rdt.flightSendQueue[place]? = some position ∧
        packet = { position with ts := later } ∧
        (blame, { n.conn.rdt with current := later, resendRetry := retry }, exited)
          = countRetry n.shared.blamePacketForExpire { n.conn.rdt with current := later }
              position.seq ∧
        n.resend place now later =
          { shared := { blamePacketForExpire := blame, exited }
            conn := { n.conn with
              rdt := { n.conn.rdt with
                current := later
                resendRetry := retry
                flightSendQueue := n.conn.rdt.flightSendQueue.set place packet }
              sent := n.conn.sent ++ [packet]
              resends := Function.update n.conn.resends position.seq
                (n.conn.resends position.seq + 1)
              disconnected := exited } } := by
  unfold Peer.resend
  split
  · exact Or.inl rfl
  · split
    · exact Or.inl rfl
    · rename_i position hposition
      split
      · obtain ⟨blame, retry, exited, hcount⟩ := countRetry_eq n.shared.blamePacketForExpire
          { n.conn.rdt with current := later } position.seq
        refine Or.inr ⟨position, _, blame, retry, exited, hposition, rfl, hcount.symm, ?_⟩
        simp only [resendPacket, getAndUpdateCurrent, hcount]
      · exact Or.inl rfl

theorem recvAck_ignored {n : Peer} {ack : Nat}
    (h : findPacket n.conn.rdt.flightSendQueue ack = none) : n.recvAck ack = n := by
  unfold Peer.recvAck
  rw [recvAck_none h, h]
  rfl

theorem recvAck_acted {n : Peer} {ack : Nat} {position : Packet}
    (h : findPacket n.conn.rdt.flightSendQueue ack = some position) :
    n.recvAck ack =
      { shared := { n.shared with
          blamePacketForExpire := (clearBlame n.shared.blamePacketForExpire n.conn.rdt ack).1 }
        conn := { n.conn with
          rdt := { n.conn.rdt with
            resendRetry :=
              (clearBlame n.shared.blamePacketForExpire n.conn.rdt ack).2.resendRetry
            sendWndBase := baseAfterAck n.conn.rdt ack
            flightSendQueue := n.conn.rdt.flightSendQueue.eraseP (·.seq == ack) }
          acked := n.conn.acked ++ [ack] } } := by
  unfold Peer.recvAck
  rw [recvAck_some h, h]
  rfl

end Training.Rudp
