/-
Training.Udp.StreamTheorems — the byte stream of a sender.

The bytes `rdt_send` accepts go through `send_buffer` into packets in
order: the payloads of the packets made, followed by what is in the
buffer, are the bytes accepted (`Peer.Streams`). Whatever is queued, in
flight or on the network carries the number and the payload of a packet
that was made; a retransmission differs in its time stamp only. This
holds with either arithmetic.
-/
import Training.Udp.ProtocolTheorems
import Training.Udp.Peer

namespace Training.Udp

open Training.Lib

/-- Some packet made has this number and payload. -/
def Peer.Made (n : Peer) (p : Packet) : Prop :=
  ∃ m ∈ n.made, m.seq = p.seq ∧ m.data = p.data

structure Peer.Streams (n : Peer) : Prop where
  accepted : n.made.flatMap Packet.data ++ n.rdt.sendBuffer.contents = n.accepted
  queued : ∀ p ∈ n.rdt.sendQueue, p.cmd = .send → n.Made p
  flight : ∀ p ∈ n.rdt.flightSendQueue, p.cmd = .send → n.Made p
  sent : ∀ p ∈ n.sent, p.cmd = .send → n.Made p

variable {n n' : Peer}

theorem Peer.Made.mono {p : Packet} (h : n.Made p) (hmade : n.made ⊆ n'.made) : n'.Made p := by
  obtain ⟨m, hm, hsame⟩ := h
  exact ⟨m, hmade hm, hsame⟩

theorem streams_init (cfg : Config) (seq0 : Nat) : (Peer.init cfg seq0).Streams where
  accepted := by simp [Peer.init, createRdt, ringbuffInit, Ringbuffer.contents, ringbuffDataSize]
  queued := by simp [Peer.init, createRdt]
  flight := by simp [Peer.init, createRdt]
  sent := by simp [Peer.init]

/-! ## The steps -/

/-- `rdt_send` writes the whole buffer or nothing. -/
theorem streams_rdtSend (ar : SeqArith) (h : n.Streams) (buff : List UInt8) :
    (n.stepOp ar (.rdtSend buff)).Streams := by
  simp only [Peer.stepOp, rdtSend]
  split
  · exact { h with accepted := by simpa using h.accepted }
  · refine { h with accepted := ?_ }
    simp only
    rw [contents_ringbuffWrite, ← List.append_assoc, h.accepted]

/-- The bytes taken off `send_buffer` are the payload of the packet made. -/
theorem streams_flushBuffer (ar : SeqArith) (h : n.Streams) (now : Nat) :
    (n.flushBuffer ar now).Streams := by
  unfold Peer.flushBuffer
  cases hwnd : windowFull ar n.rdt with
  | true =>
    rw [flushBufferIter_windowFull hwnd]
    exact h
  | false =>
    rw [flushBufferIter_open hwnd]
    dsimp only
    have hsplit := List.take_append_drop n.rdt.mtu n.rdt.sendBuffer.contents
    split_ifs with hdata
    · have hsub : n.made ⊆ n.made ++
          [nextPacket n.rdt now (n.rdt.sendBuffer.contents.take n.rdt.mtu)] :=
        List.subset_append_left _ _
      refine ⟨?_, ?_, ?_, ?_⟩
      · simp only [List.flatMap_append, List.flatMap_singleton, contents_ringbuffRead]
        rw [List.append_assoc]
        simp only [nextPacket]
        rw [hsplit, h.accepted]
      · intro p hp hcmd
        rcases List.mem_cons.mp hp with rfl | hp
        · exact ⟨_, List.mem_append_right _ (List.mem_singleton_self _), rfl, rfl⟩
        · exact (h.queued p hp hcmd).mono hsub
      · exact fun p hp hcmd => (h.flight p hp hcmd).mono hsub
      · exact fun p hp hcmd => (h.sent p hp hcmd).mono hsub
    · have hnil : n.rdt.sendBuffer.contents.take n.rdt.mtu = [] :=
        List.eq_nil_of_length_eq_zero (by omega)
      rw [hnil, List.nil_append] at hsplit
      refine { h with accepted := ?_ }
      simp only [contents_ringbuffRead, hsplit]
      exact h.accepted

theorem streams_flushQueue (h : n.Streams) : n.flushQueue.Streams := by
  rcases n.flushQueue_cases with ⟨-, heq⟩ | ⟨rest, packet, hqueue, heq⟩
  · rw [heq]
    exact h
  · have hpacket : packet.cmd = .send → n.Made packet :=
      h.queued packet (by rw [hqueue]; simp)
    have hrest : ∀ p ∈ rest, p.cmd = .send → n.Made p := fun p hp =>
      h.queued p (by rw [hqueue]; exact List.mem_append_left _ hp)
    have hsent : ∀ p ∈ n.sent ++ [packet], p.cmd = .send → n.Made p := by
      intro p hp
      rcases List.mem_append.mp hp with hp | hp
      · exact h.sent p hp
      · rw [List.mem_singleton.mp hp]
        exact hpacket
    rw [heq]
    split_ifs with hcmd
    · refine ⟨h.accepted, hrest, ?_, hsent⟩
      intro p hp
      rcases List.mem_cons.mp hp with rfl | hp
      · exact hpacket
      · exact h.flight p hp
    · exact ⟨h.accepted, hrest, h.flight, hsent⟩

theorem streams_resend (h : n.Streams) (place now : Nat) : (n.resend place now).Streams := by
  rcases n.resend_cases place now with heq | ⟨position, blame, retry, exited, hpos, heq⟩
  · rw [heq]
    exact h
  · rw [heq]
    have hposition : position.cmd = .send → n.Made { position with ts := now } :=
      h.flight position (List.mem_of_getElem? hpos)
    refine ⟨h.accepted, h.queued, ?_, ?_⟩
    · intro p hp
      rcases List.mem_or_eq_of_mem_set hp with hp | rfl
      · exact h.flight p hp
      · exact hposition
    · intro p hp
      rcases List.mem_append.mp hp with hp | hp
      · exact h.sent p hp
      · rw [List.mem_singleton.mp hp]
        exact hposition

theorem streams_stepOp (ar : SeqArith) (h : n.Streams) (o : Op) : (n.stepOp ar o).Streams := by
  cases o with
  | rdtSend buff => exact streams_rdtSend ar h buff
  | flushBuffer now => exact streams_flushBuffer ar h now
  | flushQueue => exact streams_flushQueue h
  | resend place now => exact streams_resend h place now
  | rdtRecv len => exact ⟨h.accepted, h.queued, h.flight, h.sent⟩

/-- What a datagram can do to the send side: queue an ACK, or take
packets out of flight. -/
theorem sendSide_recvPacket (ar : SeqArith) (now : Nat) (s : Rdt) (p : Packet) :
    let s' := (recvPacket ar now s p).rdt
    s'.sendBuffer = s.sendBuffer ∧
      (∀ q ∈ s'.sendQueue, q.cmd = .send → q ∈ s.sendQueue) ∧
      s'.flightSendQueue ⊆ s.flightSendQueue := by
  unfold recvPacket
  cases hcmd : p.cmd with
  | null => exact ⟨rfl, fun q hq _ => hq, List.Subset.refl _⟩
  | test =>
    obtain ⟨buffer, hpush⟩ := pushToRecvBuff_fst s p
    dsimp only
    rw [hpush]
    exact ⟨rfl, fun q hq _ => hq, List.Subset.refl _⟩
  | send =>
    obtain ⟨base, queue, buffer, hrdt⟩ := onlyRecvSide_recvSend ar now s p
    dsimp only
    rw [hrdt, queueAck_eq]
    refine ⟨rfl, fun q hq hsend => ?_, List.Subset.refl _⟩
    rcases List.mem_cons.mp hq with rfl | hq
    · exact nomatch hsend
    · exact hq
  | ack =>
    cases hack : ackAccepted s p.ack with
    | true =>
      obtain ⟨blame, retry, hrdt⟩ := recvAck_accepted ar hack
      dsimp only
      rw [hrdt, removeUnack_eq]
      exact ⟨rfl, fun q hq _ => hq, List.eraseP_subset⟩
    | false =>
      dsimp only
      rw [recvAck_ignored hack]
      exact ⟨rfl, fun q hq _ => hq, List.Subset.refl _⟩

theorem streams_recv (ar : SeqArith) (h : n.Streams) (p : Packet) (now : Nat) :
    (n.recv ar p now).Streams := by
  obtain ⟨hbuffer, hqueue, hflight⟩ := sendSide_recvPacket ar now n.rdt p
  exact
    { accepted := by
        simp only [Peer.recv]
        rw [hbuffer]
        exact h.accepted
      queued := fun q hq hcmd => h.queued q (hqueue q hq hcmd) hcmd
      flight := fun q hq => h.flight q (hflight hq)
      sent := h.sent }

theorem streams_step (ar : SeqArith) (h : n.Streams) (a : Act) : (n.step ar a).Streams := by
  cases a with
  | op o =>
    rw [Peer.step_op]
    split
    · exact h
    · exact streams_stepOp ar h o
  | recv p now =>
    rw [Peer.step_recv]
    split_ifs
    · exact h
    · exact h
    · exact streams_recv ar h p now

/-- The packets made are never forgotten. -/
theorem made_step_subset (ar : SeqArith) (n : Peer) (a : Act) :
    n.made ⊆ (n.step ar a).made := by
  have hop : ∀ o, n.made ⊆ (n.stepOp ar o).made := by
    intro o
    cases o with
    | flushBuffer now =>
      simp only [Peer.stepOp, Peer.flushBuffer]
      split
      · exact List.subset_append_left _ _
      · exact List.Subset.refl _
    | flushQueue =>
      simp only [Peer.stepOp, Peer.flushQueue]
      split <;> exact List.Subset.refl _
    | resend place now =>
      simp only [Peer.stepOp, Peer.resend]
      split <;> exact List.Subset.refl _
    | _ => exact List.Subset.refl _
  cases a with
  | op o =>
    rw [Peer.step_op]
    split
    · exact List.Subset.refl _
    · exact hop o
  | recv p now =>
    rw [Peer.step_recv]
    split_ifs <;> exact List.Subset.refl _

end Training.Udp
