/-
Training.Udp.SenderTheorems — a peer refines its send window.

`Peer.view` keeps the sequence numbers of a peer's send side.
`move_step`: a step of the peer on unbounded numbers is a `Move` of the
view, so the invariant of `SendWindow` holds of every reachable peer
(`inv_after`), and of the code's peer before the wrap-around. What the
sender promises is read off that invariant: no sequence number is lost or
held twice, and the window bound.

The base of the window is exact as long as no acknowledgement leaves a
hole (`LeavesNoHole`). `advanceSendBase` moves the base to the next node
of `unack_list`; with no next node it takes one more than the
acknowledged number, which is wrong when that number was acknowledged
before. From then on the base names a packet that will never be
acknowledged again, and the window closes for good.
-/
import Training.Udp.ProtocolTheorems
import Training.Udp.SendWindow
import Training.Udp.Wrap

namespace Training.Udp

open Training.Lib

/-! ## The view -/

/-- Sequence numbers of the SEND packets in `send_queue`. -/
def Peer.queuedSeqs (n : Peer) : List Nat :=
  (n.rdt.sendQueue.filter (·.cmd = .send)).map Packet.seq

/-- Sequence numbers of the packets in `flight_send_queue`. -/
def Peer.flightSeqs (n : Peer) : List Nat := n.rdt.flightSendQueue.map Packet.seq

def Peer.view (n : Peer) : SendWindow where
  wnd := n.rdt.wndSize
  base := n.rdt.sendWndBase
  next := n.rdt.currentSendSeq
  queued := n.queuedSeqs
  flight := n.flightSeqs
  unack := n.rdt.unackList
  made := n.made.map Packet.seq
  acked := n.acked

/-! ## One step of the peer -/

variable {n : Peer} {first : Nat}

/-- An iteration of `flush_buffer` admits the next number or leaves the
window as it is. -/
theorem send_flushBuffer (h : n.view.Inv first) (now : Nat) :
    SendWindow.Send n.view (n.flushBuffer .unbounded now).view := by
  unfold Peer.flushBuffer
  cases hwnd : windowFull .unbounded n.rdt with
  | true =>
    rw [flushBufferIter_windowFull hwnd]
    exact .stay
  | false =>
    rw [flushBufferIter_open hwnd]
    dsimp only
    split_ifs with hdata
    · have hroom : n.view.next < n.view.base + n.view.wnd := by
        have hpos := h.wnd_pos
        exact (windowFull_unbounded (Nat.add_pos_right _ hpos)).mp hwnd
      have hview := SendWindow.Send.enqueue hroom
      simpa only [Peer.view, SendWindow.enqueue, Peer.queuedSeqs, Peer.flightSeqs, nextPacket,
        List.filter_cons, decide_true, if_true, List.map_append, List.map_cons, List.map_nil,
        unbounded_nextSeq] using hview
    · exact .stay

/-- A dequeue of `flush_queue` transmits the oldest queued number, or
sends an ACK. -/
theorem send_flushQueue (n : Peer) : SendWindow.Send n.view n.flushQueue.view := by
  rcases n.flushQueue_cases with ⟨-, h⟩ | ⟨rest, packet, hqueue, h⟩
  · rw [h]
    exact .stay
  · have hseqs : n.queuedSeqs
        = (rest.filter (·.cmd = .send)).map Packet.seq
          ++ ([packet].filter (·.cmd = .send)).map Packet.seq := by
      rw [Peer.queuedSeqs, hqueue, List.filter_append, List.map_append]
    rw [h]
    split_ifs with hcmd
    · have hqueued : n.queuedSeqs
          = (rest.filter (·.cmd = .send)).map Packet.seq ++ [packet.seq] := by
        simpa [hcmd] using hseqs
      exact .transmit _ _ hqueued
    · have hqueued : (rest.filter (·.cmd = .send)).map Packet.seq = n.queuedSeqs := by
        simpa [hcmd] using hseqs.symm
      have hview : ({ n with
          rdt := { n.rdt with sendQueue := rest }
          sent := n.sent ++ [packet] } : Peer).view = n.view := by
        simp only [Peer.view, Peer.queuedSeqs, Peer.flightSeqs] at hqueued ⊢
        rw [hqueued]
      simp only [hview]
      exact .stay

theorem view_resend (n : Peer) (place now : Nat) : (n.resend place now).view = n.view := by
  rcases n.resend_cases place now with h | ⟨position, blame, retry, exited, hpos, h⟩
  · rw [h]
  · rw [h]
    have hseqs : (n.rdt.flightSendQueue.set place { position with ts := now }).map Packet.seq
        = n.rdt.flightSendQueue.map Packet.seq := map_set_seq hpos rfl
    simp only [Peer.view, Peer.queuedSeqs, Peer.flightSeqs, hseqs]

theorem view_rdtSend (n : Peer) (buff : List UInt8) :
    (n.stepOp .unbounded (.rdtSend buff)).view = n.view := by
  simp only [Peer.stepOp, rdtSend]
  split <;> rfl

theorem send_stepOp (h : n.view.Inv first) (o : Op) :
    SendWindow.Send n.view (n.stepOp .unbounded o).view := by
  cases o with
  | rdtSend buff =>
    rw [view_rdtSend]
    exact .stay
  | flushBuffer now => exact send_flushBuffer h now
  | flushQueue => exact send_flushQueue n
  | resend place now =>
    rw [Peer.stepOp, view_resend]
    exact .stay
  | rdtRecv len => exact .stay

/-- A datagram that is not an ACK leaves the send window alone. -/
theorem view_recv_of_ne (n : Peer) {p : Packet} (now : Nat) (hcmd : p.cmd ≠ .ack) :
    (n.recv .unbounded p now).view = n.view := by
  have hacked : (if p.cmd = .ack ∧ ackAccepted n.rdt p.ack then n.acked ++ [p.ack] else n.acked)
      = n.acked := if_neg fun h => hcmd h.1
  have hside : ∃ queue current, queue.filter (·.cmd = .send) = n.rdt.sendQueue.filter (·.cmd = .send)
      ∧ OnlyRecvSide { n.rdt with sendQueue := queue, current := current }
          (recvPacket .unbounded now n.rdt p).rdt := by
    unfold recvPacket
    split
    · contradiction
    · have hsend := onlyRecvSide_recvSend .unbounded now n.rdt p
      rw [queueAck_eq] at hsend
      exact ⟨_, _, by simp [ackPacket], hsend⟩
    · exact ⟨_, _, rfl, onlyRecvSide_push n.rdt p⟩
    · exact ⟨_, _, rfl, .refl n.rdt⟩
  obtain ⟨queue, current, hqueue, base, rqueue, buffer, hrdt⟩ := hside
  unfold Peer.recv
  simp only [Peer.view, Peer.queuedSeqs, Peer.flightSeqs, hacked, hrdt, hqueue]

/-- An ACK that is acted on acknowledges its number. -/
theorem view_recv_accepted (n : Peer) {p : Packet} (now : Nat) (hcmd : p.cmd = .ack)
    (hack : ackAccepted n.rdt p.ack = true) :
    (n.recv .unbounded p now).view = n.view.acknowledge p.ack := by
  obtain ⟨blame, retry, hrdt⟩ := recvAck_accepted .unbounded hack
  unfold Peer.recv recvPacket
  rw [hcmd]
  simp only [hack, hrdt, removeUnack_eq, Peer.view, Peer.queuedSeqs, Peer.flightSeqs,
    map_eraseP_seq, SendWindow.acknowledge, SendWindow.newBase, and_self, if_true]

theorem view_recv_ignored (n : Peer) {p : Packet} (now : Nat) (hcmd : p.cmd = .ack)
    (hack : ackAccepted n.rdt p.ack = false) :
    (n.recv .unbounded p now).view = n.view := by
  unfold Peer.recv recvPacket
  rw [hcmd]
  simp only [hack, recvAck_ignored hack, Bool.false_eq_true, and_false, if_false]
  rfl

theorem mem_flightSeqs_of_accepted {ack : Nat} (h : ackAccepted n.rdt ack = true) :
    ack ∈ n.flightSeqs := by
  unfold ackAccepted at h
  rw [Bool.and_eq_true] at h
  exact findPacket_isSome.mp h.2

theorem ackAccepted_of_mem (h : n.view.Inv first) {ack : Nat} (hack : ack ∈ n.flightSeqs) :
    ackAccepted n.rdt ack = true := by
  have hbound : n.rdt.sendWndBase ≤ ack := (h.flight_bounds ack hack).1
  unfold ackAccepted
  rw [findPacket_isSome.mpr hack]
  simp [hbound]

theorem move_recv (n : Peer) (p : Packet) (now : Nat) :
    SendWindow.Move n.view (n.recv .unbounded p now).view := by
  by_cases hcmd : p.cmd = .ack
  · cases hack : ackAccepted n.rdt p.ack with
    | true =>
      rw [view_recv_accepted n now hcmd hack]
      exact .acknowledge _ (mem_flightSeqs_of_accepted hack)
    | false =>
      rw [view_recv_ignored n now hcmd hack]
      exact .send .stay
  · rw [view_recv_of_ne n now hcmd]
    exact .send .stay

theorem send_step_op (h : n.view.Inv first) (o : Op) :
    SendWindow.Send n.view (n.step .unbounded (.op o)).view := by
  rw [Peer.step_op]
  split
  · exact .stay
  · exact send_stepOp h o

/-- A step of the peer is a move of its send window. -/
theorem move_step (h : n.view.Inv first) (a : Act) :
    SendWindow.Move n.view (n.step .unbounded a).view := by
  cases a with
  | op o => exact .send (send_step_op h o)
  | recv p now =>
    rw [Peer.step_recv]
    split_ifs
    · exact .send .stay
    · exact .send .stay
    · exact move_recv n p now

/-! ## Runs -/

/-- What every reachable peer satisfies on the send side. -/
def Peer.SendInv (cfg : Config) (seq0 : Nat) (n : Peer) : Prop :=
  n.view.Inv seq0 ∧ n.rdt.wndSize = cfg.wndSize

theorem sendInv_init (cfg : Config) (seq0 : Nat) :
    (Peer.init cfg seq0).SendInv cfg seq0 :=
  ⟨SendWindow.inv_start seq0 cfg.wndSize cfg.wnd_pos, rfl⟩

theorem sendInv_step {cfg : Config} {seq0 : Nat} (h : n.SendInv cfg seq0) (a : Act) :
    (n.step .unbounded a).SendInv cfg seq0 := by
  have hmove := move_step h.1 a
  exact ⟨SendWindow.inv_move h.1 hmove, (SendWindow.wnd_move hmove).trans h.2⟩

theorem sendInv_after (cfg : Config) (seq0 : Nat) (acts : List Act) :
    (Peer.after .unbounded cfg seq0 acts).SendInv cfg seq0 :=
  run_invariant' (I := Peer.SendInv cfg seq0) (fun _ a h => sendInv_step h a) acts
    (sendInv_init cfg seq0)

theorem sendInv_uInt32 {cfg : Config} {seq0 : Nat} {acts : List Act}
    (h : BeforeWrap cfg seq0 acts) : (Peer.after .uInt32 cfg seq0 acts).SendInv cfg seq0 := by
  rw [after_uInt32_eq h]
  exact sendInv_after cfg seq0 acts

/-- Conservation of sequence numbers and the window bound, in every state
a sender reaches before the wrap-around. -/
theorem unacked_conserved (cfg : Config) (seq0 : Nat) (acts : List Act)
    (h : BeforeWrap cfg seq0 acts) :
    let n := Peer.after .uInt32 cfg seq0 acts
    (∀ q ∈ n.unacked, (n.queuedSeqs ++ n.flightSeqs).count q = 1) ∧
    (n.rdt.unackList.Pairwise (· < ·) ∧ ∀ q, q ∈ n.rdt.unackList ↔ q ∈ n.flightSeqs) ∧
    (∀ q ∈ n.unacked, n.rdt.sendWndBase ≤ q ∧ q < n.rdt.currentSendSeq) ∧
    n.unacked.length ≤ n.rdt.wndSize := by
  intro n
  have hinv : n.view.Inv seq0 := (sendInv_uInt32 h).1
  refine ⟨?_, ⟨?_, ?_⟩, ?_, ?_⟩
  · intro q hq
    exact hinv.count_unacked hq
  · exact hinv.unack_sorted
  · intro q
    exact hinv.mem_unack
  · intro q hq
    exact hinv.unacked_bounds hq
  · exact hinv.length_unacked

/-- Two packets made, the first of them transmitted. -/
def twoPackets : List Act :=
  [.op (.rdtSend [10]), .op (.flushBuffer 0), .op (.rdtSend [20]), .op (.flushBuffer 0),
    .op .flushQueue]

theorem unacked_conserved_twoPackets :
    let n := Peer.after .uInt32 protocolConfig 1 twoPackets
    (∀ q ∈ n.unacked, (n.queuedSeqs ++ n.flightSeqs).count q = 1) ∧
    (n.rdt.unackList.Pairwise (· < ·) ∧ ∀ q, q ∈ n.rdt.unackList ↔ q ∈ n.flightSeqs) ∧
    (∀ q ∈ n.unacked, n.rdt.sendWndBase ≤ q ∧ q < n.rdt.currentSendSeq) ∧
    n.unacked.length ≤ n.rdt.wndSize :=
  unacked_conserved protocolConfig 1 twoPackets (by decide +kernel)

/-! ## The exact base -/

/-- `send_wnd_base` is the least sequence number assigned and not
acknowledged, `current_send_seq` when there is none. -/
def Peer.BaseExact (n : Peer) : Prop :=
  n.rdt.sendWndBase = n.unacked.min?.getD n.rdt.currentSendSeq

instance (n : Peer) : Decidable n.BaseExact :=
  inferInstanceAs (Decidable (n.rdt.sendWndBase = _))

/-- An ACK for the only packet in flight comes after no ACK for a later
packet. -/
def LeavesNoHole (n : Peer) : Act → Prop
  | .op _ => True
  | .recv p _ =>
      n.exited = false → n.spinning = false → p.cmd = .ack → n.rdt.unackList = [p.ack] →
        ∀ r ∈ n.acked, r < p.ack

/-- One step keeps the base exact exactly when it leaves no hole. -/
theorem exact_step_iff (h : n.view.Inv first) (hexact : n.view.Exact) (a : Act) :
    (n.step .unbounded a).view.Exact ↔ LeavesNoHole n a := by
  cases a with
  | op o => exact iff_of_true (SendWindow.exact_send h hexact (send_step_op h o)) trivial
  | recv p now =>
    rw [Peer.step_recv]
    unfold LeavesNoHole
    cases hexited : n.exited with
    | true => simp [hexact]
    | false =>
      cases hspin : n.spinning with
      | true => simp [hexact]
      | false =>
        simp only [Bool.false_eq_true, if_false, forall_const]
        by_cases hcmd : p.cmd = .ack
        · cases hack : ackAccepted n.rdt p.ack with
          | true =>
            rw [view_recv_accepted n now hcmd hack,
              SendWindow.exact_acknowledge_iff h hexact (mem_flightSeqs_of_accepted hack)]
            exact ⟨fun hnext _ => hnext, fun hnext => hnext hcmd⟩
          | false =>
            rw [view_recv_ignored n now hcmd hack]
            refine iff_of_true hexact fun _ hunack => ?_
            have hmem : p.ack ∈ n.rdt.unackList := by
              rw [hunack]
              exact List.mem_singleton_self _
            rw [ackAccepted_of_mem h (h.mem_unack.mp hmem)] at hack
            contradiction
        · rw [view_recv_of_ne n now hcmd]
          exact iff_of_true hexact fun h' => absurd h' hcmd

/-- The runs in which the base is exact throughout are the ones in which
no acknowledgement leaves a hole. -/
theorem exact_throughout_iff (cfg : Config) (seq0 : Nat) (acts : List Act) :
    Throughout (Peer.step .unbounded) Peer.BaseExact (Peer.init cfg seq0) acts ↔
      Along (Peer.step .unbounded) LeavesNoHole (Peer.init cfg seq0) acts :=
  throughout_iff_along (I := Peer.SendInv cfg seq0) (fun _ a h => sendInv_step h a)
    (fun _ a h hexact => exact_step_iff h.1 hexact a) acts (sendInv_init cfg seq0) rfl

instance (n : Peer) : ∀ a, Decidable (LeavesNoHole n a)
  | .op _ => isTrue trivial
  | .recv p _ =>
      inferInstanceAs (Decidable (n.exited = false → n.spinning = false → p.cmd = .ack →
        n.rdt.unackList = [p.ack] → ∀ r ∈ n.acked, r < p.ack))

/-! ## The window stays open -/

/-- An iteration of `flush_buffer`. -/
def Act.isFlush : Act → Bool
  | .op (.flushBuffer _) => true
  | _ => false

theorem next_flushQueue (n : Peer) : n.flushQueue.view.next = n.view.next := by
  rcases n.flushQueue_cases with ⟨-, h⟩ | ⟨rest, packet, -, h⟩
  · rw [h]
  · rw [h]
    split_ifs <;> rfl

theorem next_recv (n : Peer) (p : Packet) (now : Nat) :
    (n.recv .unbounded p now).view.next = n.view.next := by
  by_cases hcmd : p.cmd = .ack
  · cases hack : ackAccepted n.rdt p.ack with
    | true => rw [view_recv_accepted n now hcmd hack, SendWindow.acknowledge]
    | false => rw [view_recv_ignored n now hcmd hack]
  · rw [view_recv_of_ne n now hcmd]

/-- Only `flush_buffer` assigns numbers. -/
theorem next_step_of_not_flush (n : Peer) {a : Act} (ha : a.isFlush = false) :
    (n.step .unbounded a).view.next = n.view.next := by
  cases a with
  | op o =>
    rw [Peer.step_op]
    split
    · rfl
    · cases o with
      | rdtSend buff => rw [view_rdtSend]
      | flushBuffer now => exact nomatch ha
      | flushQueue => exact next_flushQueue n
      | resend place now => rw [Peer.stepOp, view_resend]
      | rdtRecv len => rfl
  | recv p now =>
    rw [Peer.step_recv]
    split_ifs
    · rfl
    · rfl
    · exact next_recv n p now

theorem next_step_le (h : n.view.Inv first) (a : Act) :
    (n.step .unbounded a).view.next ≤ n.view.next + (if a.isFlush then 1 else 0) := by
  cases ha : a.isFlush with
  | false =>
    rw [next_step_of_not_flush n ha]
    exact Nat.le_add_right _ _
  | true =>
    obtain ⟨now, rfl⟩ : ∃ now, a = .op (.flushBuffer now) := by
      unfold Act.isFlush at ha
      split at ha
      · exact ⟨_, rfl⟩
      · exact nomatch ha
    have hsend := send_step_op h (.flushBuffer now)
    generalize (n.step .unbounded (.op (.flushBuffer now))).view = w' at hsend
    cases hsend <;> simp [SendWindow.enqueue, SendWindow.transmit]

/-- Over a run the base does not move down, and the next number moves up
by the iterations of `flush_buffer` at most. -/
theorem bounds_run {cfg : Config} {seq0 : Nat} (h : n.SendInv cfg seq0) (acts : List Act) :
    n.rdt.sendWndBase ≤ (run (Peer.step .unbounded) n acts).rdt.sendWndBase ∧
      (run (Peer.step .unbounded) n acts).rdt.currentSendSeq
        ≤ n.rdt.currentSendSeq + acts.countP Act.isFlush := by
  induction acts generalizing n with
  | nil => exact ⟨Nat.le_refl _, Nat.le_refl _⟩
  | cons a acts ih =>
    have hbase : n.rdt.sendWndBase ≤ (n.step .unbounded a).rdt.sendWndBase :=
      SendWindow.base_le_move h.1 (move_step h.1 a)
    have hnext : (n.step .unbounded a).rdt.currentSendSeq
        ≤ n.rdt.currentSendSeq + (if a.isFlush then 1 else 0) := next_step_le h.1 a
    obtain ⟨hbase', hnext'⟩ := ih (sendInv_step h a)
    rw [run_cons, List.countP_cons]
    constructor <;> omega

/-- From a state with an exact base and every packet acknowledged, the
window is open until `wnd_size` further iterations of `flush_buffer`. -/
theorem window_open_of_exact {cfg : Config} {seq0 : Nat} (h : n.SendInv cfg seq0)
    (hexact : n.BaseExact) (hnone : n.unacked = []) {later : List Act}
    (hlater : later.countP Act.isFlush < cfg.wndSize) :
    windowFull .unbounded (run (Peer.step .unbounded) n later).rdt = false := by
  have hbase : n.rdt.sendWndBase = n.rdt.currentSendSeq :=
    SendWindow.Exact.base_eq_next (w := n.view) hexact hnone
  obtain ⟨hup, hnext⟩ := bounds_run h later
  have hwnd : (run (Peer.step .unbounded) n later).rdt.wndSize = cfg.wndSize :=
    (run_invariant' (I := Peer.SendInv cfg seq0) (fun _ a h => sendInv_step h a) later h).2
  have hpos := cfg.wnd_pos
  rw [windowFull_unbounded (by omega)]
  omega

/-- The send window base is exact throughout a run if and only if no
acknowledgement leaves a hole; and then, once every packet is
acknowledged, `flush_buffer` finds the window open for `wnd_size` further
iterations, whatever else happens. -/
theorem baseExact_iff_leavesNoHole (cfg : Config) (seq0 : Nat) (acts : List Act)
    (h : BeforeWrap cfg seq0 acts) :
    (Throughout (Peer.step .uInt32) Peer.BaseExact (Peer.init cfg seq0) acts ↔
      Along (Peer.step .uInt32) LeavesNoHole (Peer.init cfg seq0) acts) ∧
    (Along (Peer.step .uInt32) LeavesNoHole (Peer.init cfg seq0) acts →
      (Peer.after .uInt32 cfg seq0 acts).unacked = [] →
      ∀ later now, later.countP Act.isFlush < cfg.wndSize →
        BeforeWrap cfg seq0 (acts ++ later ++ [.op (.flushBuffer now)]) →
        windowFull .uInt32 (Peer.after .uInt32 cfg seq0 (acts ++ later)).rdt = false) := by
  have hiff := exact_throughout_iff cfg seq0 acts
  rw [← throughout_congr step_uInt32_eq h, ← along_congr step_uInt32_eq h] at hiff
  refine ⟨hiff, ?_⟩
  intro halong hnone later now hlater hwrap
  have hexact := (hiff.mpr halong).last
  have hrun : BeforeWrap cfg seq0 (acts ++ later) := ((along_append _ _).mp hwrap).1
  obtain ⟨h0, hle, -⟩ : NoWrapFlush (Peer.after .uInt32 cfg seq0 (acts ++ later)).rdt :=
    Along.at _ [] hwrap
  have hopen := window_open_of_exact (sendInv_after cfg seq0 acts)
    (after_uInt32_eq h ▸ hexact) (after_uInt32_eq h ▸ hnone) hlater
  rw [windowFull_uInt32_eq h0 hle, after_uInt32_eq hrun, Peer.after, run_append]
  exact hopen

/-- Two packets in flight, acknowledged in order. -/
def inOrderAcks : List Act :=
  twoPackets ++ [.op .flushQueue, .recv (ackPacket 0 1) 0, .recv (ackPacket 0 2) 0]

theorem baseExact_inOrderAcks :
    Throughout (Peer.step .uInt32) Peer.BaseExact (Peer.init protocolConfig 1) inOrderAcks ∧
      windowFull .uInt32 (Peer.after .uInt32 protocolConfig 1
        (inOrderAcks ++ [.op (.rdtSend [30]), .op (.flushBuffer 0)])).rdt = false := by
  obtain ⟨hiff, hopen⟩ := baseExact_iff_leavesNoHole protocolConfig 1 inOrderAcks
    (by decide +kernel)
  have halong : Along (Peer.step .uInt32) LeavesNoHole (Peer.init protocolConfig 1)
      inOrderAcks := by
    decide +kernel
  exact ⟨hiff.mpr halong, hopen halong (by decide +kernel) _ 0 (by decide) (by decide +kernel)⟩

/-- The same two packets acknowledged in the other order, then a third. -/
def outOfOrderAcks : List Act :=
  twoPackets ++ [.op .flushQueue, .recv (ackPacket 0 2) 0, .recv (ackPacket 0 1) 0,
    .op (.rdtSend [30]), .op (.flushBuffer 0), .op .flushQueue, .recv (ackPacket 0 3) 0]

/-- Every packet is acknowledged, the base is two numbers behind, and the
window is closed. -/
theorem outOfOrderAcks_stall :
    BeforeWrap protocolConfig 1 outOfOrderAcks ∧
      let n := Peer.after .uInt32 protocolConfig 1 outOfOrderAcks
      n.unacked = [] ∧ n.rdt.sendWndBase = 2 ∧ n.rdt.currentSendSeq = 4 ∧ ¬ n.BaseExact ∧
        windowFull .uInt32 n.rdt = true := by
  decide +kernel

end Training.Udp
