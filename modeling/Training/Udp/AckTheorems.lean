/-
Training.Udp.AckTheorems — what an ACK promises.

The ACK of a SEND packet goes to `send_queue` before anything is made of
the packet. The sender forgets the packet when the ACK arrives, so what is
acknowledged should be kept: written to `recv_buffer` with its whole
payload, or in `recv_queue` (`Peer.KeepsAcked`). Two things break that.
The packet itself is discarded, or finds no room; and a packet that was
buffered, and kept, is taken off the queue by the drain loop and cut to
the room there is.

`ack_kept_iff`: what is acknowledged stays kept throughout a run exactly
when each SEND packet has a place when it arrives, and with it the packets
of the queue that it releases (`Peer.HasPlace`).
-/
import Training.Udp.DrainTheorems
import Training.Udp.StreamTheorems

namespace Training.Udp

open Training.Lib

/-! ## What the receiver keeps -/

/-- One of these writes to `recv_buffer` is the whole payload of `p`. -/
def WrittenIn (pushes : List (Packet × Nat)) (p : Packet) : Prop :=
  ∃ e ∈ pushes, e.1.cmd = .send ∧ e.1.seq = p.seq ∧ e.1.data = p.data ∧ e.2 = p.len

/-- The number and the payload of `p` are in this queue. -/
def HeldIn (queue : List Packet) (p : Packet) : Prop :=
  ∃ r ∈ queue, r.seq = p.seq ∧ r.data = p.data

def Peer.Keeps (n : Peer) (p : Packet) : Prop :=
  WrittenIn n.pushes p ∨ HeldIn n.rdt.recvQueue p

/-- The numbers the peer has an ACK for in `send_queue` or has sent one. -/
def Peer.acks (n : Peer) : List Nat :=
  ((n.rdt.sendQueue ++ n.sent).filter (·.cmd = .ack)).map Packet.ack

/-- An ACK is for a packet that came, and what came under its number is
kept. -/
def Peer.KeepsAcked (n : Peer) : Prop :=
  ∀ q ∈ n.acks, (∃ p ∈ n.handled, p.seq = q) ∧ ∀ p ∈ n.handled, p.seq = q → n.Keeps p

instance (pushes : List (Packet × Nat)) (p : Packet) : Decidable (WrittenIn pushes p) :=
  inferInstanceAs (Decidable (∃ e ∈ pushes, _))

instance (queue : List Packet) (p : Packet) : Decidable (HeldIn queue p) :=
  inferInstanceAs (Decidable (∃ r ∈ queue, _))

instance (n : Peer) (p : Packet) : Decidable (n.Keeps p) :=
  inferInstanceAs (Decidable (_ ∨ _))

instance (n : Peer) : Decidable n.KeepsAcked :=
  inferInstanceAs (Decidable (∀ q ∈ n.acks, _))

/-! ## A place for a packet -/

/-- When these packets are pushed one after the other with this much room,
each of them was written before, or fits, or has a copy in `left`. -/
def Peer.Stores (n : Peer) (left : List Packet) : Nat → List Packet → Prop
  | _, [] => True
  | room, q :: rest =>
      (WrittenIn n.pushes q ∨ q.len ≤ room ∨ HeldIn left q) ∧ n.Stores left (room - q.len) rest

/-- The receive window lets `p` through and `recv_buffer` has room for it
and for the packets it releases, or `p` was written before. -/
def Peer.HasPlace (n : Peer) (p : Packet) : Prop :=
  match recvWindow .uInt32 n.rdt p.seq with
  | .first => n.Stores [] (ringbuffFreeSize n.rdt.recvBuffer) [p]
  | .discard => WrittenIn n.pushes p
  | .inOrder =>
      let taken := readyRun .uInt32 (SeqArith.uInt32.add n.rdt.recvWndBase 1) n.rdt.recvQueue
      n.Stores (n.rdt.recvQueue.drop taken.length) (ringbuffFreeSize n.rdt.recvBuffer)
        (p :: taken)
  | .ahead => True

/-- A SEND packet that is handled has a place. -/
def Placed (n : Peer) : Act → Prop
  | .op _ => True
  | .recv p _ => n.exited = false → n.spinning = false → p.cmd = .send → n.HasPlace p

instance instDecidableStores (n : Peer) (left : List Packet) :
    ∀ room packets, Decidable (n.Stores left room packets)
  | _, [] => isTrue trivial
  | room, q :: rest =>
      have := instDecidableStores n left (room - q.len) rest
      inferInstanceAs (Decidable (_ ∧ n.Stores left (room - q.len) rest))

instance (n : Peer) (p : Packet) : Decidable (n.HasPlace p) :=
  match h : recvWindow .uInt32 n.rdt p.seq with
  | .first =>
      decidable_of_iff (n.Stores [] (ringbuffFreeSize n.rdt.recvBuffer) [p])
        (by simp only [Peer.HasPlace, h])
  | .discard => decidable_of_iff (WrittenIn n.pushes p) (by simp only [Peer.HasPlace, h])
  | .inOrder =>
      let taken := readyRun .uInt32 (SeqArith.uInt32.add n.rdt.recvWndBase 1) n.rdt.recvQueue
      decidable_of_iff (n.Stores (n.rdt.recvQueue.drop taken.length)
        (ringbuffFreeSize n.rdt.recvBuffer) (p :: taken)) (by simp only [Peer.HasPlace, h, taken])
  | .ahead => isTrue (by simp only [Peer.HasPlace, h])

instance (n : Peer) : ∀ a, Decidable (Placed n a)
  | .op _ => isTrue trivial
  | .recv p _ =>
      inferInstanceAs (Decidable (n.exited = false → n.spinning = false → p.cmd = .send →
        n.HasPlace p))

variable {ar : SeqArith} {n n' : Peer} {p : Packet} {now : Nat}

/-! ## The writes of one step -/

theorem writtenIn_append {pushes pushes' : List (Packet × Nat)} :
    WrittenIn (pushes ++ pushes') p ↔ WrittenIn pushes p ∨ WrittenIn pushes' p := by
  unfold WrittenIn
  simp only [List.mem_append, or_and_right, exists_or]

/-- Writing what fits writes the payload in full when all of it fits; the
writes of other numbers after it do not matter. -/
theorem writtenIn_cons (hcmd : p.cmd = .send) (room : Nat)
    {drained : List (Packet × Nat)} (hne : ∀ e ∈ drained, e.1.seq ≠ p.seq) :
    WrittenIn ((p, min p.len room) :: drained) p ↔ p.len ≤ room := by
  constructor
  · rintro ⟨e, he, -, hseq, -, hlen⟩
    rcases List.mem_cons.mp he with rfl | he
    · simp only at hlen
      omega
    · exact absurd hseq (hne e he)
  · intro hroom
    exact ⟨_, List.mem_cons_self, hcmd, rfl, rfl, Nat.min_eq_left hroom⟩

/-- A write of another number does not matter. -/
theorem writtenIn_cons_of_ne {q : Packet} {w : Nat} {pushes : List (Packet × Nat)}
    (hne : q.seq ≠ p.seq) : WrittenIn ((q, w) :: pushes) p ↔ WrittenIn pushes p := by
  constructor
  · rintro ⟨e, he, hcmd, hseq, hrest⟩
    rcases List.mem_cons.mp he with rfl | he
    · exact absurd hseq hne
    · exact ⟨e, he, hcmd, hseq, hrest⟩
  · rintro ⟨e, he, hrest⟩
    exact ⟨e, List.mem_cons_of_mem _ he, hrest⟩

/-- Packets with different numbers: each of them is kept for itself. -/
theorem stores_iff {left : List Packet} {room : Nat} {packets : List Packet}
    (hsend : ∀ q ∈ packets, q.cmd = .send) (hnodup : (packets.map Packet.seq).Nodup) :
    n.Stores left room packets ↔ ∀ q ∈ packets,
      WrittenIn (n.pushes ++ writes room packets) q ∨ HeldIn left q := by
  induction packets generalizing room with
  | nil => simp [Peer.Stores]
  | cons q rest ih =>
    obtain ⟨hq, hrest⟩ := List.nodup_cons.mp hnodup
    have hother : ∀ r ∈ rest, q.seq ≠ r.seq := fun r hr heq =>
      hq (heq ▸ List.mem_map_of_mem hr)
    have hhead : WrittenIn (writes room (q :: rest)) q ↔ q.len ≤ room := by
      refine writtenIn_cons (hsend q List.mem_cons_self) room fun e he => ?_
      have hmem : e.1 ∈ rest := by
        rw [← map_fst_writes (room - q.len) rest]
        exact List.mem_map_of_mem he
      exact (hother e.1 hmem).symm
    rw [Peer.Stores, ih (fun r hr => hsend r (List.mem_cons_of_mem _ hr)) hrest,
      List.forall_mem_cons, writtenIn_append, hhead, or_assoc]
    refine and_congr_right fun _ => forall₂_congr fun r hr => or_congr_left ?_
    rw [writtenIn_append, writtenIn_append, writes, writtenIn_cons_of_ne (hother r hr)]

theorem Peer.Keeps.congr {q : Packet} (h : n.Keeps q) (hseq : q.seq = p.seq)
    (hdata : q.data = p.data) : n.Keeps p := by
  have hlen : q.len = p.len := congrArg List.length hdata
  unfold Peer.Keeps WrittenIn HeldIn at h ⊢
  rwa [hseq, hdata, hlen] at h

/-- What is pushed and what is left says what is kept: a step that pushes
`p` and the packets `taken` off the queue keeps everything exactly when it
stores these. -/
theorem keepsAll_iff_stores {taken left : List Packet} {room : Nat}
    (hpushes : n'.pushes = n.pushes ++ writes room (p :: taken))
    (hqueue : n.rdt.recvQueue = taken ++ left) (hleft : n'.rdt.recvQueue = left)
    (hhandled : n'.handled = n.handled ++ [p]) (htaken : ∀ q ∈ taken, q ∈ n.handled)
    (hsend : ∀ q ∈ p :: taken, q.cmd = .send)
    (hnodup : ((p :: taken).map Packet.seq).Nodup) (hkeeps : ∀ q ∈ n.handled, n.Keeps q) :
    (∀ q ∈ n'.handled, n'.Keeps q) ↔ n.Stores left room (p :: taken) := by
  have hstores : n.Stores left room (p :: taken) ↔ ∀ q ∈ p :: taken, n'.Keeps q := by
    rw [stores_iff hsend hnodup]
    unfold Peer.Keeps
    rw [hpushes, hleft]
  rw [hstores, hhandled]
  constructor
  · intro hall q hq
    refine hall q ?_
    rcases List.mem_cons.mp hq with rfl | hq
    · exact List.mem_append_right _ (List.mem_singleton_self _)
    · exact List.mem_append_left _ (htaken q hq)
  · intro hall q hq
    rcases List.mem_append.mp hq with hq | hq
    · rcases hkeeps q hq with hwritten | ⟨r, hr, hseq, hdata⟩
      · exact Or.inl (by rw [hpushes]; exact writtenIn_append.mpr (Or.inl hwritten))
      · -- its copy in the queue was pushed, or is still there
        rw [hqueue] at hr
        rcases List.mem_append.mp hr with hr | hr
        · exact (hall r (List.mem_cons_of_mem _ hr)).congr hseq hdata
        · exact Or.inr ⟨r, hleft ▸ hr, hseq, hdata⟩
    · rw [List.mem_singleton.mp hq]
      exact hall p List.mem_cons_self
/-! ## The queue -/

/-- Between datagrams every packet in the queue is ahead of the base,
also after a wrap-around. -/
def Peer.QueueAhead (ar : SeqArith) (n : Peer) : Prop :=
  n.spinning = false → ∀ r ∈ n.rdt.recvQueue, recvWindow ar n.rdt r.seq = .ahead

/-- The window test reads the base and the window size only. -/
theorem recvWindow_congr {s s' : Rdt} (hbase : s'.recvWndBase = s.recvWndBase)
    (hwnd : s'.wndSize = s.wndSize) (seq : Nat) :
    recvWindow ar s' seq = recvWindow ar s seq := by
  unfold recvWindow
  rw [hbase, hwnd]

theorem queueAhead_of_recvView {n n' : Peer} (h : n.QueueAhead ar)
    (hview : n'.recvView = n.recvView) (hspin : n'.spinning = false → n.spinning = false) :
    n'.QueueAhead ar := by
  intro hs r hr
  have hqueue : n'.rdt.recvQueue = n.rdt.recvQueue := congrArg RecvWindow.queue hview
  rw [recvWindow_congr (congrArg RecvWindow.base hview) (congrArg RecvWindow.wnd hview)]
  exact h (hspin hs) r (hqueue ▸ hr)

theorem queueAhead_recv (h : n.QueueAhead ar) (hspin : n.spinning = false) {p : Packet}
    (hcmd : p.cmd = .send) (now : Nat) : (n.recv ar p now).QueueAhead ar := by
  have hrdt : (n.recv ar p now).rdt = (recvSend ar now n.rdt p).rdt := by
    unfold Peer.recv recvPacket
    rw [hcmd]
  have hreturned : (n.recv ar p now).spinning = !(recvSend ar now n.rdt p).returned := by
    unfold Peer.recv recvPacket
    rw [hcmd]
  unfold Peer.QueueAhead
  rw [hrdt, hreturned]
  intro hs r hr
  cases hwnd : recvWindow ar n.rdt p.seq with
  | first =>
    -- the queue was empty: nothing is ahead of a base that is not set
    obtain ⟨buffer, heq⟩ := recvSend_first hwnd
    rw [heq] at hr
    have hahead := (recvWindow_eq_ahead.mp (h hspin r hr)).1
    exact absurd (recvWindow_eq_first.mp hwnd) hahead
  | discard =>
    rw [recvSend_discard hwnd] at hr ⊢
    exact h hspin r hr
  | inOrder =>
    obtain ⟨s', -, hqueue, -, heq⟩ := recvSend_inOrder hwnd
    rw [heq] at hr hs
    rw [drain_returned hqueue (by simpa using hs)] at hr
    exact absurd hr List.not_mem_nil
  | ahead =>
    rw [recvSend_ahead hwnd] at hr ⊢
    rcases mem_seqInsertToList.mp hr with rfl | hr
    · exact hwnd
    · exact h hspin r hr

theorem queueAhead_step (h : n.QueueAhead ar) (a : Act) : (n.step ar a).QueueAhead ar := by
  cases a with
  | op o =>
    rw [Peer.step_op]
    split
    · exact h
    · exact queueAhead_of_recvView h (recvView_stepOp ar n o)
        (by rw [spinning_stepOp]; exact id)
  | recv p now =>
    rw [Peer.step_recv]
    split_ifs with hexited hspin
    · exact h
    · exact h
    · by_cases hcmd : p.cmd = .send
      · exact queueAhead_recv h (by simpa using hspin) hcmd now
      · exact queueAhead_of_recvView h (recvView_recv_of_ne ar n now hcmd)
          fun _ => by simpa using hspin

theorem queueAhead_after (ar : SeqArith) (cfg : Config) (seq0 : Nat) (acts : List Act) :
    (Peer.after ar cfg seq0 acts).QueueAhead ar :=
  run_invariant' (I := Peer.QueueAhead ar) (fun _ a h => queueAhead_step h a) acts
    fun _ _ hr => absurd hr List.not_mem_nil

/-- What is in the queue was handled, and what was handled is a SEND
packet. -/
def Peer.QueueHandled (n : Peer) : Prop :=
  (∀ r ∈ n.rdt.recvQueue, r ∈ n.handled) ∧ ∀ q ∈ n.handled, q.cmd = .send

theorem queueHandled_of_recvView (h : n.QueueHandled) (hview : n'.recvView = n.recvView) :
    n'.QueueHandled := by
  have hqueue : n'.rdt.recvQueue = n.rdt.recvQueue := congrArg RecvWindow.queue hview
  have hhandled : n'.handled = n.handled := congrArg RecvWindow.handled hview
  unfold Peer.QueueHandled
  rw [hqueue, hhandled]
  exact h

theorem recvQueue_recvSend {r : Packet} (hr : r ∈ (recvSend ar now n.rdt p).rdt.recvQueue) :
    r = p ∨ r ∈ n.rdt.recvQueue := by
  cases hwindow : recvWindow ar n.rdt p.seq with
  | first =>
    obtain ⟨buffer, heq⟩ := recvSend_first hwindow
    rw [heq] at hr
    exact Or.inr hr
  | discard =>
    rw [recvSend_discard hwindow] at hr
    exact Or.inr hr
  | inOrder =>
    obtain ⟨s', -, hqueue, -, heq⟩ := recvSend_inOrder hwindow
    rw [heq] at hr
    exact Or.inr ((drain_queue_suffix hqueue).subset hr)
  | ahead =>
    rw [recvSend_ahead hwindow] at hr
    exact mem_seqInsertToList.mp hr

/-- What a SEND packet that is handled leaves of the peer. -/
theorem recv_send (ar : SeqArith) (n : Peer) (now : Nat) (hcmd : p.cmd = .send) :
    n.recv ar p now = { n with
      rdt := (recvSend ar now n.rdt p).rdt
      spinning := !(recvSend ar now n.rdt p).returned
      handled := n.handled ++ [p]
      pushes := n.pushes ++ (recvSend ar now n.rdt p).pushes } := by
  unfold Peer.recv recvPacket
  simp [hcmd]

theorem queueHandled_recv (h : n.QueueHandled) (hcmd : p.cmd = .send) :
    (n.recv ar p now).QueueHandled := by
  rw [recv_send ar n now hcmd]
  refine ⟨fun r hr => ?_, fun q hq => ?_⟩
  · rcases recvQueue_recvSend hr with rfl | hr
    · exact List.mem_append_right _ (List.mem_singleton_self _)
    · exact List.mem_append_left _ (h.1 r hr)
  · rcases List.mem_append.mp hq with hq | hq
    · exact h.2 q hq
    · rw [List.mem_singleton.mp hq]
      exact hcmd

/-! ## The ACKs -/

/-- The packets in flight are SEND packets, and the numbers acknowledged
are the ones handled. -/
structure Peer.AcksHandled (n : Peer) : Prop where
  flight : ∀ q ∈ n.rdt.flightSendQueue, q.cmd = .send
  acks : ∀ q, q ∈ n.acks ↔ q ∈ n.handled.map Packet.seq

theorem mem_acks {q : Nat} : q ∈ n.acks ↔
    ∃ a, (a ∈ n.rdt.sendQueue ∨ a ∈ n.sent) ∧ a.cmd = .ack ∧ a.ack = q := by
  simp only [Peer.acks, List.mem_map, List.mem_filter, List.mem_append, decide_eq_true_eq,
    and_assoc]

theorem acksHandled_flushBuffer (h : n.AcksHandled) : (n.flushBuffer ar now).AcksHandled := by
  unfold Peer.flushBuffer
  cases hwnd : windowFull ar n.rdt with
  | true =>
    rw [flushBufferIter_windowFull hwnd]
    exact h
  | false =>
    rw [flushBufferIter_open hwnd]
    dsimp only
    split_ifs
    · -- the packet made is a SEND packet
      exact ⟨h.flight, h.acks⟩
    · exact ⟨h.flight, h.acks⟩

theorem acksHandled_flushQueue (h : n.AcksHandled) : n.flushQueue.AcksHandled := by
  rcases n.flushQueue_cases with ⟨-, heq⟩ | ⟨rest, packet, hqueue, heq⟩
  · rw [heq]
    exact h
  · have hsame : ∀ a, (a ∈ rest ∨ a ∈ n.sent ++ [packet]) ↔
        (a ∈ n.rdt.sendQueue ∨ a ∈ n.sent) := by
      intro a
      rw [hqueue]
      simp only [List.mem_append, List.mem_singleton]
      tauto
    rw [heq]
    refine ⟨?_, fun q => Iff.trans ?_ (h.acks q)⟩
    · split_ifs with hcmd
      · exact List.forall_mem_cons.mpr ⟨hcmd, h.flight⟩
      · exact h.flight
    · rw [mem_acks, mem_acks]
      split_ifs <;> exact exists_congr fun a => and_congr_left fun _ => hsame a

theorem acksHandled_resend (h : n.AcksHandled) (place now : Nat) :
    (n.resend place now).AcksHandled := by
  rcases n.resend_cases place now with heq | ⟨position, blame, retry, exited, hpos, heq⟩
  · rw [heq]
    exact h
  · have hcmd : position.cmd = .send := h.flight position (List.mem_of_getElem? hpos)
    rw [heq]
    refine ⟨fun q hq => ?_, fun q => Iff.trans ?_ (h.acks q)⟩
    · rcases List.mem_or_eq_of_mem_set hq with hq | rfl
      · exact h.flight q hq
      · exact hcmd
    · simp [Peer.acks, hcmd]

theorem acksHandled_stepOp (h : n.AcksHandled) (o : Op) : (n.stepOp ar o).AcksHandled := by
  cases o with
  | rdtSend buff =>
    simp only [Peer.stepOp, rdtSend]
    split <;> exact ⟨h.flight, h.acks⟩
  | flushBuffer now => exact acksHandled_flushBuffer h
  | flushQueue => exact acksHandled_flushQueue h
  | resend place now => exact acksHandled_resend h place now
  | rdtRecv len => exact ⟨h.flight, h.acks⟩

/-- A datagram that is not a SEND packet queues no ACK. -/
theorem sendQueue_recvPacket (ar : SeqArith) (now : Nat) (s : Rdt) (hcmd : p.cmd ≠ .send) :
    (recvPacket ar now s p).rdt.sendQueue = s.sendQueue := by
  unfold recvPacket
  cases hp : p.cmd with
  | send => contradiction
  | null => rfl
  | test =>
    obtain ⟨buffer, hpush⟩ := pushToRecvBuff_fst s p
    simp only [hpush]
  | ack =>
    cases hack : ackAccepted s p.ack with
    | true =>
      obtain ⟨blame, retry, hrdt⟩ := recvAck_accepted ar hack
      simp only [hrdt, removeUnack_eq]
    | false => simp only [recvAck_ignored hack]

theorem acksHandled_recv (h : n.AcksHandled) (p : Packet) (now : Nat) :
    (n.recv ar p now).AcksHandled := by
  refine ⟨fun q hq => h.flight q ((sendSide_recvPacket ar now n.rdt p).2.2 hq), fun q => ?_⟩
  by_cases hcmd : p.cmd = .send
  · obtain ⟨base, queue, buffer, hrdt⟩ := onlyRecvSide_recvSend ar now n.rdt p
    have hacks : (n.recv ar p now).acks = p.seq :: n.acks := by
      rw [recv_send ar n now hcmd, Peer.acks, hrdt, queueAck_eq]
      rfl
    have hhandled : (n.recv ar p now).handled = n.handled ++ [p] := by
      rw [recv_send ar n now hcmd]
    rw [hacks, hhandled, List.mem_cons, h.acks q, List.map_append, List.mem_append, or_comm,
      List.map_singleton, List.mem_singleton]
  · have hsent : (n.recv ar p now).acks = n.acks := by
      show (((recvPacket ar now n.rdt p).rdt.sendQueue ++ n.sent).filter _).map _ = _
      rw [sendQueue_recvPacket ar now n.rdt hcmd]
      rfl
    have hhandled : (n.recv ar p now).handled = n.handled :=
      congrArg RecvWindow.handled (recvView_recv_of_ne ar n now hcmd)
    rw [hsent, hhandled]
    exact h.acks q

/-! ## One step -/

theorem keepsAcked_iff (h : n.AcksHandled) : n.KeepsAcked ↔ ∀ q ∈ n.handled, n.Keeps q := by
  constructor
  · intro hkeeps q hq
    exact (hkeeps q.seq ((h.acks q.seq).mpr (List.mem_map_of_mem hq))).2 q hq rfl
  · intro hall seq hseq
    obtain ⟨q, hq, heq⟩ := List.mem_map.mp ((h.acks seq).mp hseq)
    exact ⟨⟨q, hq, heq⟩, fun r hr _ => hall r hr⟩

/-- What the loop takes behind the base has different numbers. -/
theorem nodup_taken (h : n.rdt.RecvInv) (hwnd : 0 < n.rdt.wndSize)
    (hwindow : recvWindow .uInt32 n.rdt p.seq = .inOrder) :
    ((p :: readyRun .uInt32 (SeqArith.uInt32.add n.rdt.recvWndBase 1)
      n.rdt.recvQueue).map Packet.seq).Nodup := by
  obtain ⟨-, hseq, -⟩ := recvWindow_eq_inOrder.mp hwindow
  have hround := h.round hwindow
  have hnext : SeqArith.uInt32.add n.rdt.recvWndBase 1 = n.rdt.recvWndBase + 1 :=
    Nat.mod_eq_of_lt (by omega)
  obtain ⟨-, -, hsplit⟩ := @recvSend_inOrder_run .uInt32 _ _ 0 hwindow
  have hsorted := h.sorted
  rw [hsplit, List.map_append, hnext, map_seq_readyRun] at hsorted
  have hsorted := (List.pairwise_append.mp hsorted).1
  have hle := le_of_sorted (Nat.succ_pos _) (by omega) hsorted
  rw [hnext, List.map_cons, map_seq_readyRun, consecutive_eq hle, hseq]
  refine List.nodup_cons.mpr ⟨fun hmem => ?_, List.nodup_range'⟩
  have := List.mem_range'_1.mp hmem
  omega

/-- Handling a SEND packet keeps what was handled exactly when the packet
has a place. -/
theorem keepsAll_recv_iff (h : n.rdt.RecvInv) (hwnd : 0 < n.rdt.wndSize)
    (hahead : n.QueueAhead .uInt32) (hqueue : n.QueueHandled) (hspin : n.spinning = false)
    (hcmd : p.cmd = .send) (hkeeps : ∀ q ∈ n.handled, n.Keeps q) :
    (∀ q ∈ (n.recv .uInt32 p now).handled, (n.recv .uInt32 p now).Keeps q) ↔ n.HasPlace p := by
  have hrecv := recv_send .uInt32 n now hcmd
  unfold Peer.HasPlace
  cases hwindow : recvWindow .uInt32 n.rdt p.seq with
  | first =>
    have hnil := h.empty (recvWindow_eq_first.mp hwindow)
    obtain ⟨buffer, heq⟩ := @recvSend_first _ now _ _ hwindow
    refine keepsAll_iff_stores ?_ hnil ?_ ?_ (by simp) (by simpa using hcmd)
      (by simp) hkeeps
    · rw [hrecv, (recvSend_first_run hwindow).1]
    · rw [hrecv, heq]
      exact hnil
    · rw [hrecv]
  | discard =>
    have hhandled : (n.recv .uInt32 p now).handled = n.handled ++ [p] := by rw [hrecv]
    have hsame : ∀ q, (n.recv .uInt32 p now).Keeps q ↔ n.Keeps q := by
      intro q
      rw [hrecv, recvSend_discard hwindow, List.append_nil, queueAck_eq]
      rfl
    simp only [hhandled, hsame, List.forall_mem_append, List.forall_mem_singleton]
    rw [and_iff_right hkeeps]
    refine or_iff_left ?_
    -- a packet that is discarded is not in the queue
    rintro ⟨r, hr, hseq, -⟩
    have hin := hahead hspin r hr
    rw [hseq, hwindow] at hin
    cases hin
  | inOrder =>
    obtain ⟨hpushes, -, hsplit⟩ := @recvSend_inOrder_run _ _ _ now hwindow
    have htaken : ∀ q ∈ readyRun .uInt32 (SeqArith.uInt32.add n.rdt.recvWndBase 1)
        n.rdt.recvQueue, q ∈ n.handled := fun q hq =>
      hqueue.1 q (by rw [hsplit]; exact List.mem_append_left _ hq)
    have hdrop := List.prefix_iff_eq_append.mp ⟨_, hsplit.symm⟩
    refine keepsAll_iff_stores ?_ hdrop.symm ?_ ?_ htaken ?_ (nodup_taken h hwnd hwindow) hkeeps
    · rw [hrecv, hpushes]
    · rw [hrecv]
      exact (List.append_cancel_left (hdrop.trans hsplit)).symm
    · rw [hrecv]
    · exact List.forall_mem_cons.mpr ⟨hcmd, fun q hq => hqueue.2 q (htaken q hq)⟩
  | ahead =>
    refine iff_of_true ?_ trivial
    have hheld : ∀ q, n.Keeps q ∨ q = p → (n.recv .uInt32 p now).Keeps q := by
      rw [hrecv, recvSend_ahead hwindow, List.append_nil, queueAck_eq]
      rintro q ((hwritten | ⟨r, hr, hsame⟩) | rfl)
      · exact Or.inl hwritten
      · exact Or.inr ⟨r, mem_seqInsertToList.mpr (Or.inr hr), hsame⟩
      · exact Or.inr ⟨q, mem_seqInsertToList.mpr (Or.inl rfl), rfl, rfl⟩
    rw [show (n.recv .uInt32 p now).handled = n.handled ++ [p] by rw [hrecv]]
    intro q hq
    rcases List.mem_append.mp hq with hq | hq
    · exact hheld q (Or.inl (hkeeps q hq))
    · exact hheld q (Or.inr (List.mem_singleton.mp hq))

theorem keepsAll_of_recvView (hview : n'.recvView = n.recvView)
    (hpushes : n.pushes <+: n'.pushes) (hkeeps : ∀ q ∈ n.handled, n.Keeps q) :
    ∀ q ∈ n'.handled, n'.Keeps q := by
  have hqueue : n'.rdt.recvQueue = n.rdt.recvQueue := congrArg RecvWindow.queue hview
  have hhandled : n'.handled = n.handled := congrArg RecvWindow.handled hview
  obtain ⟨more, hmore⟩ := hpushes
  intro q hq
  rcases hkeeps q (hhandled ▸ hq) with hwritten | hheld
  · exact Or.inl (hmore ▸ writtenIn_append.mpr (Or.inl hwritten))
  · exact Or.inr (hqueue ▸ hheld)

/-! ## Runs -/

structure Peer.AckInv (n : Peer) : Prop where
  recv : n.RecvInv
  ahead : n.QueueAhead .uInt32
  queue : n.QueueHandled
  acks : n.AcksHandled

theorem ackInv_init (cfg : Config) (seq0 : Nat) (hcfg : cfg.wndSize < uInt32Size) :
    (Peer.init cfg seq0).AckInv where
  recv := peerRecvInv_after cfg seq0 [] hcfg
  ahead := queueAhead_after .uInt32 cfg seq0 []
  queue := ⟨nofun, nofun⟩
  acks := ⟨nofun, fun _ => Iff.rfl⟩

theorem ackInv_step (h : n.AckInv) (a : Act) : (n.step .uInt32 a).AckInv := by
  refine ⟨peerRecvInv_step h.recv a, queueAhead_step h.ahead a, ?_, ?_⟩
  · cases a with
    | op o =>
      rw [Peer.step_op]
      split
      · exact h.queue
      · exact queueHandled_of_recvView h.queue (recvView_stepOp .uInt32 n o)
    | recv p now =>
      rw [Peer.step_recv]
      split_ifs
      · exact h.queue
      · exact h.queue
      · by_cases hcmd : p.cmd = .send
        · exact queueHandled_recv h.queue hcmd
        · exact queueHandled_of_recvView h.queue (recvView_recv_of_ne .uInt32 n now hcmd)
  · cases a with
    | op o =>
      rw [Peer.step_op]
      split
      · exact h.acks
      · exact acksHandled_stepOp h.acks o
    | recv p now =>
      rw [Peer.step_recv]
      split_ifs
      · exact h.acks
      · exact h.acks
      · exact acksHandled_recv h.acks p now

theorem keepsAcked_step_iff (h : n.AckInv) (hkeeps : n.KeepsAcked) (a : Act) :
    (n.step .uInt32 a).KeepsAcked ↔ Placed n a := by
  have hall := (keepsAcked_iff h.acks).mp hkeeps
  rw [keepsAcked_iff (ackInv_step h a).acks]
  cases a with
  | op o =>
    rw [Peer.step_op]
    split
    · exact iff_of_true hall trivial
    · have hpushes := pushes_stepOp .uInt32 n o
      refine iff_of_true ?_ trivial
      exact keepsAll_of_recvView (recvView_stepOp .uInt32 n o) (hpushes.symm ▸ List.prefix_rfl) hall
  | recv p now =>
    rw [Peer.step_recv]
    unfold Placed
    split_ifs with hexited hspin
    · exact iff_of_true hall fun h' => absurd hexited (by simp [h'])
    · exact iff_of_true hall fun _ h' => absurd hspin (by simp [h'])
    · have hrunning : n.spinning = false := by simpa using hspin
      by_cases hcmd : p.cmd = .send
      · rw [keepsAll_recv_iff (h.recv.2 hrunning) h.recv.1 h.ahead h.queue hrunning hcmd hall]
        exact ⟨fun hplace _ _ _ => hplace, fun hplace => hplace (by simpa using hexited) hrunning
          hcmd⟩
      · refine iff_of_true ?_ fun _ _ h' => absurd h' hcmd
        exact keepsAll_of_recvView (recvView_recv_of_ne .uInt32 n now hcmd)
          (List.prefix_append _ _) hall

/-- No false acknowledgement, exactly: throughout a run, also past the
wrap-around, everything the receiver has acknowledged is kept if and only
if each SEND packet has a place when it is handled. -/
theorem ack_kept_iff (cfg : Config) (seq0 : Nat) (acts : List Act)
    (hcfg : cfg.wndSize < uInt32Size) :
    Throughout (Peer.step .uInt32) Peer.KeepsAcked (Peer.init cfg seq0) acts ↔
      Along (Peer.step .uInt32) Placed (Peer.init cfg seq0) acts :=
  throughout_iff_along (I := Peer.AckInv) (fun _ a h => ackInv_step h a)
    (fun _ a h hkeeps => keepsAcked_step_iff h hkeeps a) acts (ackInv_init cfg seq0 hcfg) nofun

/-- Out of order, a duplicate and a stale packet: nothing acknowledged is
lost. -/
theorem ack_kept_outOfOrder :
    Throughout (Peer.step .uInt32) Peer.KeepsAcked (Peer.init protocolConfig 1) outOfOrder :=
  (ack_kept_iff protocolConfig 1 outOfOrder (by decide)).mpr (by decide +kernel)

/-- The second of two packets comes first, and the first of them is
discarded with its ACK queued. And with room for two bytes, 12 is
acknowledged and buffered, and then taken off the queue and written
nowhere. -/
theorem ack_of_discarded :
    ¬ (Peer.after .uInt32 protocolConfig 1
        [.recv (dataPacket 11 [11]) 0, .recv (dataPacket 10 [10]) 0]).KeepsAcked ∧
      (Peer.after .uInt32 twoByteConfig 1 (outOfOrder.take 2)).KeepsAcked ∧
      ¬ (Peer.after .uInt32 twoByteConfig 1 (outOfOrder.take 3)).KeepsAcked := by
  decide +kernel

end Training.Udp
