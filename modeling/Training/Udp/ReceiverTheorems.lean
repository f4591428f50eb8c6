/-
Training.Udp.ReceiverTheorems — a peer refines its receive window.

`Peer.recvView` keeps the base, the reorder queue and the SEND packets
handled and pushed. `handle_recv`: handling a SEND packet on unbounded
numbers is a `Handle` of the view, and no other step changes the view, so
the invariant of `RecvWindow` holds of every reachable peer. The bytes
written are then the payloads of consecutive numbers, each once, also in
a state where the receive worker is caught in the drain loop.

The reorder queue is not a set: it holds a number twice when a buffered
packet arrives again (`queueWellFormed_iff_fresh`).
-/
import Training.Udp.ProtocolTheorems
import Training.Udp.RecvWindow
import Training.Udp.Wrap

namespace Training.Udp

open Training.Lib

/-! ## The view -/

/-- The SEND packets of a list of pushes. -/
def sendPushes (pushes : List (Packet × Nat)) : List Packet :=
  (pushes.filter (·.1.cmd = .send)).map Prod.fst

def Peer.recvView (n : Peer) : RecvWindow where
  wnd := n.rdt.wndSize
  base := n.rdt.recvWndBase
  queue := n.rdt.recvQueue
  handled := n.handled
  pushed := sendPushes n.pushes

theorem sendPushes_append (pushes pushes' : List (Packet × Nat)) :
    sendPushes (pushes ++ pushes') = sendPushes pushes ++ sendPushes pushes' := by
  simp [sendPushes]

/-- When all of them are SEND packets. -/
theorem sendPushes_eq {pushes : List (Packet × Nat)} (h : ∀ e ∈ pushes, e.1.cmd = .send) :
    sendPushes pushes = pushes.map Prod.fst := by
  unfold sendPushes
  rw [List.filter_eq_self.mpr (by simpa using h)]

variable {ar : SeqArith} {n : Peer}

/-! ## The steps that handle no SEND packet -/

theorem recvView_flushBuffer (ar : SeqArith) (n : Peer) (now : Nat) :
    (n.flushBuffer ar now).recvView = n.recvView := by
  unfold Peer.flushBuffer
  cases hwnd : windowFull ar n.rdt with
  | true => rw [flushBufferIter_windowFull hwnd]
  | false =>
    rw [flushBufferIter_open hwnd]
    dsimp only
    split_ifs <;> rfl

theorem recvView_flushQueue (n : Peer) : n.flushQueue.recvView = n.recvView := by
  rcases n.flushQueue_cases with ⟨-, h⟩ | ⟨rest, packet, -, h⟩
  · rw [h]
  · rw [h]
    split_ifs <;> rfl

theorem recvView_resend (n : Peer) (place now : Nat) :
    (n.resend place now).recvView = n.recvView := by
  rcases n.resend_cases place now with h | ⟨position, blame, retry, exited, -, h⟩
  · rw [h]
  · rw [h]
    rfl

theorem recvView_stepOp (ar : SeqArith) (n : Peer) (o : Op) :
    (n.stepOp ar o).recvView = n.recvView := by
  cases o with
  | rdtSend buff =>
    simp only [Peer.stepOp, rdtSend]
    split <;> rfl
  | flushBuffer now => exact recvView_flushBuffer ar n now
  | flushQueue => exact recvView_flushQueue n
  | resend place now => exact recvView_resend n place now
  | rdtRecv len => rfl

theorem pushes_stepOp (ar : SeqArith) (n : Peer) (o : Op) :
    (n.stepOp ar o).pushes = n.pushes := by
  cases o with
  | flushBuffer now =>
    simp only [Peer.stepOp, Peer.flushBuffer]
    split <;> rfl
  | flushQueue =>
    simp only [Peer.stepOp, Peer.flushQueue]
    split <;> rfl
  | resend place now =>
    simp only [Peer.stepOp, Peer.resend]
    split <;> rfl
  | _ => rfl

theorem spinning_stepOp (ar : SeqArith) (n : Peer) (o : Op) :
    (n.stepOp ar o).spinning = n.spinning := by
  cases o with
  | flushBuffer now =>
    simp only [Peer.stepOp, Peer.flushBuffer]
    split <;> rfl
  | flushQueue =>
    simp only [Peer.stepOp, Peer.flushQueue]
    split <;> rfl
  | resend place now =>
    simp only [Peer.stepOp, Peer.resend]
    split <;> rfl
  | _ => rfl

/-- A datagram that is not a SEND packet leaves the receive window alone;
a TEST packet is pushed, but it is no SEND packet. -/
theorem recvView_recv_of_ne (ar : SeqArith) (n : Peer) {p : Packet} (now : Nat)
    (hcmd : p.cmd ≠ .send) : (n.recv ar p now).recvView = n.recvView := by
  unfold Peer.recv recvPacket
  cases hp : p.cmd with
  | send => contradiction
  | null => simp [Peer.recvView]
  | test =>
    obtain ⟨buffer, hpush⟩ := pushToRecvBuff_fst n.rdt p
    simp [Peer.recvView, hpush, sendPushes, hp]
  | ack =>
    cases hack : ackAccepted n.rdt p.ack with
    | true =>
      obtain ⟨blame, retry, hrdt⟩ := recvAck_accepted ar hack
      simp [Peer.recvView, hrdt, removeUnack_eq]
    | false => simp [Peer.recvView, recvAck_ignored hack]

/-! ## The handling of a SEND packet -/

theorem handle_recv (h : n.recvView.Inv) {p : Packet} (hcmd : p.cmd = .send) (now : Nat) :
    RecvWindow.Handle n.recvView p (n.recv .unbounded p now).recvView := by
  have hsend : ∀ e ∈ (recvSend .unbounded now n.rdt p).pushes, e.1.cmd = .send := by
    intro e he
    rcases mem_pushes_recvSend he with heq | hmem
    · rw [heq, hcmd]
    · exact h.handled_send _ (h.queue_handled _ hmem)
  have hview : (n.recv .unbounded p now).recvView =
      { wnd := n.rdt.wndSize
        base := (recvSend .unbounded now n.rdt p).rdt.recvWndBase
        queue := (recvSend .unbounded now n.rdt p).rdt.recvQueue
        handled := n.handled ++ [p]
        pushed := sendPushes n.pushes
          ++ (recvSend .unbounded now n.rdt p).pushes.map Prod.fst } := by
    obtain ⟨base, queue, buffer, hrdt⟩ := onlyRecvSide_recvSend .unbounded now n.rdt p
    unfold Peer.recv recvPacket
    rw [hcmd]
    simp only [Peer.recvView, sendPushes_append, sendPushes_eq hsend, if_true, hrdt, queueAck_eq]
  rw [hview]
  cases hwnd : recvWindow .unbounded n.rdt p.seq with
  | first =>
    obtain ⟨buffer, heq⟩ := recvSend_first hwnd
    rw [heq]
    exact .start (recvWindow_eq_first.mp hwnd)
  | discard =>
    obtain ⟨hne, hout⟩ := recvWindow_eq_discard.mp hwnd
    rw [recvSend_discard hwnd, List.map_nil, List.append_nil]
    exact .discard hne hout
  | inOrder =>
    obtain ⟨hne, hseq, -⟩ := recvWindow_eq_inOrder.mp hwnd
    obtain ⟨s', -, hqueue, hnext, heq⟩ := recvSend_inOrder hwnd
    rw [heq]
    obtain ⟨taken, rest, hsplit, hpushes, hrange, hbase, hleft, hstop⟩ := drain_split hqueue
    rw [hnext, unbounded_add] at hrange hbase hstop
    simp only [List.map_cons, hpushes, hbase, hleft]
    exact .deliver hne hseq taken rest hsplit hrange hstop
  | ahead =>
    obtain ⟨hne, hlt, hle⟩ := recvWindow_eq_ahead.mp hwnd
    rw [recvSend_ahead hwnd, List.map_nil, List.append_nil]
    exact .buffer hne hlt hle

/-! ## Runs -/

theorem recvInv_step (h : n.recvView.Inv) (a : Act) : (n.step .unbounded a).recvView.Inv := by
  cases a with
  | op o =>
    rw [Peer.step_op]
    split
    · exact h
    · rw [recvView_stepOp]
      exact h
  | recv p now =>
    rw [Peer.step_recv]
    split_ifs
    · exact h
    · exact h
    · by_cases hcmd : p.cmd = .send
      · exact RecvWindow.inv_handle h hcmd (handle_recv h hcmd now)
      · rw [recvView_recv_of_ne .unbounded n now hcmd]
        exact h

theorem recvInv_init (cfg : Config) (seq0 : Nat) : (Peer.init cfg seq0).recvView.Inv :=
  RecvWindow.inv_empty cfg.wndSize

/-! ## In-order delivery -/

/-- No TEST packet, and SEND packets that carry the payload of their
number. -/
def Act.Carries (payload : Nat → List UInt8) : Act → Prop
  | .op _ => True
  | .recv p _ => p.cmd ≠ .test ∧ (p.cmd = .send → p.data = payload p.seq)

/-- Everything pushed is a SEND packet that was handled, and everything
handled carries the payload of its number. -/
structure Peer.Delivers (payload : Nat → List UInt8) (n : Peer) : Prop where
  inv : n.recvView.Inv
  pushes_send : ∀ e ∈ n.pushes, e.1.cmd = .send
  handled_payload : ∀ p ∈ n.handled, p.data = payload p.seq

theorem delivers_init (payload : Nat → List UInt8) (cfg : Config) (seq0 : Nat) :
    (Peer.init cfg seq0).Delivers payload where
  inv := recvInv_init cfg seq0
  pushes_send := by simp [Peer.init]
  handled_payload := by simp [Peer.init]

theorem delivers_recv {payload : Nat → List UInt8} (h : n.Delivers payload) {p : Packet}
    (now : Nat) (hp : (Act.recv p now).Carries payload)
    (hinv : (n.recv .unbounded p now).recvView.Inv) :
    (n.recv .unbounded p now).Delivers payload := by
  obtain ⟨htest, hpayload⟩ := hp
  refine ⟨hinv, ?_, ?_⟩
  · intro e he
    unfold Peer.recv at he
    rcases List.mem_append.mp he with he | he
    · exact h.pushes_send e he
    · unfold recvPacket at he
      split at he
      · exact absurd he List.not_mem_nil
      · rename_i hcmd
        rcases mem_pushes_recvSend he with heq | hmem
        · rw [heq, hcmd]
        · exact h.inv.handled_send _ (h.inv.queue_handled _ hmem)
      · contradiction
      · exact absurd he List.not_mem_nil
  · intro q hq
    unfold Peer.recv at hq
    dsimp only at hq
    split at hq
    · rename_i hcmd
      rcases List.mem_append.mp hq with hq | hq
      · exact h.handled_payload q hq
      · rw [List.mem_singleton.mp hq]
        exact hpayload hcmd
    · exact h.handled_payload q hq

theorem delivers_step {payload : Nat → List UInt8} (h : n.Delivers payload) {a : Act}
    (ha : a.Carries payload) : (n.step .unbounded a).Delivers payload := by
  have hinv := recvInv_step h.inv a
  cases a with
  | op o =>
    rw [Peer.step_op] at hinv ⊢
    split
    · exact h
    · rename_i hexited
      rw [if_neg hexited] at hinv
      have hview := recvView_stepOp .unbounded n o
      have hpushes : (n.stepOp .unbounded o).pushes = n.pushes := pushes_stepOp .unbounded n o
      have hhandled : (n.stepOp .unbounded o).handled = n.handled :=
        congrArg RecvWindow.handled hview
      exact ⟨hinv, hpushes ▸ h.pushes_send, hhandled ▸ h.handled_payload⟩
  | recv p now =>
    rw [Peer.step_recv] at hinv ⊢
    split_ifs at hinv ⊢
    · exact h
    · exact h
    · exact delivers_recv h now ha hinv

/-- With room for every payload, what was written is the payloads of the
packets pushed. -/
theorem Peer.Delivers.written_eq {payload : Nat → List UInt8} (h : n.Delivers payload)
    (hfull : n.NeverFull) :
    n.written = (n.pushes.map (·.1.seq)).flatMap payload := by
  unfold Peer.written
  rw [List.flatMap_map]
  refine List.flatMap_congr fun e he => ?_
  have hpushed : e.1 ∈ n.recvView.pushed := by
    simp only [Peer.recvView, sendPushes_eq h.pushes_send]
    exact List.mem_map_of_mem he
  rw [hfull e he, Packet.len, List.take_length,
    h.handled_payload _ (h.inv.pushed_handled _ hpushed)]

/-- In-order, at-most-once delivery: whatever SEND datagrams arrive,
what `push_to_recv_buff` has written are the payloads of the numbers from
the first one handled up to the base, each once and in order. -/
theorem written_eq_payloads (cfg : Config) (seq0 : Nat) (acts : List Act)
    (payload : Nat → List UInt8) (hwrap : BeforeWrap cfg seq0 acts)
    (hcarries : ∀ a ∈ acts, a.Carries payload)
    (hfull : (Peer.after .uInt32 cfg seq0 acts).NeverFull) :
    let n := Peer.after .uInt32 cfg seq0 acts
    let delivered := List.range' n.firstSeq (n.rdt.recvWndBase - n.firstSeq)
    n.pushes.map (·.1.seq) = delivered ∧ n.written = delivered.flatMap payload := by
  intro n delivered
  have hdelivers : n.Delivers payload := by
    simp only [n, after_uInt32_eq hwrap]
    exact run_invariant (I := Peer.Delivers payload) (fun _ _ h ha => delivers_step h ha)
      (along_of_forall hcarries) (delivers_init payload cfg seq0)
  have horder : n.pushes.map (·.1.seq) = delivered := by
    have := hdelivers.inv.order
    simp only [Peer.recvView, sendPushes_eq hdelivers.pushes_send, List.map_map] at this
    exact this
  exact ⟨horder, by rw [hdelivers.written_eq hfull, horder]⟩

/-- A SEND packet. -/
def dataPacket (seq : Nat) (data : List UInt8) : Packet where
  seq := seq
  cmd := .send
  ack := 0
  ts := 0
  data := data

/-- Out of order, with a duplicate and a stale packet. -/
def outOfOrder : List Act :=
  [.recv (dataPacket 10 [10]) 0, .recv (dataPacket 12 [12]) 0, .recv (dataPacket 11 [11]) 0,
    .recv (dataPacket 12 [12]) 0, .recv (dataPacket 10 [10]) 0]

theorem written_outOfOrder :
    let n := Peer.after .uInt32 protocolConfig 1 outOfOrder
    let delivered := List.range' n.firstSeq (n.rdt.recvWndBase - n.firstSeq)
    n.pushes.map (·.1.seq) = delivered ∧ n.written = delivered.flatMap fun q => [q.toUInt8] :=
  written_eq_payloads protocolConfig 1 outOfOrder (fun q => [q.toUInt8]) (by decide +kernel)
    (by simp [outOfOrder, Act.Carries, dataPacket]) (by decide +kernel)

/-! ## The reorder queue -/

/-- `recv_queue` is strictly increasing and inside the receive window, so
no longer than the window. -/
def Peer.QueueWellFormed (n : Peer) : Prop :=
  (n.rdt.recvQueue.map Packet.seq).Pairwise (· < ·) ∧
  (∀ s ∈ n.rdt.recvQueue.map Packet.seq,
    n.rdt.recvWndBase < s ∧ s ≤ n.rdt.recvWndBase + n.rdt.wndSize) ∧
  n.rdt.recvQueue.length ≤ n.rdt.wndSize

instance (n : Peer) : Decidable n.QueueWellFormed :=
  inferInstanceAs (Decidable (_ ∧ _ ∧ _))

theorem queueWellFormed_iff : n.QueueWellFormed ↔ n.recvView.WellFormed :=
  ⟨fun h => ⟨h.1, h.2.1⟩, fun h => ⟨h.sorted, h.window, h.length_le⟩⟩

/-- A SEND packet that is handled is not in `recv_queue` already. -/
def Fresh (n : Peer) : Act → Prop
  | .op _ => True
  | .recv p _ =>
      n.exited = false → n.spinning = false → p.cmd = .send →
        p.seq ∉ n.rdt.recvQueue.map Packet.seq

instance (n : Peer) : ∀ a, Decidable (Fresh n a)
  | .op _ => isTrue trivial
  | .recv p _ =>
      inferInstanceAs (Decidable (n.exited = false → n.spinning = false → p.cmd = .send →
        p.seq ∉ n.rdt.recvQueue.map Packet.seq))

theorem queueWellFormed_step_iff (h : n.recvView.Inv) (hwf : n.recvView.WellFormed) (a : Act) :
    (n.step .unbounded a).recvView.WellFormed ↔ Fresh n a := by
  cases a with
  | op o =>
    rw [Peer.step_op]
    split
    · exact iff_of_true hwf trivial
    · rw [recvView_stepOp]
      exact iff_of_true hwf trivial
  | recv p now =>
    rw [Peer.step_recv]
    unfold Fresh
    split_ifs with hexited hspin
    · exact iff_of_true hwf fun h' => by simp [hexited] at h'
    · exact iff_of_true hwf fun _ h' => by simp [hspin] at h'
    · simp only [Bool.not_eq_true] at hexited hspin
      by_cases hcmd : p.cmd = .send
      · rw [RecvWindow.wellFormed_handle_iff h hwf (handle_recv h hcmd now)]
        simp only [hexited, hspin, hcmd, forall_const]
        rfl
      · rw [recvView_recv_of_ne .unbounded n now hcmd]
        exact iff_of_true hwf fun _ _ h' => absurd h' hcmd

/-- The reorder queue is well formed throughout a run if and only if no
packet arrives while it is in the queue. -/
theorem queueWellFormed_iff_fresh (cfg : Config) (seq0 : Nat) (acts : List Act)
    (h : BeforeWrap cfg seq0 acts) :
    Throughout (Peer.step .uInt32) Peer.QueueWellFormed (Peer.init cfg seq0) acts ↔
      Along (Peer.step .uInt32) Fresh (Peer.init cfg seq0) acts := by
  rw [throughout_congr step_uInt32_eq h, along_congr step_uInt32_eq h]
  refine throughout_iff_along (I := fun n : Peer => n.recvView.Inv)
    (fun _ a h => recvInv_step h a) (fun n a hinv hwf => ?_) acts (recvInv_init cfg seq0) ?_
  · rw [queueWellFormed_iff] at hwf ⊢
    exact queueWellFormed_step_iff hinv hwf a
  · exact ⟨.nil, by simp [Peer.init, createRdt], Nat.zero_le _⟩

theorem queueWellFormed_reordered :
    Throughout (Peer.step .uInt32) Peer.QueueWellFormed (Peer.init protocolConfig 1)
      (outOfOrder.take 3) :=
  (queueWellFormed_iff_fresh protocolConfig 1 (outOfOrder.take 3) (by decide +kernel)).mpr
    (by decide +kernel)

/-- The second of three packets is late, and the third is retransmitted. -/
def bufferedTwice : List Act :=
  [.recv (dataPacket 10 [10]) 0, .recv (dataPacket 12 [12]) 0, .recv (dataPacket 12 [12]) 0]

/-- The packet is in the queue twice. When the late one arrives, the
second copy is behind the base and the drain loop never ends. -/
theorem bufferedTwice_not_wellFormed :
    BeforeWrap protocolConfig 1 (bufferedTwice ++ [.recv (dataPacket 11 [11]) 0]) ∧
      ¬ (Peer.after .uInt32 protocolConfig 1 bufferedTwice).QueueWellFormed ∧
      (Peer.after .uInt32 protocolConfig 1 bufferedTwice).rdt.recvQueue.map Packet.seq
        = [12, 12] ∧
      (Peer.after .uInt32 protocolConfig 1
        (bufferedTwice ++ [.recv (dataPacket 11 [11]) 0])).spinning = true := by
  decide +kernel

end Training.Udp
