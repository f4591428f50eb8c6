/-
Training.Rudp.WindowTheorems — when the earlier protocol keeps its send
window.

In a run before the wrap-around whose `flush_queue` loops send numbers
inside the window only, every connection of every process is disciplined
in every state exactly when each step meets `Conn.KeepsOpen`
(`disciplined_iff_keepsOpen`). A burst of `wnd_size` packets is enough to
break it: it fills the window before anything is sent, and nothing is
ever sent (`window_undisciplined`).

Each step is a move of the connection's `Window` or none (the `view_`
lemmas), so the invariant and the step lemma are about moves.
-/
import Training.Rudp.Window

namespace Training.Rudp

open Training.Lib
open Training.Udp (Packet Cmd Config SeqArith uInt32Size seqNumMax ringbuffDataSize findPacket)

variable {n : Conn}

/-! ## The moves of a connection -/

structure Conn.Inv (n : Conn) : Prop where
  mtu_pos : 0 < n.rdt.mtu
  window : n.view.Inv
  within : n.view.Within
  flight : ∀ p ∈ n.rdt.flightSendQueue, p.cmd = .send

theorem view_init (cfg : Config) (seq0 : Nat) :
    (Conn.init cfg seq0).view = ⟨cfg.wndSize, seq0, seq0, [], [], [], []⟩ := rfl

theorem inv_init (cfg : Config) {seq0 : Nat} (h : seq0 + cfg.wndSize ≤ uInt32Size) :
    (Conn.init cfg seq0).Inv where
  mtu_pos := cfg.mtu_pos
  window := Window.inv_start seq0 cfg.wndSize cfg.wnd_pos h
  within := by simp [view_init, Window.Within]
  flight := by simp [Conn.init, createRdt]

theorem view_flushBuffer_empty (now : Nat) (h : ringbuffDataSize n.rdt.sendBuffer = 0) :
    (n.flushBuffer now).view = n.view := by
  simp [Conn.flushBuffer, flushBufferIter_empty now h, Conn.view, Conn.queuedSeqs,
    Conn.flightSeqs, Conn.sentSeqs]

theorem view_flushBuffer_data (now : Nat) (hmtu : 0 < n.rdt.mtu)
    (h : 0 < ringbuffDataSize n.rdt.sendBuffer) (hwrap : n.rdt.currentSendSeq + 1 < seqNumMax) :
    (n.flushBuffer now).view = n.view.enqueue := by
  obtain ⟨data, hiter⟩ := flushBufferIter_data now hmtu h
  simp [Conn.flushBuffer, hiter, Conn.view, Conn.queuedSeqs, Conn.flightSeqs, Conn.sentSeqs,
    Window.enqueue, nextPacket, Udp.uInt32_nextSeq_eq hwrap]

theorem flushQueue_send (h : n.sending = true) {rest : List Packet} {packet : Packet}
    (hqueue : n.rdt.sendQueue = rest ++ [packet]) (hcmd : packet.cmd = .send) :
    n.flushQueue.view = n.view.transmit ((rest.filter (·.cmd = .send)).map Packet.seq) packet.seq ∧
      n.queuedSeqs = (rest.filter (·.cmd = .send)).map Packet.seq ++ [packet.seq] ∧
      n.flushQueue.rdt.flightSendQueue = packet :: n.rdt.flightSendQueue := by
  rw [flushQueue_concat h hqueue, if_pos hcmd]
  simp [Conn.view, Conn.queuedSeqs, Conn.flightSeqs, Conn.sentSeqs, Window.transmit, hqueue, hcmd]

theorem flushQueue_ack (h : n.sending = true) {rest : List Packet} {packet : Packet}
    (hqueue : n.rdt.sendQueue = rest ++ [packet]) (hcmd : packet.cmd ≠ .send) :
    n.flushQueue.view = n.view ∧
      n.flushQueue.rdt.flightSendQueue = n.rdt.flightSendQueue := by
  rw [flushQueue_concat h hqueue, if_neg hcmd]
  simp [Conn.view, Conn.queuedSeqs, Conn.flightSeqs, Conn.sentSeqs, hqueue, hcmd]

theorem view_recvData (now : Nat) (p : Packet) :
    Conn.view { n with rdt := recvData now n.rdt p } = n.view := by
  obtain ⟨current, buffer, hrdt⟩ := recvData_eq now n.rdt p
  rw [hrdt]
  by_cases hcmd : p.cmd = .send <;>
    simp [Conn.view, Conn.queuedSeqs, Conn.flightSeqs, Conn.sentSeqs, hcmd, ackPacket]

theorem view_acknowledge {n : Conn} {ack retry : Nat}
    (hwrap : ack = n.rdt.sendWndBase → n.rdt.sendWndBase + 1 < uInt32Size) :
    Conn.view { n with
      rdt := { n.rdt with
        resendRetry := retry
        sendWndBase := baseAfterAck n.rdt ack
        flightSendQueue := n.rdt.flightSendQueue.eraseP (·.seq == ack) }
      acked := n.acked ++ [ack] } = n.view.acknowledge ack := by
  have hbase : baseAfterAck n.rdt ack =
      if ack = n.rdt.sendWndBase then n.rdt.sendWndBase + 1 else n.rdt.sendWndBase := by
    unfold baseAfterAck
    split
    · rename_i heq
      exact Udp.uInt32_add_eq (hwrap heq)
    · rfl
  simp only [Conn.view, Conn.flightSeqs, Udp.map_eraseP_seq, hbase]
  rfl

/-! ## One step -/

/-- What the window test says, in a window that does not wrap. -/
theorem Conn.Inv.open_iff (h : n.Inv) :
    windowFull n.rdt = false ↔ n.view.next < n.view.base + n.view.wnd :=
  windowFull_eq_false (Nat.add_pos_right _ h.window.wnd_pos) h.window.range

section Progress

/-- Something to send with nothing in flight is sent by the next call. -/
def Conn.Opens (n : Conn) : Prop :=
  n.view.flight = [] → n.view.queued ≠ [] →
    n.sending = true ∨ n.view.next < n.view.base + n.view.wnd

theorem mem_unacknowledged (h : n.Inv) {q : Nat} : q ∈ n.unacknowledged ↔ q ∈ n.flightSeqs := by
  unfold Conn.unacknowledged
  have hsent : q ∈ n.sentSeqs ↔ q ∈ n.flightSeqs ∨ q ∈ n.acked := h.window.sent q
  rw [List.mem_dedup, List.mem_filter, decide_eq_true_iff, hsent]
  constructor
  · rintro ⟨hq | hq, hnot⟩
    · exact hq
    · exact absurd hq hnot
  · intro hq
    exact ⟨Or.inl hq, h.window.not_mem_acked hq⟩

theorem unacknowledged_perm (h : n.Inv) : n.unacknowledged.Perm n.flightSeqs :=
  (List.perm_ext_iff_of_nodup (List.nodup_dedup _) h.window.flight_nodup).mpr
    fun _ => mem_unacknowledged h

theorem queuedSeqs_ne_nil : n.queuedSeqs ≠ [] ↔ ∃ p ∈ n.rdt.sendQueue, p.cmd = .send := by
  simp [Conn.queuedSeqs, List.filter_eq_nil_iff]

theorem flushes_eq (n : Conn) :
    n.flushes = if n.sending = true ∨ windowFull n.rdt = false then n.rdt.sendQueue.reverse
      else [] := by
  unfold Conn.flushes
  rw [flushQueueLoop_sent, flushQueue_sent]
  cases n.sending <;> cases windowFull n.rdt <;> rfl

/-- The steps of the worker in its loop, with no other step between. -/
theorem loop_sent (queue : List Packet) (n : Conn) (h : n.sending = true)
    (hqueue : n.rdt.sendQueue = queue) :
    (Conn.flushQueue^[queue.length + 1] n).sent = n.sent ++ queue.reverse ∧
      (Conn.flushQueue^[queue.length + 1] n).sending = false := by
  induction queue using List.reverseRecOn generalizing n with
  | nil =>
    rw [List.length_nil, Nat.zero_add, Function.iterate_one, flushQueue_done h hqueue]
    exact ⟨(List.append_nil _).symm, rfl⟩
  | append_singleton rest packet ih =>
    have hstep := flushQueue_concat h hqueue
    have hsent : n.flushQueue.sent = n.sent ++ [packet] := by
      rw [hstep]
      split <;> rfl
    have hnext := ih n.flushQueue (by rw [hstep]; split <;> exact h)
      (by rw [hstep]; split <;> rfl)
    rw [List.length_append, List.length_singleton, Function.iterate_succ_apply]
    refine ⟨?_, hnext.2⟩
    rw [hnext.1, hsent]
    simp

/-- `flushes` is what the worker sends in a call of `flush_queue` that
runs alone. -/
theorem flushes_sent (n : Conn) :
    ∃ k, (Conn.flushQueue^[k] n).sent = n.sent ++ n.flushes ∧
      (Conn.flushQueue^[k] n).sending = false := by
  rw [flushes_eq]
  cases hsending : n.sending with
  | true =>
    rw [if_pos (Or.inl rfl)]
    exact ⟨_, loop_sent _ n hsending rfl⟩
  | false =>
    have hout := flushQueue_outside hsending
    cases hblocked : n.rdt.sendQueue.isEmpty || windowFull n.rdt with
    | true =>
      refine ⟨0, ?_, hsending⟩
      rw [Function.iterate_zero, id]
      rcases Bool.or_eq_true _ _ |>.mp hblocked with hempty | hfull
      · rw [List.isEmpty_iff.mp hempty]
        simp
      · simp [hfull]
    | false =>
      rw [hblocked] at hout
      obtain ⟨-, hopen⟩ := Bool.or_eq_false_iff.mp hblocked
      refine ⟨n.rdt.sendQueue.length + 1 + 1, ?_⟩
      rw [if_pos (Or.inr hopen), Function.iterate_succ_apply, hout]
      exact loop_sent _ _ rfl rfl

/-- A connection with the invariant is disciplined when it opens. -/
theorem disciplined_iff (h : n.Inv) : n.Disciplined ↔ n.Opens := by
  have hperm := unacknowledged_perm h
  have hnil : n.unacknowledged = [] ↔ n.view.flight = [] :=
    ⟨fun hu => List.nil_perm.mp (hu ▸ hperm), fun hf => List.perm_nil.mp (hf ▸ hperm)⟩
  have hflushes : n.queuedSeqs ≠ [] →
      (n.flushes ≠ [] ↔ n.sending = true ∨ windowFull n.rdt = false) := by
    intro hq
    obtain ⟨p, hp, -⟩ := queuedSeqs_ne_nil.mp hq
    rw [flushes_eq]
    split
    · rename_i hopen
      refine iff_of_true (fun hrev => ?_) hopen
      rw [List.reverse_eq_nil_iff.mp hrev] at hp
      exact absurd hp List.not_mem_nil
    · rename_i hopen
      exact iff_of_false (fun hne => hne rfl) hopen
  constructor
  · intro hd hflight hqueued
    rw [← h.open_iff, ← hflushes hqueued]
    exact hd.progress (hnil.mpr hflight) (queuedSeqs_ne_nil.mp hqueued)
  · intro hopens
    refine ⟨?_, fun hun hsend => ?_⟩
    · rw [hperm.length_eq]
      exact Window.length_flight_le h.window h.within
    · have hqueued := queuedSeqs_ne_nil.mpr hsend
      rw [hflushes hqueued, h.open_iff]
      exact hopens (hnil.mp hun) hqueued

end Progress

/-- A step that is no move. -/
theorem Conn.Inv.of_view {n' : Conn} (h : n.Inv) (hview : n'.view = n.view)
    (hmtu : n'.rdt.mtu = n.rdt.mtu) (hflight : n'.rdt.flightSendQueue = n.rdt.flightSendQueue) :
    n'.Inv where
  mtu_pos := hmtu ▸ h.mtu_pos
  window := hview ▸ h.window
  within := hview ▸ h.within
  flight := hflight ▸ h.flight

/-- A step that is no move opens as before, if the worker stays where it
is. -/
theorem opens_of_view {n' : Conn} (hview : n'.view = n.view) (hsending : n'.sending = n.sending) :
    n'.Opens ↔ n.Opens := by
  unfold Conn.Opens
  rw [hview, hsending]

theorem disciplined_flushBuffer (h : n.Inv) (now : Nat)
    (hwrap : n.NoWrap (.flushBuffer now)) (hopens : n.Opens) :
    (n.flushBuffer now).Inv ∧ ((n.flushBuffer now).Opens ↔ n.KeepsOpen (.flushBuffer now)) := by
  rcases Nat.eq_zero_or_pos (ringbuffDataSize n.rdt.sendBuffer) with hempty | hdata
  · have hview := view_flushBuffer_empty now hempty
    have hiter := flushBufferIter_empty now hempty
    refine ⟨h.of_view hview (by simp [Conn.flushBuffer, hiter])
      (by simp [Conn.flushBuffer, hiter]), ?_⟩
    refine (opens_of_view hview rfl).trans (iff_of_true hopens fun _ _ hpos => ?_)
    omega
  · have hview := view_flushBuffer_data now h.mtu_pos hdata (hwrap hdata)
    obtain ⟨data, hiter⟩ := flushBufferIter_data now h.mtu_pos hdata
    constructor
    · refine ⟨?_, ?_, ?_, ?_⟩
      · simpa [Conn.flushBuffer, hiter] using h.mtu_pos
      · rw [hview]
        exact Window.inv_enqueue h.window
      · rw [hview]
        exact h.within
      · simpa [Conn.flushBuffer, hiter] using h.flight
    · have hlast : lastWnd n.rdt = n.rdt.sendWndBase + n.rdt.wndSize - 1 :=
        lastWnd_eq (Nat.add_pos_right _ h.window.wnd_pos) h.window.range
      have hpos := h.window.wnd_pos
      have hflight : n.view.flight = [] ↔ n.rdt.flightSendQueue = [] := List.map_eq_nil_iff
      have hsending : (n.flushBuffer now).sending = n.sending := rfl
      unfold Conn.Opens
      rw [hview, hsending]
      simp only [Conn.KeepsOpen, Window.enqueue, Udp.uInt32_nextSeq_eq (hwrap hdata), hlast]
      rw [← hflight]
      constructor
      · intro hop hout hnil _
        rcases hop hnil (List.cons_ne_nil _ _) with hin | hlt
        · rw [hout] at hin
          exact nomatch hin
        · simp only [Conn.view] at hlt hpos
          simp only [Udp.unbounded_nextSeq]
          omega
      · intro hkeep hnil _
        cases hout : n.sending with
        | true => exact Or.inl rfl
        | false =>
          have := hkeep hout hnil hdata
          simp only [Udp.unbounded_nextSeq] at this
          simp only [Conn.view] at hpos ⊢
          exact Or.inr (by omega)

theorem disciplined_flushQueue (h : n.Inv) (hwithin : n.SendsWithin .flushQueue) (hopens : n.Opens) :
    n.flushQueue.Inv ∧ n.flushQueue.Opens := by
  cases hsending : n.sending with
  | false =>
    rw [flushQueue_outside hsending]
    refine ⟨h.of_view rfl rfl rfl, fun hflight hqueued => ?_⟩
    rcases hopens hflight hqueued with hin | hlt
    · rw [hsending] at hin
      exact nomatch hin
    · exact Or.inr hlt
  | true =>
    rcases List.eq_nil_or_concat n.rdt.sendQueue with hnil | ⟨rest, packet, hqueue⟩
    · rw [flushQueue_done hsending hnil]
      refine ⟨h.of_view rfl rfl rfl, fun _ hqueued => ?_⟩
      exact absurd (by simp [Conn.view, Conn.queuedSeqs, hnil]) hqueued
    · rw [List.concat_eq_append] at hqueue
      by_cases hcmd : packet.cmd = .send
      · obtain ⟨hview, hqueued, hflight⟩ := flushQueue_send hsending hqueue hcmd
        have hlast := hwithin hsending packet (by rw [hqueue]; simp) hcmd
        rw [lastWnd_eq (Nat.add_pos_right _ h.window.wnd_pos) h.window.range] at hlast
        refine ⟨⟨?_, ?_, ?_, ?_⟩, ?_⟩
        · rw [flushQueue_concat hsending hqueue, if_pos hcmd]
          exact h.mtu_pos
        · rw [hview]
          exact Window.inv_transmit h.window hqueued
        · rw [hview]
          have hpos := h.window.wnd_pos
          intro q hq
          rcases List.mem_cons.mp hq with rfl | hq
          · simp only [Window.transmit, Conn.view] at hpos ⊢
            omega
          · exact h.within q hq
        · rw [hflight]
          intro p hp
          rcases List.mem_cons.mp hp with rfl | hp
          · exact hcmd
          · exact h.flight p hp
        · intro hnil
          rw [hview] at hnil
          exact absurd hnil (List.cons_ne_nil _ _)
      · obtain ⟨hview, hflight⟩ := flushQueue_ack hsending hqueue hcmd
        have hsame : n.flushQueue.rdt.mtu = n.rdt.mtu ∧ n.flushQueue.sending = n.sending := by
          rw [flushQueue_concat hsending hqueue, if_neg hcmd]
          exact ⟨rfl, rfl⟩
        exact ⟨h.of_view hview hsame.1 hflight, (opens_of_view hview hsame.2).mpr hopens⟩

theorem disciplined_resend (n : Peer) (h : n.conn.Inv) (place now later : Nat) :
    (n.resend place now later).conn.Inv ∧
      ((n.resend place now later).conn.Opens ↔ n.conn.Opens) := by
  obtain hsame | ⟨position, packet, blame, retry, exited, hplace, rfl, -, hstep⟩ :=
    resend_cases n place now later
  · rw [hsame]
    exact ⟨h, Iff.rfl⟩
  · have hmem := List.mem_of_getElem? hplace
    have hcmd := h.flight position hmem
    have hmap : (n.conn.rdt.flightSendQueue.set place { position with ts := later }).map Packet.seq
        = n.conn.rdt.flightSendQueue.map Packet.seq := Udp.map_set_seq hplace rfl
    rw [hcmd] at hmap
    have hview : (n.resend place now later).conn.view = n.conn.view.resend position.seq := by
      rw [hstep]
      simp [Conn.view, Conn.queuedSeqs, Conn.flightSeqs, Conn.sentSeqs, Window.resend, hcmd, hmap,
        -List.map_set]
    refine ⟨⟨?_, ?_, ?_, ?_⟩, ?_⟩
    · rw [hstep]
      exact h.mtu_pos
    · rw [hview]
      exact Window.inv_resend h.window (List.mem_map_of_mem hmem)
    · rw [hview]
      exact h.within
    · rw [hstep]
      intro p hp
      rcases List.mem_or_eq_of_mem_set hp with hp | rfl
      · exact h.flight p hp
      · exact hcmd
    · unfold Conn.Opens
      rw [hview, hstep]
      rfl

/-- What an acknowledgement of a packet in flight does. -/
theorem inv_recvAck (n : Peer) (h : n.conn.Inv) {ack : Nat} {position : Packet}
    (hfind : findPacket n.conn.rdt.flightSendQueue ack = some position)
    (hrange : ack = n.conn.rdt.sendWndBase →
      n.conn.rdt.sendWndBase + 1 + n.conn.rdt.wndSize ≤ uInt32Size) :
    (n.recvAck ack).conn.view = n.conn.view.acknowledge ack ∧ (n.recvAck ack).conn.Inv := by
  have hpos : 0 < n.conn.rdt.wndSize := h.window.wnd_pos
  have hmem : ack ∈ n.conn.view.flight :=
    Udp.findPacket_isSome.mp (hfind ▸ rfl : (findPacket n.conn.rdt.flightSendQueue ack).isSome)
  have hstep := recvAck_acted hfind
  have hview : (n.recvAck ack).conn.view = n.conn.view.acknowledge ack := by
    rw [hstep]
    refine view_acknowledge fun heq => ?_
    have hle := hrange heq
    omega
  refine ⟨hview, ?_, ?_, ?_, ?_⟩
  · rw [hstep]
    exact h.mtu_pos
  · rw [hview]
    exact Window.inv_acknowledge h.window hmem hrange
  · rw [hview]
    intro q hq
    have hlt := h.within q (List.mem_of_mem_erase hq)
    simp only [Window.acknowledge]
    split <;> omega
  · rw [hstep]
    intro q hq
    exact h.flight q (List.mem_of_mem_eraseP hq)

theorem disciplined_recvAck (n : Peer) (h : n.conn.Inv) {p : Packet} (hcmd : p.cmd = .ack) (now : Nat)
    (hwrap : n.conn.NoWrap (.recv p now)) (hopens : n.conn.Opens) :
    (n.recvAck p.ack).conn.Inv ∧
      ((n.recvAck p.ack).conn.Opens ↔ n.conn.KeepsOpen (.recv p now)) := by
  cases hfind : findPacket n.conn.rdt.flightSendQueue p.ack with
  | none =>
    rw [recvAck_ignored hfind]
    refine ⟨h, iff_of_true hopens ?_⟩
    intro _ _ hflight _
    have hmem : p.ack ∈ n.conn.flightSeqs := by rw [hflight]; exact List.mem_singleton_self _
    have hsome := Udp.findPacket_isSome.mpr hmem
    simp [hfind] at hsome
  | some position =>
    have hsome : (findPacket n.conn.rdt.flightSendQueue p.ack).isSome := by rw [hfind]; rfl
    have hmem : p.ack ∈ n.conn.view.flight := Udp.findPacket_isSome.mp hsome
    obtain ⟨hview, hinv⟩ := inv_recvAck n h hfind fun heq => hwrap hcmd heq hsome
    refine ⟨hinv, ?_⟩
    have hstep := recvAck_acted hfind
    have hpos : 0 < n.conn.rdt.wndSize := h.window.wnd_pos
    have hlast : lastWnd { n.conn.rdt with sendWndBase := baseAfterAck n.conn.rdt p.ack }
        = (n.conn.view.acknowledge p.ack).base + n.conn.rdt.wndSize - 1 := by
      have hbase : (n.conn.view.acknowledge p.ack).base = baseAfterAck n.conn.rdt p.ack := by
        rw [← hview, hstep]
        rfl
      have hle := hinv.window.range
      rw [hview] at hle
      have hwnd : (n.conn.view.acknowledge p.ack).wnd = n.conn.rdt.wndSize := rfl
      rw [hbase, hwnd] at hle
      rw [hbase]
      exact lastWnd_eq (Nat.add_pos_right _ hpos) hle
    have herase : (n.conn.view.acknowledge p.ack).flight = [] ↔ n.conn.flightSeqs = [p.ack] := by
      have hne : n.conn.flightSeqs ≠ [] := List.ne_nil_of_mem hmem
      exact List.erase_eq_nil_iff.trans (or_iff_right hne)
    have hsending : (n.recvAck p.ack).conn.sending = n.conn.sending := by rw [hstep]
    unfold Conn.Opens
    rw [hview, hsending, herase]
    simp only [Conn.KeepsOpen, hlast]
    have hnext : (n.conn.view.acknowledge p.ack).next = n.conn.rdt.currentSendSeq := rfl
    have hwnd : (n.conn.view.acknowledge p.ack).wnd = n.conn.rdt.wndSize := rfl
    rw [hnext, hwnd]
    constructor
    · intro hop _ hout hone hqueued
      rcases hop hone hqueued with hin | hlt
      · simp [hout] at hin
      · omega
    · intro hkeep hone hqueued
      cases hout : n.conn.sending with
      | true => exact Or.inl rfl
      | false =>
        have hlt := hkeep hcmd hout hone hqueued
        exact Or.inr (by omega)

/-- A step keeps the invariant, and keeps the connection disciplined
exactly when it meets `KeepsOpen`. -/
theorem step_disciplined (n : Peer) (h : n.conn.Inv) {a : Act} (hrunning : n.shared.exited = false)
    (hwrap : n.conn.NoWrap a) (hwithin : n.conn.SendsWithin a) (hopens : n.conn.Opens) :
    (n.step a).conn.Inv ∧ ((n.step a).conn.Opens ↔ n.conn.KeepsOpen a) := by
  cases a with
  | rdtSend buff len =>
    rw [step_rdtSend hrunning]
    have hview : Conn.view { n.conn with rdt := rdtSend n.conn.rdt buff len } = n.conn.view := by
      unfold rdtSend
      split <;> rfl
    have hsame : (rdtSend n.conn.rdt buff len).mtu = n.conn.rdt.mtu ∧
        (rdtSend n.conn.rdt buff len).flightSendQueue = n.conn.rdt.flightSendQueue := by
      unfold rdtSend
      split <;> exact ⟨rfl, rfl⟩
    exact ⟨h.of_view hview hsame.1 hsame.2,
      (opens_of_view hview rfl).trans (iff_of_true hopens trivial)⟩
  | flushBuffer now =>
    rw [step_flushBuffer hrunning]
    exact disciplined_flushBuffer h now hwrap hopens
  | flushQueue =>
    rw [step_flushQueue hrunning]
    obtain ⟨hinv, hop⟩ := disciplined_flushQueue h hwithin hopens
    exact ⟨hinv, iff_of_true hop trivial⟩
  | resend place now later =>
    rw [step_resend hrunning]
    obtain ⟨hinv, hop⟩ := disciplined_resend n h place now later
    exact ⟨hinv, hop.trans (iff_of_true hopens trivial)⟩
  | rdtRecv len =>
    rw [step_rdtRecv hrunning]
    exact ⟨h.of_view rfl rfl rfl, iff_of_true hopens trivial⟩
  | recv p now =>
    rw [step_recv hrunning]
    have hdata : p.cmd ≠ .ack → n.conn.KeepsOpen (.recv p now) := fun hne hack => absurd hack hne
    rcases recv_cases n p now with ⟨hcmd, hstep⟩ | ⟨hcmd, -, hstep⟩ | ⟨hcmd, hstep⟩
    · rw [hstep]
      exact disciplined_recvAck n h hcmd now hwrap hopens
    · rw [hstep]
      have hview := view_recvData (n := n.conn) now p
      obtain ⟨current, buffer, hrdt⟩ := recvData_eq now n.conn.rdt p
      exact ⟨h.of_view hview (by simp [hrdt]) (by simp [hrdt]),
        (opens_of_view hview rfl).trans (iff_of_true hopens (hdata hcmd))⟩
    · rw [hstep]
      exact ⟨h, iff_of_true hopens (hdata (by rw [hcmd]; decide))⟩

/-! ## Runs of a process -/

variable {ι : Type} [DecidableEq ι]

theorem conn_step_self (p : Process ι) (c : ι) (a : Act) :
    (p.step (c, a)).conn c = ((p.peer c).step a).conn := by
  simp [Process.step]

theorem conn_step_ne (p : Process ι) {c d : ι} (a : Act) (h : d ≠ c) :
    (p.step (c, a)).conn d = p.conn d := by
  simp [Process.step, h]

/-- A step of a process keeps the invariant of every connection, and keeps
them disciplined exactly when it meets `KeepsOpen`. -/
theorem process_step_disciplined (p : Process ι) {c : ι} {a : Act} (h : ∀ d, (p.conn d).Inv)
    (hwrap : p.Meets Conn.NoWrap (c, a)) (hwithin : p.Meets Conn.SendsWithin (c, a))
    (hp : ∀ d, (p.conn d).Disciplined) :
    (∀ d, ((p.step (c, a)).conn d).Inv) ∧
      ((∀ d, ((p.step (c, a)).conn d).Disciplined) ↔ p.Meets Conn.KeepsOpen (c, a)) := by
  have hopens := (disciplined_iff (h c)).mp (hp c)
  have hone : ((p.step (c, a)).conn c).Inv ∧
      (((p.step (c, a)).conn c).Opens ↔ p.Meets Conn.KeepsOpen (c, a)) := by
    rw [conn_step_self]
    cases hex : p.shared.exited with
    | true =>
      rw [step_exited (n := p.peer c) hex]
      exact ⟨h c, iff_of_true hopens fun hrun => absurd (hex.symm.trans hrun) (by decide)⟩
    | false =>
      obtain ⟨hinv, hiff⟩ := step_disciplined (p.peer c) (h c) hex (hwrap hex) (hwithin hex) hopens
      exact ⟨hinv, hiff.trans ⟨fun hk _ => hk, fun hk => hk hex⟩⟩
  have hothers : ∀ d, d ≠ c → (p.step (c, a)).conn d = p.conn d := fun d hd => conn_step_ne p a hd
  refine ⟨fun d => ?_, ?_⟩
  · by_cases hd : d = c
    · rw [hd]
      exact hone.1
    · rw [hothers d hd]
      exact h d
  · rw [← hone.2, ← disciplined_iff hone.1]
    constructor
    · intro hall
      exact hall c
    · intro hc d
      by_cases hd : d = c
      · rw [hd]
        exact hc
      · rw [hothers d hd]
        exact hp d

/-- In runs before the wrap-around in which `flush_queue` sends inside the
window, the connections are disciplined throughout exactly when every
step leaves the window open to what has to be sent. -/
theorem disciplined_iff_keepsOpen (cfg : Config) (seq0 : ι → Nat) (acts : List (ι × Act))
    (hrange : ∀ c, seq0 c + cfg.wndSize ≤ uInt32Size)
    (hwrap : Along Process.step (Process.Meets Conn.NoWrap) (Process.init cfg seq0) acts)
    (hwithin : Along Process.step (Process.Meets Conn.SendsWithin) (Process.init cfg seq0) acts) :
    Throughout Process.step (fun p => ∀ c, (p.conn c).Disciplined) (Process.init cfg seq0) acts ↔
      Along Process.step (Process.Meets Conn.KeepsOpen) (Process.init cfg seq0) acts := by
  have hinit : ∀ c, ((Process.init cfg seq0).conn c).Inv := fun c => inv_init cfg (hrange c)
  refine throughout_iff_along_of_guard (I := fun p : Process ι => ∀ c, (p.conn c).Inv)
    (fun p a h hg hp => process_step_disciplined p h hg.1 hg.2 hp) (hwrap.and hwithin) hinit ?_
  intro c
  refine (disciplined_iff (hinit c)).mpr fun _ hqueued => ?_
  exact absurd rfl hqueued

/-- The application writes a byte and `flush_buffer` makes a packet of it. -/
def byteMade : List (Unit × Act) := [((), .rdtSend (fun _ => 7) 1), ((), .flushBuffer 0)]

/-- One packet goes out, is acknowledged, and then another. -/
def oneByOne : List (Unit × Act) :=
  byteMade ++ [((), .flushQueue), ((), .flushQueue), ((), .flushQueue),
    ((), .recv (ackPacket 0 5) 0)] ++ byteMade ++ [((), .flushQueue), ((), .flushQueue)]

theorem disciplined_oneByOne :
    Throughout Process.step (fun p : Process Unit => ∀ c, (p.conn c).Disciplined)
      (Process.init protocolConfig fun _ => 5) oneByOne :=
  (disciplined_iff_keepsOpen protocolConfig (fun _ => 5) oneByOne (fun _ => by decide)
    (by decide +kernel) (by decide +kernel)).mpr (by decide +kernel)

/-- Ten packets are made before `flush_queue` runs. -/
def burst : List (Unit × Act) := (List.replicate rdtWindowSize byteMade).flatten

/-- The worker is past the window test with one packet queued. The
application writes ten packets' worth and then waits for space, so
`flush_buffer` makes the packets, and the loop sends all eleven. -/
def overrun : List (Unit × Act) :=
  byteMade ++ [((), .flushQueue), ((), .rdtSend (fun _ => 7) 10240),
    ((), .rdtSend (fun _ => 7) 4194303)] ++ List.replicate 10 ((), .flushBuffer 0) ++
    List.replicate 11 ((), .flushQueue)

def afterBurst : Conn := (Process.after protocolConfig (fun _ => 5) burst).conn ()

def afterOverrun : Conn := (Process.after protocolConfig (fun _ => 5) overrun).conn ()

/-- After the burst nothing is on the wire and no call of `flush_queue`
sends anything; after the overrun eleven packets are. -/
theorem window_undisciplined :
    (afterBurst.unacknowledged = [] ∧
      afterBurst.queuedSeqs = [14, 13, 12, 11, 10, 9, 8, 7, 6, 5] ∧
      afterBurst.flushes = [] ∧ ¬ afterBurst.Disciplined) ∧
    afterOverrun.unacknowledged.length = 11 ∧ afterOverrun.rdt.wndSize = 10 := by
  have hnone : afterBurst.unacknowledged = [] := by decide +kernel
  have hqueued : afterBurst.queuedSeqs = [14, 13, 12, 11, 10, 9, 8, 7, 6, 5] := by
    decide +kernel
  have hflushes : afterBurst.flushes = [] := by decide +kernel
  refine ⟨⟨hnone, hqueued, hflushes, fun hd => ?_⟩, by decide +kernel⟩
  refine hd.progress hnone (queuedSeqs_ne_nil.mp ?_) hflushes
  rw [hqueued]
  exact List.cons_ne_nil _ _

end Training.Rudp
