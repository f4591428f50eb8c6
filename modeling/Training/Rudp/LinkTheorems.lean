/-
Training.Rudp.LinkTheorems — acknowledgements behind the data window.

ACK and SEND packets share `send_queue`, and `flush_queue` returns at the
window test before it looks at what is in it. So an ACK is sent only
while the numbers handed out leave room in the sender's own window. Two
peers that send to each other can both be past that point, each with the
ACK in its queue that would move the other's base (`mutual_wait`).

`acksFlow_iff` says exactly when that does not happen: no SEND packet
arrives at a peer whose window is closed, and a window is not closed
while an ACK waits. It needs nothing about the numbers, so it holds past
the wrap-around too.
-/
import Training.Rudp.WindowTheorems

namespace Training.Rudp

open Training.Lib
open Training.Udp (Packet Cmd Config SeqArith ringbuffDataSize findPacket)

/-! ## The property -/

def Conn.HoldsAck (n : Conn) : Prop := ∃ p ∈ n.rdt.sendQueue, p.cmd = .ack

/-- Every ACK in `send_queue` is sent by the next call of `flush_queue`. -/
def Peer.AcksFlow (n : Peer) : Prop :=
  n.shared.exited = false → ∀ p ∈ n.conn.rdt.sendQueue, p.cmd = .ack → p ∈ n.conn.flushes

/-- `flush_queue` returns at the window test with the ACK in `send_queue`
that would move the other side's base. -/
def Link.Waits (l : Link) (side : Side) : Prop :=
  (l.peer side).shared.exited = false ∧ (l.peer side).conn.sending = false ∧
    windowFull (l.peer side).conn.rdt = true ∧
    ∃ p ∈ (l.peer side).conn.rdt.sendQueue, p.cmd = .ack ∧
      p.ack = (l.peer side.other).conn.rdt.sendWndBase ∧
      p.ack ∈ (l.peer side.other).conn.flightSeqs

instance (l : Link) (side : Side) : Decidable (l.Waits side) :=
  inferInstanceAs (Decidable (_ ∧ _ ∧ _ ∧ ∃ p ∈ (l.peer side).conn.rdt.sendQueue, _))

structure Link.AcksFlow (l : Link) : Prop where
  flow : ∀ side, (l.peer side).AcksFlow
  noWait : ¬ (l.Waits .left ∧ l.Waits .right)

/-- The step leaves no ACK behind a closed window. -/
def Conn.KeepsAcks (n : Conn) : Act → Prop
  | .flushBuffer _ =>
      n.sending = false → 0 < ringbuffDataSize n.rdt.sendBuffer → n.HoldsAck →
        SeqArith.uInt32.nextSeq n.rdt.currentSendSeq ≤ lastWnd n.rdt
  | .recv p _ =>
      n.sending = false →
        (p.cmd = .send → n.rdt.currentSendSeq ≤ lastWnd n.rdt) ∧
        (p.cmd = .ack → (findPacket n.rdt.flightSendQueue p.ack).isSome → n.HoldsAck →
          n.rdt.currentSendSeq ≤ lastWnd { n.rdt with sendWndBase := baseAfterAck n.rdt p.ack })
  | _ => True

def Link.KeepsAcks (l : Link) (a : LinkAct) : Prop :=
  match l.resolve a with
  | none => True
  | some (side, a) => (l.peer side).shared.exited = false → (l.peer side).conn.KeepsAcks a

/-! ## One peer -/

/-- An ACK flows when the worker is in its loop or the window is open. -/
def Peer.Flows (n : Peer) : Prop :=
  n.shared.exited = false → n.conn.sending = false → n.conn.HoldsAck →
    n.conn.rdt.currentSendSeq ≤ lastWnd n.conn.rdt

theorem windowFull_eq_false_iff (s : Rdt) :
    windowFull s = false ↔ s.currentSendSeq ≤ lastWnd s := by
  simp [windowFull]

theorem acksFlow_iff_flows (n : Peer) : n.AcksFlow ↔ n.Flows := by
  unfold Peer.AcksFlow Peer.Flows
  rw [flushes_eq]
  constructor
  · rintro hflow hrun hout ⟨p, hp, hack⟩
    have hmem := hflow hrun p hp hack
    rw [← windowFull_eq_false_iff]
    by_contra hfull
    simp [hout, hfull] at hmem
  · intro hflows hrun p hp hack
    rw [if_pos]
    · exact List.mem_reverse.mpr hp
    · cases hout : n.conn.sending with
      | true => exact Or.inl rfl
      | false => exact Or.inr ((windowFull_eq_false_iff _).mpr (hflows hrun hout ⟨p, hp, hack⟩))

/-- A step that changes nothing an ACK waits for. -/
theorem flows_of_same {n n' : Peer} (h : n.Flows)
    (hexited : n'.shared.exited = false → n.shared.exited = false)
    (hsending : n'.conn.sending = n.conn.sending)
    (hqueue : n'.conn.rdt.sendQueue = n.conn.rdt.sendQueue)
    (hcurrent : n'.conn.rdt.currentSendSeq = n.conn.rdt.currentSendSeq)
    (hlast : lastWnd n'.conn.rdt = lastWnd n.conn.rdt) : n'.Flows := by
  intro hrun hout hack
  rw [hcurrent, hlast]
  refine h (hexited hrun) (hsending ▸ hout) ?_
  unfold Conn.HoldsAck at hack
  rwa [hqueue] at hack

theorem flows_flushBuffer {n : Peer} (h : n.Flows) (hrun : n.shared.exited = false)
    (hmtu : 0 < n.conn.rdt.mtu) (now : Nat) :
    Peer.Flows { n with conn := n.conn.flushBuffer now } ↔
      n.conn.KeepsAcks (.flushBuffer now) := by
  rcases Nat.eq_zero_or_pos (ringbuffDataSize n.conn.rdt.sendBuffer) with hempty | hdata
  · have hiter := flushBufferIter_empty now hempty
    refine iff_of_true (flows_of_same h id rfl ?_ ?_ ?_) fun _ hpos => absurd hempty (by omega)
    · simp [Conn.flushBuffer, hiter]
    · simp [Conn.flushBuffer, hiter]
    · simp [Conn.flushBuffer, hiter, lastWnd]
  · obtain ⟨data, hiter⟩ := flushBufferIter_data now hmtu hdata
    have hack : (n.conn.flushBuffer now).HoldsAck ↔ n.conn.HoldsAck := by
      simp [Conn.HoldsAck, Conn.flushBuffer, hiter, nextPacket]
    have hcurrent : (n.conn.flushBuffer now).rdt.currentSendSeq
        = SeqArith.uInt32.nextSeq n.conn.rdt.currentSendSeq := by
      simp [Conn.flushBuffer, hiter]
    have hlast : lastWnd (n.conn.flushBuffer now).rdt = lastWnd n.conn.rdt := by
      simp [Conn.flushBuffer, hiter, lastWnd]
    unfold Peer.Flows
    simp only [Conn.KeepsAcks, hack, hcurrent, hlast]
    constructor
    · intro hf hout _ hholds
      exact hf hrun hout hholds
    · intro hk _ hout hholds
      exact hk hout hdata hholds

theorem flows_flushQueue {n : Peer} (h : n.Flows) (hrun : n.shared.exited = false) :
    Peer.Flows { n with conn := n.conn.flushQueue } := by
  cases hsending : n.conn.sending with
  | false =>
    rw [flushQueue_outside hsending]
    rintro - - ⟨p, hp, hack⟩
    exact h hrun hsending ⟨p, hp, hack⟩
  | true =>
    rcases List.eq_nil_or_concat n.conn.rdt.sendQueue with hnil | ⟨rest, packet, hqueue⟩
    · rw [flushQueue_done hsending hnil]
      rintro - - ⟨p, hp, -⟩
      simp [hnil] at hp
    · have hstep := flushQueue_concat hsending (hqueue.trans List.concat_eq_append)
      have hin : n.conn.flushQueue.sending = true := by
        rw [hstep]
        split <;> exact hsending
      intro _ hout
      rw [hin] at hout
      exact nomatch hout

theorem flows_recvAck {n : Peer} (h : n.Flows) (hrun : n.shared.exited = false) {p : Packet}
    (hcmd : p.cmd = .ack) (now : Nat) :
    (n.recvAck p.ack).Flows ↔ n.conn.KeepsAcks (.recv p now) := by
  have hsend : ¬ p.cmd = .send := by rw [hcmd]; decide
  cases hfind : findPacket n.conn.rdt.flightSendQueue p.ack with
  | none =>
    rw [recvAck_ignored hfind]
    refine iff_of_true h fun _ => ⟨fun hs => absurd hs hsend, fun _ hsome => ?_⟩
    rw [hfind] at hsome
    exact nomatch hsome
  | some position =>
    rw [recvAck_acted hfind]
    constructor
    · intro hf hout
      exact ⟨fun hs => absurd hs hsend, fun _ _ hack => hf hrun hout hack⟩
    · intro hk _ hout hack
      exact (hk hout).2 hcmd (by rw [hfind]; rfl) hack

theorem flows_recvData {n : Peer} (h : n.Flows) (hrun : n.shared.exited = false) {p : Packet}
    (hcmd : p.cmd ≠ .ack) (now : Nat) :
    Peer.Flows { n with conn := { n.conn with rdt := recvData now n.conn.rdt p } } ↔
      n.conn.KeepsAcks (.recv p now) := by
  obtain ⟨current, buffer, hrdt⟩ := recvData_eq now n.conn.rdt p
  rw [hrdt]
  by_cases hsend : p.cmd = .send
  · rw [if_pos hsend]
    constructor
    · intro hf hout
      exact ⟨fun _ => hf hrun hout ⟨_, List.mem_cons_self, rfl⟩, fun hack => absurd hack hcmd⟩
    · intro hk _ hout _
      exact (hk hout).1 hsend
  · rw [if_neg hsend]
    refine iff_of_true (flows_of_same h id rfl rfl rfl rfl) ?_
    exact fun _ => ⟨fun hs => absurd hs hsend, fun hack => absurd hack hcmd⟩

/-- A step lets the ACKs flow exactly when it meets `KeepsAcks`. -/
theorem flows_step {n : Peer} (h : n.Flows) (hmtu : 0 < n.conn.rdt.mtu) (a : Act) :
    (n.step a).Flows ↔ (n.shared.exited = false → n.conn.KeepsAcks a) := by
  cases hexited : n.shared.exited with
  | true =>
    rw [step_exited hexited]
    exact iff_of_true h fun hrun => nomatch hrun
  | false =>
    suffices (n.step a).Flows ↔ n.conn.KeepsAcks a from
      this.trans ⟨fun hk _ => hk, fun hk => hk rfl⟩
    cases a with
    | rdtSend buff len =>
      rw [step_rdtSend hexited]
      refine iff_of_true (flows_of_same h id rfl ?_ ?_ ?_) trivial <;> unfold rdtSend <;>
        split <;> rfl
    | flushBuffer now =>
      rw [step_flushBuffer hexited]
      exact flows_flushBuffer h hexited hmtu now
    | flushQueue =>
      rw [step_flushQueue hexited]
      exact iff_of_true (flows_flushQueue h hexited) trivial
    | resend place now later =>
      rw [step_resend hexited]
      refine iff_of_true ?_ trivial
      obtain hsame | ⟨position, packet, blame, retry, exited, -, -, -, hstep⟩ :=
        resend_cases n place now later
      · rw [hsame]
        exact h
      · rw [hstep]
        exact flows_of_same h (fun _ => hexited) rfl rfl rfl rfl
    | rdtRecv len =>
      rw [step_rdtRecv hexited]
      exact iff_of_true (flows_of_same h id rfl rfl rfl rfl) trivial
    | recv p now =>
      rw [step_recv hexited]
      rcases recv_cases n p now with ⟨hcmd, hstep⟩ | ⟨hcmd, -, hstep⟩ | ⟨hcmd, hstep⟩
      · rw [hstep]
        exact flows_recvAck h hexited hcmd now
      · rw [hstep]
        exact flows_recvData h hexited hcmd now
      · rw [hstep]
        refine iff_of_true h fun _ => ⟨?_, ?_⟩ <;>
          exact fun hc => absurd (hcmd.symm.trans hc) (by decide)

/-! ## Runs of the link -/

theorem mtu_step (n : Peer) (a : Act) : (n.step a).conn.rdt.mtu = n.conn.rdt.mtu := by
  cases hexited : n.shared.exited with
  | true => rw [step_exited hexited]
  | false =>
    cases a with
    | rdtSend buff len =>
      rw [step_rdtSend hexited]
      unfold rdtSend
      split <;> rfl
    | flushBuffer now =>
      rw [step_flushBuffer hexited]
      simp only [Conn.flushBuffer, flushBufferIter]
      split <;> rfl
    | flushQueue =>
      rw [step_flushQueue hexited]
      cases hsending : n.conn.sending with
      | false => rw [flushQueue_outside hsending]
      | true =>
        rcases List.eq_nil_or_concat n.conn.rdt.sendQueue with hnil | ⟨rest, packet, hqueue⟩
        · rw [flushQueue_done hsending hnil]
        · rw [flushQueue_concat hsending (hqueue.trans List.concat_eq_append)]
          split <;> rfl
    | resend place now later =>
      rw [step_resend hexited]
      obtain hsame | ⟨position, packet, blame, retry, exited, -, -, -, hstep⟩ :=
        resend_cases n place now later
      · rw [hsame]
      · rw [hstep]
    | rdtRecv len =>
      rw [step_rdtRecv hexited]
      rfl
    | recv p now =>
      rw [step_recv hexited]
      rcases recv_cases n p now with ⟨-, hstep⟩ | ⟨-, -, hstep⟩ | ⟨-, hstep⟩
      · rw [hstep]
        cases hfind : findPacket n.conn.rdt.flightSendQueue p.ack with
        | none => rw [recvAck_ignored hfind]
        | some position => rw [recvAck_acted hfind]
      · obtain ⟨current, buffer, hrdt⟩ := recvData_eq now n.conn.rdt p
        rw [hstep, hrdt]
      · rw [hstep]

theorem peer_stepAt_self (l : Link) (side : Side) (a : Act) :
    (l.stepAt side a).peer side = (l.peer side).step a := by
  cases side <;> rfl

theorem peer_stepAt_ne (l : Link) {side side' : Side} (a : Act) (h : side' ≠ side) :
    (l.stepAt side a).peer side' = l.peer side' := by
  cases side <;> cases side' <;> first | rfl | exact absurd rfl h

/-- The mutual wait is a case of an ACK that does not flow. -/
theorem link_acksFlow_iff (l : Link) : l.AcksFlow ↔ ∀ side, (l.peer side).Flows := by
  constructor
  · intro h side
    exact (acksFlow_iff_flows _).mp (h.flow side)
  · intro h
    refine ⟨fun side => (acksFlow_iff_flows _).mpr (h side), ?_⟩
    rintro ⟨⟨hrun, hout, hfull, p, hp, hack, -⟩, -⟩
    have hopen := (windowFull_eq_false_iff _).mpr (h .left hrun hout ⟨p, hp, hack⟩)
    rw [hfull] at hopen
    exact nomatch hopen

/-- In every run of two peers, whatever the network does with their
packets, the ACKs flow in every state exactly when each step leaves none
behind a closed window. -/
theorem acksFlow_iff (cfg : Config) (seqL seqR : Nat) (acts : List LinkAct) :
    Throughout Link.step Link.AcksFlow (Link.init cfg seqL seqR) acts ↔
      Along Link.step Link.KeepsAcks (Link.init cfg seqL seqR) acts := by
  refine throughout_iff_along (I := fun l : Link => ∀ side, 0 < (l.peer side).conn.rdt.mtu)
    (fun l a h side => ?_) (fun l a h hflow => ?_) acts (fun side => ?_) ?_
  · unfold Link.step
    split
    · exact h side
    · rename_i acting b _
      by_cases hside : side = acting
      · rw [hside, peer_stepAt_self, mtu_step]
        exact h acting
      · rw [peer_stepAt_ne l b hside]
        exact h side
  · rw [link_acksFlow_iff] at hflow ⊢
    unfold Link.step Link.KeepsAcks
    rcases l.resolve a with - | ⟨acting, b⟩
    · exact iff_of_true hflow trivial
    · simp only
      rw [← flows_step (hflow acting) (h acting), ← peer_stepAt_self]
      constructor
      · intro hall
        exact hall acting
      · intro hone side
        by_cases hside : side = acting
        · rw [hside]
          exact hone
        · rw [peer_stepAt_ne l b hside]
          exact hflow side
  · cases side <;> exact cfg.mtu_pos
  · rw [link_acksFlow_iff]
    rintro side - - ⟨p, hp, -⟩
    cases side <;> exact absurd hp List.not_mem_nil

/-- Nine packets are made and sent, and a tenth is made. -/
def tenMade (side : Side) : List LinkAct :=
  (List.replicate 9 [.own side (.rdtSend (fun _ => 7) 1), .own side (.flushBuffer 0)]).flatten ++
    List.replicate 11 (.own side .flushQueue) ++
    [.own side (.rdtSend (fun _ => 7) 1), .own side (.flushBuffer 0)]

/-- Both sides do that, and the first packet of each arrives. -/
def crossing : List LinkAct :=
  tenMade .left ++ tenMade .right ++ [.deliver .right 0 0, .deliver .left 0 0]

def afterCrossing : Link := Link.after protocolConfig 5 70 crossing

/-- Each side now holds the ACK for the other's base and returns at its
own window test. -/
theorem mutual_wait :
    (afterCrossing.Waits .left ∧ afterCrossing.Waits .right) ∧
      afterCrossing.left.conn.flushes = [] ∧ afterCrossing.right.conn.flushes = [] ∧
      ¬ afterCrossing.AcksFlow := by
  have hwait : afterCrossing.Waits .left ∧ afterCrossing.Waits .right := by decide +kernel
  exact ⟨hwait, by decide +kernel, by decide +kernel, fun h => h.noWait hwait⟩

end Training.Rudp
