/-
Training.Rudp.Window — the send window of the earlier protocol.

`Conn.Disciplined` is what the window is for: no more than `wnd_size`
packets are unacknowledged, and with none unacknowledged a call of
`flush_queue` sends something if there is a SEND packet to send. Both can
fail, since the window test looks at the next number to hand out and
`flush_buffer` hands numbers out without it. `Conn.SendsWithin` and
`Conn.KeepsOpen` say of a step that it does not go wrong in one way and
in the other; they look at the state before the step only.

A `Window` is what remains of a connection when only the numbers of its
SEND packets are kept, and `Window.Inv` is the invariant of its moves:
every number made is queued, in flight or acknowledged, in exactly one of
these places, and the ones not acknowledged are not below the base.
-/
import Mathlib.Data.List.Dedup
import Mathlib.Data.List.Perm.Subperm
import Training.Rudp.ProtocolTheorems

namespace Training.Rudp

open Training.Lib
open Training.Udp (Packet Cmd Config SeqArith uInt32Size seqNumMax ringbuffDataSize findPacket)

/-! ## The property -/

/-- The numbers of the SEND packets in `send_queue`. -/
def Conn.queuedSeqs (n : Conn) : List Nat :=
  (n.rdt.sendQueue.filter (·.cmd = .send)).map Packet.seq

def Conn.flightSeqs (n : Conn) : List Nat := n.rdt.flightSendQueue.map Packet.seq

/-- The numbers of the SEND packets handed to `udt_send`. -/
def Conn.sentSeqs (n : Conn) : List Nat :=
  (n.sent.filter (·.cmd = .send)).map Packet.seq

/-- The SEND packets transmitted and not acknowledged, by number. -/
def Conn.unacknowledged (n : Conn) : List Nat :=
  (n.sentSeqs.filter (· ∉ n.acked)).dedup

/-- What a call of `flush_queue` sends: the call the worker is in, or one
it makes now. -/
def Conn.flushes (n : Conn) : List Packet :=
  if n.sending then (flushQueueLoop n.rdt.sendQueue.length n.rdt).2 else (Rudp.flushQueue n.rdt).2

structure Conn.Disciplined (n : Conn) : Prop where
  bounded : n.unacknowledged.length ≤ n.rdt.wndSize
  progress : n.unacknowledged = [] → (∃ p ∈ n.rdt.sendQueue, p.cmd = .send) → n.flushes ≠ []

/-! ## Conditions on a step -/

/-- No sequence-number addition of the step wraps around, nor does the
window it leaves. -/
def Conn.NoWrap (n : Conn) : Act → Prop
  | .flushBuffer _ =>
      0 < ringbuffDataSize n.rdt.sendBuffer → n.rdt.currentSendSeq + 1 < seqNumMax
  | .recv p _ =>
      p.cmd = .ack → p.ack = n.rdt.sendWndBase →
        (findPacket n.rdt.flightSendQueue p.ack).isSome →
          n.rdt.sendWndBase + 1 + n.rdt.wndSize ≤ uInt32Size
  | _ => True

/-- A SEND packet the loop of `flush_queue` takes is inside the window. -/
def Conn.SendsWithin (n : Conn) : Act → Prop
  | .flushQueue =>
      n.sending = true → ∀ p ∈ n.rdt.sendQueue.getLast?, p.cmd = .send → p.seq ≤ lastWnd n.rdt
  | _ => True

/-- With nothing in flight, making a packet leaves the window open; and
so does the ACK of the only packet in flight, when a SEND packet waits. -/
def Conn.KeepsOpen (n : Conn) : Act → Prop
  | .flushBuffer _ =>
      n.sending = false → n.rdt.flightSendQueue = [] → 0 < ringbuffDataSize n.rdt.sendBuffer →
        SeqArith.uInt32.nextSeq n.rdt.currentSendSeq ≤ lastWnd n.rdt
  | .recv p _ =>
      p.cmd = .ack → n.sending = false → n.flightSeqs = [p.ack] → n.queuedSeqs ≠ [] →
        n.rdt.currentSendSeq ≤ lastWnd { n.rdt with sendWndBase := baseAfterAck n.rdt p.ack }
  | _ => True

instance (n : Conn) : ∀ a, Decidable (n.NoWrap a)
  | .flushBuffer _ => inferInstanceAs (Decidable (_ → _))
  | .recv _ _ => inferInstanceAs (Decidable (_ → _ → _ → _))
  | .rdtSend _ _ => isTrue trivial
  | .flushQueue => isTrue trivial
  | .resend _ _ _ => isTrue trivial
  | .rdtRecv _ => isTrue trivial

instance (n : Conn) : ∀ a, Decidable (n.SendsWithin a)
  | .flushQueue => inferInstanceAs (Decidable (_ → ∀ p ∈ n.rdt.sendQueue.getLast?, _))
  | .flushBuffer _ => isTrue trivial
  | .recv _ _ => isTrue trivial
  | .rdtSend _ _ => isTrue trivial
  | .resend _ _ _ => isTrue trivial
  | .rdtRecv _ => isTrue trivial

instance (n : Conn) : ∀ a, Decidable (n.KeepsOpen a)
  | .flushBuffer _ => inferInstanceAs (Decidable (_ → _ → _ → _))
  | .recv _ _ => inferInstanceAs (Decidable (_ → _ → _ → _ → _))
  | .rdtSend _ _ => isTrue trivial
  | .flushQueue => isTrue trivial
  | .resend _ _ _ => isTrue trivial
  | .rdtRecv _ => isTrue trivial

variable {ι : Type} [DecidableEq ι]

/-- A condition on the steps of connections, for the steps of a process
that has not exited. -/
def Process.Meets (c : Conn → Act → Prop) (p : Process ι) (a : ι × Act) : Prop :=
  p.shared.exited = false → c (p.conn a.1) a.2

instance (c : Conn → Act → Prop) [∀ n a, Decidable (c n a)] (p : Process ι) (a : ι × Act) :
    Decidable (p.Meets c a) :=
  inferInstanceAs (Decidable (_ → _))

/-! ## The window of numbers -/

structure Window where
  wnd : Nat
  base : Nat
  next : Nat
  queued : List Nat
  flight : List Nat
  acked : List Nat
  sent : List Nat

def Conn.view (n : Conn) : Window where
  wnd := n.rdt.wndSize
  base := n.rdt.sendWndBase
  next := n.rdt.currentSendSeq
  queued := n.queuedSeqs
  flight := n.flightSeqs
  acked := n.acked
  sent := n.sentSeqs

namespace Window

def enqueue (w : Window) : Window :=
  { w with next := w.next + 1, queued := w.next :: w.queued }

def transmit (w : Window) (rest : List Nat) (q : Nat) : Window :=
  { w with queued := rest, flight := q :: w.flight, sent := w.sent ++ [q] }

def acknowledge (w : Window) (q : Nat) : Window :=
  { w with
    base := if q = w.base then w.base + 1 else w.base
    flight := w.flight.erase q
    acked := w.acked ++ [q] }

def resend (w : Window) (q : Nat) : Window :=
  { w with sent := w.sent ++ [q] }

structure Inv (w : Window) : Prop where
  wnd_pos : 0 < w.wnd
  range : w.base + w.wnd ≤ uInt32Size
  distinct : (w.queued ++ (w.flight ++ w.acked)).Nodup
  below : ∀ q ∈ w.queued ++ (w.flight ++ w.acked), q < w.next
  base_le : ∀ q ∈ w.queued ++ w.flight, w.base ≤ q
  base_le_next : w.base ≤ w.next
  sent : ∀ q, q ∈ w.sent ↔ q ∈ w.flight ∨ q ∈ w.acked

/-- Every packet in flight is inside the window. -/
def Within (w : Window) : Prop := ∀ q ∈ w.flight, q < w.base + w.wnd

variable {w : Window} {q : Nat}

theorem Inv.flight_nodup (h : w.Inv) : w.flight.Nodup :=
  ((List.nodup_append.mp h.distinct).2.1).of_append_left

theorem Inv.not_mem_acked (h : w.Inv) (hq : q ∈ w.flight) : q ∉ w.acked :=
  fun hacked => (List.nodup_append.mp (List.nodup_append.mp h.distinct).2.1).2.2 q hq q hacked rfl

theorem inv_start (first wnd : Nat) (hwnd : 0 < wnd) (hrange : first + wnd ≤ uInt32Size) :
    Inv ⟨wnd, first, first, [], [], [], []⟩ where
  wnd_pos := hwnd
  range := hrange
  distinct := List.nodup_nil
  below := by simp
  base_le := by simp
  base_le_next := Nat.le_refl _
  sent := by simp

/-! ## The moves keep it -/

theorem inv_enqueue (h : w.Inv) : w.enqueue.Inv where
  wnd_pos := h.wnd_pos
  range := h.range
  distinct := by
    have hnew : w.next ∉ w.queued ++ (w.flight ++ w.acked) := fun hmem =>
      Nat.lt_irrefl _ (h.below _ hmem)
    exact List.nodup_cons.mpr ⟨hnew, h.distinct⟩
  below := by
    intro q hq
    show q < w.next + 1
    rcases List.mem_cons.mp hq with rfl | hq
    · exact Nat.lt_succ_self _
    · exact Nat.lt_succ_of_lt (h.below q hq)
  base_le := by
    intro q hq
    rcases List.mem_cons.mp hq with rfl | hq
    · exact h.base_le_next
    · exact h.base_le q hq
  base_le_next := Nat.le_succ_of_le h.base_le_next
  sent := h.sent

theorem inv_transmit (h : w.Inv) {rest : List Nat} (hq : w.queued = rest ++ [q]) :
    (w.transmit rest q).Inv := by
  have hperm : (rest ++ (q :: w.flight ++ w.acked)).Perm (w.queued ++ (w.flight ++ w.acked)) := by
    rw [hq, List.append_assoc]
    exact List.Perm.refl _
  exact
    { wnd_pos := h.wnd_pos
      range := h.range
      distinct := hperm.nodup_iff.mpr h.distinct
      below := fun r hr => h.below r (hperm.mem_iff.mp hr)
      base_le := by
        intro r hr
        refine h.base_le r ?_
        rw [hq, List.append_assoc]
        exact hr
      base_le_next := h.base_le_next
      sent := by
        intro r
        simp only [transmit, List.mem_append, List.mem_cons, h.sent r]
        tauto }

theorem inv_acknowledge (h : w.Inv) (hq : q ∈ w.flight)
    (hrange : q = w.base → w.base + 1 + w.wnd ≤ uInt32Size) : (w.acknowledge q).Inv := by
  have hperm : (w.queued ++ (w.flight.erase q ++ (w.acked ++ [q]))).Perm
      (w.queued ++ (w.flight ++ w.acked)) := by
    refine List.Perm.append_left _ ?_
    rw [← List.append_assoc]
    refine (List.perm_append_singleton q _).trans ?_
    exact (List.perm_cons_erase hq).symm.append_right w.acked
  have hbase := h.base_le q (List.mem_append_right _ hq)
  have hnext := h.below q (List.mem_append_right _ (List.mem_append_left _ hq))
  refine
    { wnd_pos := h.wnd_pos
      range := ?_
      distinct := hperm.nodup_iff.mpr h.distinct
      below := fun r hr => h.below r (hperm.mem_iff.mp hr)
      base_le := ?_
      base_le_next := ?_
      sent := ?_ }
  · simp only [acknowledge]
    split
    · rename_i heq
      exact hrange heq
    · exact h.range
  · -- what is left is not the base, so it is above it
    intro r hr
    simp only [acknowledge] at hr ⊢
    have hne : r ≠ q := by
      rintro rfl
      rcases List.mem_append.mp hr with hr | hr
      · exact (List.nodup_append.mp h.distinct).2.2 r hr r (List.mem_append_left _ hq) rfl
      · exact (List.Nodup.not_mem_erase h.flight_nodup) hr
    have hle : w.base ≤ r := by
      refine h.base_le r ?_
      rcases List.mem_append.mp hr with hr | hr
      · exact List.mem_append_left _ hr
      · exact List.mem_append_right _ (List.mem_of_mem_erase hr)
    split <;> omega
  · simp only [acknowledge]
    split <;> omega
  · intro r
    simp only [acknowledge]
    rw [h.sent r, List.mem_append, List.mem_singleton, h.flight_nodup.mem_erase_iff]
    constructor
    · rintro (hr | hr)
      · by_cases heq : r = q
        · exact Or.inr (Or.inr heq)
        · exact Or.inl ⟨heq, hr⟩
      · exact Or.inr (Or.inl hr)
    · rintro (⟨-, hr⟩ | hr | rfl)
      · exact Or.inl hr
      · exact Or.inr hr
      · exact Or.inl hq

theorem inv_resend (h : w.Inv) (hq : q ∈ w.flight) : (w.resend q).Inv where
  wnd_pos := h.wnd_pos
  range := h.range
  distinct := h.distinct
  below := h.below
  base_le := h.base_le
  base_le_next := h.base_le_next
  sent := by
    intro r
    simp only [resend, List.mem_append, List.mem_singleton, h.sent r]
    constructor
    · rintro (hr | rfl)
      · exact hr
      · exact Or.inl hq
    · exact Or.inl

/-- Distinct numbers between the base and the end of the window. -/
theorem length_flight_le (h : w.Inv) (hwithin : w.Within) : w.flight.length ≤ w.wnd := by
  have hsub : w.flight ⊆ List.range' w.base w.wnd := by
    intro q hq
    have := h.base_le q (List.mem_append_right _ hq)
    have := hwithin q hq
    rw [List.mem_range'_1]
    omega
  have := (h.flight_nodup.subperm hsub).length_le
  rwa [List.length_range'] at this

end Window

end Training.Rudp
