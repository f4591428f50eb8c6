/-
Training.Rudp.SessionTheorems — which packet ends a session.

`resend_expire_packet` counts the retransmissions of one packet, the one
`blame_packet_for_expire` names, in `resend_retry`. The marker is one for
the process and the counter is one for a connection, so an ACK on one
connection that clears the marker leaves the counters of the others where
they are, and the next packet marked goes on counting from there
(`unblamed_exit`). As long as that does not happen, `exit` is reached only
after one packet was retransmitted more than `PACKET_RESEND_RETRY_MAX`
times (`blamesRight_of_clearsOwn`).

The invariant is `Peer.Counted`: a counter that is not zero counts
retransmissions of the packet that is marked, and it is in flight.
-/
import Mathlib.Data.Fintype.Basic
import Training.Rudp.WindowTheorems

namespace Training.Rudp

open Training.Lib
open Training.Udp (Packet Cmd Config findPacket)

variable {ι : Type} [DecidableEq ι]

/-! ## The property -/

/-- On a connection that `exit` was reached on, a packet in flight was
retransmitted more than `PACKET_RESEND_RETRY_MAX` times. -/
def Conn.BlamesRight (n : Conn) : Prop :=
  n.disconnected = true → ∃ q ∈ n.flightSeqs, packetResendRetryMax < n.resends q

/-- An ACK that clears the marker finds the counters of the other
connections at zero. -/
def Process.ClearsOwn (p : Process ι) (a : ι × Act) : Prop :=
  match a.2 with
  | .recv q _ =>
      q.cmd = .ack → (findPacket (p.conn a.1).rdt.flightSendQueue q.ack).isSome →
        p.shared.blamePacketForExpire ≠ 0 → p.shared.blamePacketForExpire = q.ack →
          ∀ d, d ≠ a.1 → (p.conn d).rdt.resendRetry = 0
  | _ => True

/-- No packet is sent while one with its number is in flight. -/
def Conn.SendsFresh (n : Conn) : Act → Prop
  | .flushQueue =>
      n.sending = true → ∀ p ∈ n.rdt.sendQueue.getLast?, p.cmd = .send → p.seq ∉ n.flightSeqs
  | _ => True

instance [Fintype ι] (p : Process ι) : ∀ a, Decidable (p.ClearsOwn a)
  | (c, .recv _ _) =>
      inferInstanceAs (Decidable (_ → _ → _ → _ → ∀ d, d ≠ c → (p.conn d).rdt.resendRetry = 0))
  | (_, .rdtSend _ _) => isTrue trivial
  | (_, .flushBuffer _) => isTrue trivial
  | (_, .flushQueue) => isTrue trivial
  | (_, .resend _ _ _) => isTrue trivial
  | (_, .rdtRecv _) => isTrue trivial

instance (n : Conn) : ∀ a, Decidable (n.SendsFresh a)
  | .flushQueue => inferInstanceAs (Decidable (_ → ∀ p ∈ n.rdt.sendQueue.getLast?, _))
  | .rdtSend _ _ => isTrue trivial
  | .flushBuffer _ => isTrue trivial
  | .resend _ _ _ => isTrue trivial
  | .rdtRecv _ => isTrue trivial
  | .recv _ _ => isTrue trivial

/-! ## One connection -/

structure Peer.Counted (n : Peer) : Prop where
  distinct : n.conn.flightSeqs.Nodup
  counted : 0 < n.conn.rdt.resendRetry →
    n.shared.blamePacketForExpire ≠ 0 ∧ n.shared.blamePacketForExpire ∈ n.conn.flightSeqs ∧
      n.conn.rdt.resendRetry ≤ n.conn.resends n.shared.blamePacketForExpire
  blamesRight : n.conn.BlamesRight
  running : n.shared.exited = false → n.conn.disconnected = false

/-- A step that leaves what is counted as it is. -/
theorem Peer.Counted.of_same {n n' : Peer} (h : n.Counted) (hshared : n'.shared = n.shared)
    (hflight : n'.conn.rdt.flightSendQueue = n.conn.rdt.flightSendQueue)
    (hretry : n'.conn.rdt.resendRetry = n.conn.rdt.resendRetry)
    (hresends : n'.conn.resends = n.conn.resends)
    (hdisconnected : n'.conn.disconnected = n.conn.disconnected) : n'.Counted where
  distinct := by
    rw [Conn.flightSeqs, hflight]
    exact h.distinct
  counted := by
    rw [hshared, hretry, hresends, Conn.flightSeqs, hflight]
    exact h.counted
  blamesRight := by
    rw [Conn.BlamesRight, hdisconnected, hresends, Conn.flightSeqs, hflight]
    exact h.blamesRight
  running := by
    rw [hshared, hdisconnected]
    exact h.running

theorem counted_init (cfg : Config) (seq0 : Nat) : (Peer.init cfg seq0).Counted where
  distinct := List.nodup_nil
  counted := fun h => absurd h (Nat.lt_irrefl 0)
  blamesRight := fun h => nomatch h
  running := fun _ => rfl

/-- A packet that is sent starts to be counted anew. -/
theorem counted_flushQueue {n : Peer} (h : n.Counted) (hrun : n.shared.exited = false)
    (hfresh : n.conn.SendsFresh .flushQueue) :
    Peer.Counted { n with conn := n.conn.flushQueue } := by
  cases hsending : n.conn.sending with
  | false =>
    rw [flushQueue_outside hsending]
    exact h.of_same rfl rfl rfl rfl rfl
  | true =>
    rcases List.eq_nil_or_concat n.conn.rdt.sendQueue with hnil | ⟨rest, packet, hqueue⟩
    · rw [flushQueue_done hsending hnil]
      exact h.of_same rfl rfl rfl rfl rfl
    · rw [List.concat_eq_append] at hqueue
      rw [flushQueue_concat hsending hqueue]
      split_ifs with hcmd
      · have hnew : packet.seq ∉ n.conn.flightSeqs :=
          hfresh hsending packet (by rw [hqueue]; simp) hcmd
        refine ⟨List.nodup_cons.mpr ⟨hnew, h.distinct⟩, fun hpos => ?_, ?_, h.running⟩
        · obtain ⟨hmark, hmem, hle⟩ := h.counted hpos
          refine ⟨hmark, List.mem_cons_of_mem _ hmem, ?_⟩
          have hne : n.shared.blamePacketForExpire ≠ packet.seq := fun heq => hnew (heq ▸ hmem)
          simpa only [Function.update_of_ne hne] using hle
        · intro hdis
          exact absurd ((h.running hrun).symm.trans hdis) (by decide)
      · exact h.of_same rfl rfl rfl rfl rfl

/-- A retransmission counts for the packet marked, which may become the
one retransmitted. -/
theorem counted_resend {n : Peer} (h : n.Counted) (place now later : Nat) :
    (n.resend place now later).Counted := by
  obtain hsame | ⟨position, packet, blame, retry, exited, hplace, rfl, hcount, hstep⟩ :=
    resend_cases n place now later
  · rw [hsame]
    exact h
  · have hmem : position.seq ∈ n.conn.flightSeqs :=
      List.mem_map_of_mem (List.mem_of_getElem? hplace)
    have hseqs : (n.resend place now later).conn.flightSeqs = n.conn.flightSeqs := by
      rw [hstep]
      exact Udp.map_set_seq hplace rfl
    have hnonzero : 0 < n.conn.rdt.resendRetry →
        (if n.shared.blamePacketForExpire = 0 then position.seq
          else n.shared.blamePacketForExpire) = n.shared.blamePacketForExpire := fun hpos =>
      if_neg (h.counted hpos).1
    unfold countRetry at hcount
    dsimp only at hcount
    generalize hmark : (if n.shared.blamePacketForExpire = 0 then position.seq
      else n.shared.blamePacketForExpire) = marker at hcount hnonzero
    split at hcount
    · -- the packet is the one marked
      rename_i hmarked
      obtain ⟨hne, rfl⟩ := hmarked
      simp only [Prod.mk.injEq, Rdt.mk.injEq, true_and, and_true] at hcount
      obtain ⟨rfl, rfl, rfl⟩ := hcount
      have hretries : n.conn.rdt.resendRetry ≤ n.conn.resends position.seq := by
        rcases Nat.eq_zero_or_pos n.conn.rdt.resendRetry with hzero | hpos
        · omega
        · rw [hnonzero hpos]
          exact (h.counted hpos).2.2
      refine ⟨by rw [hseqs]; exact h.distinct, fun _ => ?_, fun hdis => ?_, fun hrun => ?_⟩
      · rw [hseqs, hstep]
        refine ⟨hne, hmem, ?_⟩
        simp only [Function.update_self]
        omega
      · refine ⟨position.seq, by rw [hseqs]; exact hmem, ?_⟩
        rw [hstep] at hdis ⊢
        simp only [Function.update_self, decide_eq_true_iff] at hdis ⊢
        omega
      · rw [hstep] at hrun ⊢
        exact hrun
    · rename_i hother
      simp only [Prod.mk.injEq, Rdt.mk.injEq, true_and, and_true] at hcount
      obtain ⟨rfl, rfl, rfl⟩ := hcount
      refine ⟨by rw [hseqs]; exact h.distinct, fun hpos => ?_, fun hdis => ?_, fun _ => ?_⟩
      · rw [hseqs, hstep] at *
        obtain ⟨hzero, hin, hle⟩ := h.counted hpos
        have heq := hnonzero hpos
        subst heq
        refine ⟨hzero, hin, ?_⟩
        have hne : n.shared.blamePacketForExpire ≠ position.seq := fun heq => hother ⟨hzero, heq⟩
        simpa only [Function.update_of_ne hne] using hle
      · rw [hstep] at hdis
        exact nomatch hdis
      · rw [hstep]

/-- An ACK for the packet marked clears the marker and the counter. -/
theorem counted_recvAck {n : Peer} (h : n.Counted) (hrun : n.shared.exited = false) (ack : Nat) :
    (n.recvAck ack).Counted := by
  cases hfind : findPacket n.conn.rdt.flightSendQueue ack with
  | none =>
    rw [recvAck_ignored hfind]
    exact h
  | some position =>
    have hstep := recvAck_acted hfind
    have hseqs : (n.recvAck ack).conn.flightSeqs = n.conn.flightSeqs.erase ack := by
      rw [hstep]
      exact Udp.map_eraseP_seq _ _
    refine ⟨by rw [hseqs]; exact h.distinct.erase ack, ?_, fun hdis => ?_, ?_⟩
    · rw [hseqs, hstep]
      unfold clearBlame
      split
      · exact fun hpos => absurd hpos (Nat.lt_irrefl 0)
      · rename_i hother
        intro hpos
        obtain ⟨hzero, hmem, hle⟩ := h.counted hpos
        have hne : n.shared.blamePacketForExpire ≠ ack := fun heq => hother ⟨hzero, heq⟩
        exact ⟨hzero, (List.mem_erase_of_ne hne).mpr hmem, hle⟩
    · rw [hstep] at hdis
      exact absurd ((h.running hrun).symm.trans hdis) (by decide)
    · rw [hstep]
      exact h.running

theorem counted_step {n : Peer} (h : n.Counted) {a : Act}
    (hfresh : n.shared.exited = false → n.conn.SendsFresh a) : (n.step a).Counted := by
  cases hrun : n.shared.exited with
  | true =>
    rw [step_exited hrun]
    exact h
  | false =>
    cases a with
    | rdtSend buff len =>
      rw [step_rdtSend hrun]
      refine h.of_same rfl ?_ ?_ rfl rfl <;> unfold rdtSend <;> split <;> rfl
    | flushBuffer now =>
      rw [step_flushBuffer hrun]
      refine h.of_same rfl ?_ ?_ rfl rfl <;>
        simp only [Conn.flushBuffer, flushBufferIter] <;> split <;> rfl
    | flushQueue =>
      rw [step_flushQueue hrun]
      exact counted_flushQueue h hrun (hfresh hrun)
    | resend place now later =>
      rw [step_resend hrun]
      exact counted_resend h place now later
    | rdtRecv len =>
      rw [step_rdtRecv hrun]
      exact h.of_same rfl rfl rfl rfl rfl
    | recv p now =>
      rw [step_recv hrun]
      rcases recv_cases n p now with ⟨-, hstep⟩ | ⟨-, -, hstep⟩ | ⟨-, hstep⟩
      · rw [hstep]
        exact counted_recvAck h hrun p.ack
      · obtain ⟨current, buffer, hrdt⟩ := recvData_eq now n.conn.rdt p
        rw [hstep, hrdt]
        exact h.of_same rfl rfl rfl rfl rfl
      · rw [hstep]
        exact h

/-! ## The other connections -/

/-- A marker that is set stays, unless the ACK of its packet arrives. -/
theorem blame_step (n : Peer) (a : Act) :
    (n.step a).shared.blamePacketForExpire = n.shared.blamePacketForExpire ∨
      n.shared.blamePacketForExpire = 0 ∨
      ∃ p now, a = .recv p now ∧ p.cmd = .ack ∧
        (findPacket n.conn.rdt.flightSendQueue p.ack).isSome ∧
        n.shared.blamePacketForExpire = p.ack := by
  cases hrun : n.shared.exited with
  | true => exact Or.inl (by rw [step_exited hrun])
  | false =>
    by_cases hzero : n.shared.blamePacketForExpire = 0
    · exact Or.inr (Or.inl hzero)
    · cases a with
      | resend place now later =>
        refine Or.inl ?_
        rw [step_resend hrun]
        obtain hsame | ⟨position, packet, blame, retry, exited, -, -, hcount, hstep⟩ :=
          resend_cases n place now later
        · rw [hsame]
        · rw [hstep]
          unfold countRetry at hcount
          rw [if_neg hzero] at hcount
          dsimp only at hcount
          split at hcount <;> exact congrArg Prod.fst hcount
      | recv p now =>
        rw [step_recv hrun]
        rcases recv_cases n p now with ⟨hcmd, hstep⟩ | ⟨-, -, hstep⟩ | ⟨-, hstep⟩
        · rw [hstep]
          cases hfind : findPacket n.conn.rdt.flightSendQueue p.ack with
          | none => exact Or.inl (by rw [recvAck_ignored hfind])
          | some position =>
            by_cases hblame : n.shared.blamePacketForExpire = p.ack
            · exact Or.inr (Or.inr ⟨p, now, rfl, hcmd, by rw [hfind]; rfl, hblame⟩)
            · refine Or.inl ?_
              rw [recvAck_acted hfind]
              simp [clearBlame, hblame]
        · exact Or.inl (by rw [hstep])
        · exact Or.inl (by rw [hstep])
      | rdtSend buff len => exact Or.inl (by rw [step_rdtSend hrun])
      | flushBuffer now => exact Or.inl (by rw [step_flushBuffer hrun])
      | flushQueue => exact Or.inl (by rw [step_flushQueue hrun])
      | rdtRecv len => exact Or.inl (by rw [step_rdtRecv hrun])

theorem exited_step (n : Peer) (a : Act) (h : n.shared.exited = true) :
    (n.step a).shared.exited = true := by
  rw [step_exited h]
  exact h

/-- A step on connection `c` leaves what another one counts. -/
theorem counted_other {p : Process ι} {c d : ι} (hd : d ≠ c) (a : Act)
    (h : (p.peer d).Counted) (hown : p.shared.exited = false → p.ClearsOwn (c, a)) :
    ((p.step (c, a)).peer d).Counted := by
  have hconn : ((p.step (c, a)).peer d).conn = p.conn d := conn_step_ne p a hd
  refine ⟨by rw [hconn]; exact h.distinct, fun hpos => ?_, by rw [hconn]; exact h.blamesRight,
    fun hrun => ?_⟩
  · rw [hconn] at hpos ⊢
    obtain ⟨hzero, hmem, hle⟩ := h.counted hpos
    rcases blame_step (p.peer c) a with hsame | hunset | ⟨q, now, rfl, hcmd, hfind, hblame⟩
    · have hblame : ((p.step (c, a)).peer d).shared.blamePacketForExpire
          = (p.peer d).shared.blamePacketForExpire := hsame
      rw [hblame]
      exact ⟨hzero, hmem, hle⟩
    · exact absurd hunset hzero
    · cases hexited : p.shared.exited with
      | true =>
        have hshared : (p.step (c, .recv q now)).shared = p.shared := by
          show ((p.peer c).step (.recv q now)).shared = p.shared
          rw [step_exited (n := p.peer c) hexited]
          rfl
        have : ((p.step (c, .recv q now)).peer d).shared = p.shared := hshared
        rw [this]
        exact ⟨hzero, hmem, hle⟩
      | false =>
        have hretry := hown hexited hcmd hfind hzero hblame d hd
        exact absurd hpos (by rw [hretry]; exact Nat.lt_irrefl 0)
  · rw [hconn]
    refine h.running ?_
    by_contra hexited
    have hstays := exited_step (p.peer c) a (Bool.eq_true_of_not_eq_false hexited)
    have hrun' : ((p.peer c).step a).shared.exited = false := hrun
    rw [hstays] at hrun'
    exact nomatch hrun'

/-! ## Runs of a process -/

theorem counted_process_step {p : Process ι} {a : ι × Act} (h : ∀ d, (p.peer d).Counted)
    (hfresh : p.Meets Conn.SendsFresh a) (hown : p.shared.exited = false → p.ClearsOwn a) (d : ι) :
    ((p.step a).peer d).Counted := by
  by_cases hd : d = a.1
  · subst hd
    have hself : (p.step a).peer a.1 = (p.peer a.1).step a.2 := by
      show Peer.mk _ ((p.step a).conn a.1) = _
      rw [conn_step_self]
      rfl
    rw [hself]
    exact counted_step (h a.1) hfresh
  · exact counted_other hd a.2 (h d) hown

/-- In every run of a process in which each ACK that clears the marker
finds the other counters at zero, and no number is sent while it is in
flight, `exit` blames a packet that was retransmitted too often. -/
theorem blamesRight_of_clearsOwn (cfg : Config) (seq0 : ι → Nat) (acts : List (ι × Act))
    (hown : Along Process.step (fun p a => p.shared.exited = false → p.ClearsOwn a)
      (Process.init cfg seq0) acts)
    (hfresh : Along Process.step (Process.Meets Conn.SendsFresh) (Process.init cfg seq0) acts) :
    Throughout Process.step (fun p => ∀ c, (p.conn c).BlamesRight) (Process.init cfg seq0) acts :=
  throughout_of_step (I := fun p : Process ι => ∀ c, (p.peer c).Counted)
    (fun _ _ h hc => counted_process_step h hc.2 hc.1) (fun _ h c => (h c).blamesRight)
    (hown.and hfresh) fun c => counted_init cfg (seq0 c)

/-- A packet of one byte is made on `c` and sent. -/
def byteSent (c : Bool) (now : Nat) : List (Bool × Act) :=
  [(c, .rdtSend (fun _ => 7) 1), (c, .flushBuffer now), (c, .flushQueue), (c, .flushQueue),
    (c, .flushQueue)]

/-- The only packet of `true` is retransmitted eleven times. -/
def elevenTimeouts : List (Bool × Act) :=
  byteSent true 0 ++ (List.range 11).map fun i => (true, .resend 0 (101 * (i + 1)) (101 * (i + 1)))

theorem blamesRight_elevenTimeouts :
    (Process.after protocolConfig (fun _ => 5) elevenTimeouts).shared.exited = true ∧
      Throughout Process.step (fun p : Process Bool => ∀ c, (p.conn c).BlamesRight)
        (Process.init protocolConfig fun _ => 5) elevenTimeouts :=
  ⟨by decide +kernel, blamesRight_of_clearsOwn protocolConfig (fun _ => 5) elevenTimeouts
    (by decide +kernel) (by decide +kernel)⟩

/-- Both connections send a packet numbered 5. The one of `true` is
retransmitted ten times, and `true` sends its packet 6. Then the ACK for
the packet of `false` arrives, and the next timeout of `true` finds
packet 6 first. -/
def sharedNumber : List (Bool × Act) :=
  byteSent true 0 ++ byteSent false 0 ++
    ((List.range 10).map fun i => (true, .resend 0 (101 * (i + 1)) (101 * (i + 1)))) ++
    byteSent true 1010 ++ [(false, .recv (ackPacket 0 5) 1010), (true, .resend 0 1111 1111)]

def afterSharedNumber : Process Bool :=
  Process.after protocolConfig (fun _ => 5) sharedNumber

/-- The session ends although packet 6 was retransmitted once and packet
5 ten times. -/
theorem unblamed_exit :
    afterSharedNumber.shared.exited = true ∧
      (afterSharedNumber.conn true).disconnected = true ∧
      (afterSharedNumber.conn true).flightSeqs = [6, 5] ∧
      (afterSharedNumber.conn true).resends 6 = 1 ∧
      (afterSharedNumber.conn true).resends 5 = 10 ∧
      ¬ (afterSharedNumber.conn true).BlamesRight := by
  have hflight : (afterSharedNumber.conn true).flightSeqs = [6, 5] := by decide +kernel
  have hdisconnected : (afterSharedNumber.conn true).disconnected = true := by decide +kernel
  have hsix : (afterSharedNumber.conn true).resends 6 = 1 := by decide +kernel
  have hfive : (afterSharedNumber.conn true).resends 5 = 10 := by decide +kernel
  refine ⟨by decide +kernel, hdisconnected, hflight, hsix, hfive, fun hright => ?_⟩
  obtain ⟨q, hq, hmore⟩ := hright hdisconnected
  have hmax : packetResendRetryMax = 10 := rfl
  rw [hflight] at hq
  rcases List.mem_cons.mp hq with rfl | hq
  · omega
  · rw [List.mem_singleton.mp hq] at hmore
    omega

end Training.Rudp
