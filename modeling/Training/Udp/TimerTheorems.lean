/-
Training.Udp.TimerTheorems — which expired packets an iteration of the
send worker retransmits.

An iteration of the loop ends and is a run of the peer's own steps, so
the states between iterations are reachable ones. The timer check is made
in the branch of the closed window only: `flushBufferLoop_spec` says the
loop of `flush_buffer` reaches it exactly when the window is closed or
the pending packets close it (`WindowFills`). Then every packet in flight
that is expired is retransmitted, unless the retry limit ends the
process; otherwise none is, however old it is.
-/
import Mathlib.Logic.Function.Iterate
import Training.Udp.ProtocolTheorems
import Training.Udp.Timer

namespace Training.Udp

open Training.Lib

variable {ar : SeqArith} {clock : Nat → Nat} {n : Peer}

/-! ## `resend_expire_packet` -/

/-- A retransmission leaves the packets at the other places as they are. -/
theorem flight_resend_of_lt {place j now : Nat} (hj : j < place) :
    (n.resend place now).rdt.flightSendQueue[j]? = n.rdt.flightSendQueue[j]? := by
  rcases n.resend_cases place now with h | ⟨position, blame, retry, exited, -, h⟩
  · rw [h]
  · rw [h]
    exact List.getElem?_set_ne (by omega)

theorem length_flight_resend (n : Peer) (place now : Nat) :
    (n.resend place now).rdt.flightSendQueue.length = n.rdt.flightSendQueue.length := by
  rcases n.resend_cases place now with h | ⟨position, blame, retry, exited, -, h⟩
  · rw [h]
  · rw [h]
    exact List.length_set

/-- Every expired packet is retransmitted, if the process lives. -/
theorem mem_resendExpirePacket (place i : Nat) (n : Peer)
    (hplace : place ≤ n.rdt.flightSendQueue.length)
    (hlives : (n.resendExpirePacket clock place i).1.exited = false) {j : Nat} {p : Packet}
    (hj : j < place) (hp : n.rdt.flightSendQueue[j]? = some p) (hexpired : Expired clock p) :
    p ∈ (n.resendExpirePacket clock place i).2 := by
  induction place generalizing i n with
  | zero => exact absurd hj (Nat.not_lt_zero j)
  | succ place ih =>
    have hlt : place < n.rdt.flightSendQueue.length := by omega
    have hat : n.rdt.flightSendQueue[place]? = some n.rdt.flightSendQueue[place] :=
      List.getElem?_eq_getElem hlt
    unfold Peer.resendExpirePacket at hlives ⊢
    rw [hat] at hlives ⊢
    dsimp only at hlives ⊢
    by_cases hold : timeDiff (clock i) n.rdt.flightSendQueue[place].ts > packetExpireTime
    · rw [if_pos hold] at hlives ⊢
      by_cases hexit : (n.resend place (clock (i + 1))).exited = true
      · rw [if_pos hexit] at hlives
        exact absurd hlives (by simp [hexit])
      · rw [if_neg hexit] at hlives ⊢
        dsimp only at hlives ⊢
        rcases Nat.lt_succ_iff_lt_or_eq.mp hj with hj | rfl
        · refine List.mem_cons_of_mem _ (ih (i + 2) _ ?_ hlives hj ?_)
          · rw [length_flight_resend]
            omega
          · rw [flight_resend_of_lt hj, hp]
        · rw [hat] at hp
          exact List.mem_cons.mpr (Or.inl (Option.some.inj hp).symm)
    · rw [if_neg hold] at hlives ⊢
      rcases Nat.lt_succ_iff_lt_or_eq.mp hj with hj | rfl
      · exact ih (i + 1) n (by omega) hlives hj hp
      · rw [hat] at hp
        exact absurd (Option.some.inj hp ▸ hexpired i) hold

/-! ## `flush_buffer` -/

theorem windowFull_congr {s s' : Rdt} (hseq : s'.currentSendSeq = s.currentSendSeq)
    (hbase : s'.sendWndBase = s.sendWndBase) (hwnd : s'.wndSize = s.wndSize) :
    windowFull ar s' = windowFull ar s := by
  unfold windowFull lastWnd
  rw [hseq, hbase, hwnd]

/-- A packet made leaves the others pending. -/
theorem pendingPackets_made {s s' : Rdt} (hmtu : 0 < s.mtu) (hmtu' : s'.mtu = s.mtu)
    (hdata : 0 < ringbuffDataSize s.sendBuffer)
    (hdata' : ringbuffDataSize s'.sendBuffer = ringbuffDataSize s.sendBuffer - s.mtu) :
    pendingPackets s = pendingPackets s' + 1 := by
  unfold pendingPackets
  rw [hmtu', hdata']
  rcases Nat.le_total s.mtu (ringbuffDataSize s.sendBuffer) with hle | hle
  · rw [← Nat.add_div_right _ hmtu]
    congr 1
    omega
  · rw [Nat.sub_eq_zero_of_le hle, Nat.zero_add, Nat.div_eq_of_lt (by omega : s.mtu - 1 < s.mtu),
      Nat.div_eq_iff hmtu]
    omega

theorem windowFills_made {s s' : Rdt} (hmtu : 0 < s.mtu) (hmtu' : s'.mtu = s.mtu)
    (hdata : 0 < ringbuffDataSize s.sendBuffer)
    (hdata' : ringbuffDataSize s'.sendBuffer = ringbuffDataSize s.sendBuffer - s.mtu)
    (hseq : s'.currentSendSeq = ar.nextSeq s.currentSendSeq)
    (hbase : s'.sendWndBase = s.sendWndBase) (hwnd : s'.wndSize = s.wndSize)
    (hopen : windowFull ar s = false) : WindowFills ar s ↔ WindowFills ar s' := by
  have hpending := pendingPackets_made hmtu hmtu' hdata hdata'
  have hshift : ∀ k, windowFull ar { s' with
      currentSendSeq := ar.nextSeq^[k] s'.currentSendSeq } =
      windowFull ar { s with currentSendSeq := ar.nextSeq^[k + 1] s.currentSendSeq } := fun k =>
    windowFull_congr (by rw [hseq, Function.iterate_succ_apply]) hbase hwnd
  unfold WindowFills
  constructor
  · rintro ⟨k, hk, hfull⟩
    cases k with
    | zero => exact absurd (hopen.symm.trans hfull) Bool.false_ne_true
    | succ k => exact ⟨k, by omega, (hshift k).trans hfull⟩
  · rintro ⟨k, hk, hfull⟩
    exact ⟨k + 1, by omega, (hshift k).symm.trans hfull⟩

/-- What `flush_buffer` does to the fields its loop reads. -/
theorem flushBufferIter_made (now : Nat) (hmtu : 0 < n.rdt.mtu)
    (hopen : windowFull ar n.rdt = false) (hdata : 0 < ringbuffDataSize n.rdt.sendBuffer) :
    (∃ packet, (flushBufferIter ar now n.rdt).2 = .made packet) ∧
      let n' := n.flushBuffer ar now
      n'.rdt.mtu = n.rdt.mtu ∧
      ringbuffDataSize n'.rdt.sendBuffer = ringbuffDataSize n.rdt.sendBuffer - n.rdt.mtu ∧
      n'.rdt.currentSendSeq = ar.nextSeq n.rdt.currentSendSeq ∧
      n'.rdt.sendWndBase = n.rdt.sendWndBase ∧ n'.rdt.wndSize = n.rdt.wndSize ∧
      n'.rdt.flightSendQueue = n.rdt.flightSendQueue ∧ n'.exited = n.exited := by
  have hlen : 0 < (n.rdt.sendBuffer.contents.take n.rdt.mtu).length := by
    rw [List.length_take, length_contents]
    omega
  unfold Peer.flushBuffer
  rw [flushBufferIter_open hopen]
  dsimp only
  rw [if_pos hlen]
  exact ⟨⟨_, rfl⟩, rfl, ringbuffRead_dataSize _ _, rfl, rfl, rfl, rfl, rfl⟩

theorem flushBufferIter_bufferEmpty (now : Nat) (hopen : windowFull ar n.rdt = false)
    (hdata : ringbuffDataSize n.rdt.sendBuffer = 0) :
    (flushBufferIter ar now n.rdt).2 = .bufferEmpty ∧
      (n.flushBuffer ar now).rdt.flightSendQueue = n.rdt.flightSendQueue ∧
      (n.flushBuffer ar now).exited = n.exited := by
  have hlen : ¬ 0 < (n.rdt.sendBuffer.contents.take n.rdt.mtu).length := by
    rw [List.length_take, length_contents]
    omega
  unfold Peer.flushBuffer
  rw [flushBufferIter_open hopen]
  dsimp only
  rw [if_neg hlen]
  exact ⟨rfl, rfl, rfl⟩

/-- The loop of `flush_buffer` ends, and it makes the timer check exactly
when the window is closed or the pending packets close it. -/
theorem flushBufferLoop_spec (ar : SeqArith) (clock : Nat → Nat) (fuel i : Nat) (n : Peer)
    (hmtu : 0 < n.rdt.mtu)
    (hfuel : ringbuffDataSize n.rdt.sendBuffer < fuel) :
    ∃ i' n', n'.rdt.flightSendQueue = n.rdt.flightSendQueue ∧ n'.exited = n.exited ∧
      (WindowFills ar n.rdt ∧ n.flushBufferLoop ar clock fuel i =
          some (n'.resendExpirePacket clock n'.rdt.flightSendQueue.length i') ∨
        ¬ WindowFills ar n.rdt ∧ n.flushBufferLoop ar clock fuel i = some (n', [])) := by
  induction fuel generalizing i n with
  | zero => exact absurd hfuel (Nat.not_lt_zero _)
  | succ fuel ih =>
    unfold Peer.flushBufferLoop
    cases hwnd : windowFull ar n.rdt with
    | true =>
      rw [flushBufferIter_windowFull hwnd]
      exact ⟨i, n, rfl, rfl, Or.inl ⟨⟨0, Nat.zero_le _, hwnd⟩, rfl⟩⟩
    | false =>
      rcases Nat.eq_zero_or_pos (ringbuffDataSize n.rdt.sendBuffer) with hdata | hdata
      · obtain ⟨hend, hflight, hexited⟩ := flushBufferIter_bufferEmpty (clock i) hwnd hdata
        rw [hend]
        refine ⟨i, n.flushBuffer ar (clock i), hflight, hexited, Or.inr ⟨?_, rfl⟩⟩
        rintro ⟨k, hk, hfull⟩
        have hzero : k = 0 := by
          have : pendingPackets n.rdt = 0 := by
            unfold pendingPackets
            rw [hdata]
            exact Nat.div_eq_of_lt (by omega)
          omega
        subst hzero
        exact absurd (hwnd.symm.trans hfull) Bool.false_ne_true
      · obtain ⟨⟨packet, hmade⟩, hmtu', hdata', hseq, hbase, hwnd', hflight, hexited⟩ :=
          flushBufferIter_made (clock i) hmtu hwnd hdata
        rw [hmade]
        obtain ⟨i', n', hflight', hexited', hcase⟩ :=
          ih (i + 1) (n.flushBuffer ar (clock i)) (by omega) (by omega)
        refine ⟨i', n', hflight'.trans hflight, hexited'.trans hexited, ?_⟩
        rwa [windowFills_made hmtu hmtu' hdata hdata' hseq hbase hwnd' hwnd]

/-! ## The iteration is a run of the peer -/

theorem flushQueueLoop_run (ar : SeqArith) (len : Nat) (n : Peer) (h : n.exited = false) :
    ∃ acts, n.flushQueueLoop len = run (Peer.step ar) n acts := by
  induction len generalizing n with
  | zero => exact ⟨[], rfl⟩
  | succ len ih =>
    have hexited : n.flushQueue.exited = false := by
      unfold Peer.flushQueue
      split <;> exact h
    obtain ⟨acts, hacts⟩ := ih n.flushQueue hexited
    refine ⟨.op .flushQueue :: acts, ?_⟩
    rw [run_cons, Peer.step_op, h]
    exact hacts

theorem resendExpirePacket_run (ar : SeqArith) (clock : Nat → Nat) (place i : Nat) (n : Peer)
    (h : n.exited = false) :
    ∃ acts, (n.resendExpirePacket clock place i).1 = run (Peer.step ar) n acts := by
  induction place generalizing i n with
  | zero => exact ⟨[], rfl⟩
  | succ place ih =>
    have hstep : ∀ now, n.step ar (.op (.resend place now)) = n.resend place now := by
      intro now
      rw [Peer.step_op, h]
      rfl
    unfold Peer.resendExpirePacket
    split
    · exact ⟨[], rfl⟩
    · split
      · dsimp only
        split
        · exact ⟨[.op (.resend place (clock (i + 1)))], (hstep _).symm⟩
        · rename_i hexit
          obtain ⟨acts, hacts⟩ := ih (i + 2) _ (by simpa using hexit)
          exact ⟨.op (.resend place (clock (i + 1))) :: acts, by rw [run_cons, hstep, hacts]⟩
      · exact ih (i + 1) n h

theorem flushBufferLoop_run (fuel i : Nat) (n : Peer) (h : n.exited = false)
    {n' : Peer} {resent : List Packet}
    (hloop : n.flushBufferLoop ar clock fuel i = some (n', resent)) :
    ∃ acts, n' = run (Peer.step ar) n acts := by
  induction fuel generalizing i n with
  | zero => exact nomatch hloop
  | succ fuel ih =>
    have hstep : n.step ar (.op (.flushBuffer (clock i))) = n.flushBuffer ar (clock i) := by
      rw [Peer.step_op, h]
      rfl
    have hexited : (n.flushBuffer ar (clock i)).exited = false := by
      unfold Peer.flushBuffer
      split <;> exact h
    unfold Peer.flushBufferLoop at hloop
    split at hloop
    · obtain ⟨acts, hacts⟩ := resendExpirePacket_run ar clock
        n.rdt.flightSendQueue.length i n h
      rw [Option.some.inj hloop] at hacts
      exact ⟨acts, hacts⟩
    · obtain ⟨acts, hacts⟩ := ih (i + 1) _ hexited hloop
      exact ⟨.op (.flushBuffer (clock i)) :: acts, by rw [run_cons, hstep, hacts]⟩
    · have hn' := congrArg Prod.fst (Option.some.inj hloop)
      exact ⟨[.op (.flushBuffer (clock i))], by rw [run_cons, hstep]; exact hn'.symm⟩

/-- An iteration of the send worker is a run of the peer's steps. -/
theorem sendWorkerIter_run (h : n.exited = false) {n' : Peer} {resent : List Packet}
    (hiter : n.sendWorkerIter ar clock = some (n', resent)) :
    ∃ acts, n' = run (Peer.step ar) n acts := by
  unfold Peer.sendWorkerIter at hiter
  obtain ⟨⟨n1, resent1⟩, hloop, hrest⟩ := Option.map_eq_some_iff.mp hiter
  obtain ⟨acts, hacts⟩ := flushBufferLoop_run _ 0 n h hloop
  unfold Peer.thenFlushQueue at hrest
  split at hrest
  · exact ⟨acts, by rw [← hacts]; exact (congrArg Prod.fst hrest).symm⟩
  · rename_i hexited
    obtain ⟨more, hmore⟩ := flushQueueLoop_run ar n1.rdt.sendQueue.length n1
      (by simpa using hexited)
    refine ⟨acts ++ more, ?_⟩
    rw [run_append, ← hacts, ← hmore]
    exact (congrArg Prod.fst hrest).symm

/-! ## Expired packets -/

theorem mtu_stepOp (ar : SeqArith) (n : Peer) (o : Op) :
    (n.stepOp ar o).rdt.mtu = n.rdt.mtu := by
  cases o with
  | rdtSend buff =>
    simp only [Peer.stepOp, rdtSend]
    split <;> rfl
  | flushBuffer now =>
    simp only [Peer.stepOp, Peer.flushBuffer]
    cases hwnd : windowFull ar n.rdt with
    | true => rw [flushBufferIter_windowFull hwnd]
    | false =>
      rw [flushBufferIter_open hwnd]
      dsimp only
      split_ifs <;> rfl
  | flushQueue =>
    rcases n.flushQueue_cases with ⟨-, h⟩ | ⟨rest, packet, -, h⟩
    · rw [Peer.stepOp, h]
    · rw [Peer.stepOp, h]
      dsimp only
      split_ifs <;> rfl
  | resend place now =>
    rcases n.resend_cases place now with h | ⟨position, blame, retry, exited, -, h⟩
    · rw [Peer.stepOp, h]
    · rw [Peer.stepOp, h]
  | rdtRecv len => rfl

theorem mtu_recvPacket (ar : SeqArith) (now : Nat) (s : Rdt) (p : Packet) :
    (recvPacket ar now s p).rdt.mtu = s.mtu := by
  unfold recvPacket
  split
  · cases hack : ackAccepted s p.ack with
    | true =>
      obtain ⟨blame, retry, hrdt⟩ := recvAck_accepted ar hack
      rw [hrdt, removeUnack_eq]
    | false => rw [recvAck_ignored hack]
  · obtain ⟨base, queue, buffer, hrdt⟩ := onlyRecvSide_recvSend ar now s p
    rw [hrdt, queueAck_eq]
  · obtain ⟨buffer, hpush⟩ := pushToRecvBuff_fst s p
    simp only [hpush]
  · rfl

theorem mtu_step (ar : SeqArith) (n : Peer) (a : Act) : (n.step ar a).rdt.mtu = n.rdt.mtu := by
  cases a with
  | op o =>
    rw [Peer.step_op]
    split
    · rfl
    · exact mtu_stepOp ar n o
  | recv p now =>
    rw [Peer.step_recv]
    split_ifs
    · rfl
    · rfl
    · exact mtu_recvPacket ar now n.rdt p

theorem mtu_after (ar : SeqArith) (cfg : Config) (seq0 : Nat) (acts : List Act) :
    (Peer.after ar cfg seq0 acts).rdt.mtu = cfg.mtu :=
  run_invariant' (I := fun n : Peer => n.rdt.mtu = cfg.mtu)
    (fun n a h => (mtu_step ar n a).trans h) acts rfl

theorem exited_flushQueueLoop (len : Nat) (n : Peer) :
    (n.flushQueueLoop len).exited = n.exited := by
  induction len generalizing n with
  | zero => rfl
  | succ len ih =>
    refine (ih n.flushQueue).trans ?_
    unfold Peer.flushQueue
    split <;> rfl

theorem thenFlushQueue_exited (e : Peer × List Packet) :
    (Peer.thenFlushQueue e).1.exited = e.1.exited := by
  unfold Peer.thenFlushQueue
  split
  · rfl
  · exact exited_flushQueueLoop _ _

theorem thenFlushQueue_snd (e : Peer × List Packet) : (Peer.thenFlushQueue e).2 = e.2 := by
  unfold Peer.thenFlushQueue
  split <;> rfl

/-- The timer check, made in full: in every state a running sender can
reach, an iteration of its worker that does not end the process
retransmits every packet in flight that is expired if and only if none
is, or the send window is closed or closed by the pending packets. -/
theorem expired_resent_iff (cfg : Config) (seq0 : Nat) (acts : List Act) (clock : Nat → Nat)
    (hruns : (Peer.after .uInt32 cfg seq0 acts).exited = false) :
    let n := Peer.after .uInt32 cfg seq0 acts
    ∃ after, n.sendWorkerIter .uInt32 clock = some after ∧
      ((after.1.exited = false → ∀ p ∈ n.rdt.flightSendQueue, Expired clock p → p ∈ after.2) ↔
        (∀ p ∈ n.rdt.flightSendQueue, ¬ Expired clock p) ∨ WindowFills .uInt32 n.rdt) := by
  intro n
  have hmtu : 0 < n.rdt.mtu := by
    rw [mtu_after]
    exact cfg.mtu_pos
  obtain ⟨i, n1, hflight, hexited, hcase⟩ :=
    flushBufferLoop_spec .uInt32 clock _ 0 n hmtu (Nat.lt_succ_self _)
  unfold Peer.sendWorkerIter
  rcases hcase with ⟨hfills, hloop⟩ | ⟨hopen, hloop⟩
  · -- the timer check is made: what it leaves out, it leaves by `exit`
    rw [hloop]
    refine ⟨_, rfl, iff_of_true ?_ (Or.inr hfills)⟩
    rw [thenFlushQueue_exited, thenFlushQueue_snd]
    intro hlives p hp hexpired
    rw [← hflight] at hp
    obtain ⟨j, hj, hget⟩ := List.mem_iff_getElem.mp hp
    exact mem_resendExpirePacket _ i n1 (Nat.le_refl _) hlives hj
      (List.getElem?_eq_some_iff.mpr ⟨hj, hget⟩) hexpired
  · rw [hloop]
    refine ⟨_, rfl, ?_⟩
    rw [thenFlushQueue_exited, thenFlushQueue_snd]
    constructor
    · intro hall
      exact Or.inl fun p hp hexpired =>
        absurd (hall (hexited.trans hruns) p hp hexpired) List.not_mem_nil
    · rintro (hnone | hfills)
      · exact fun _ p hp hexpired => absurd hexpired (hnone p hp)
      · exact absurd hfills hopen

/-- Two packets in flight close the window. -/
def windowInFlight : List Act :=
  [.op (.rdtSend [10]), .op (.flushBuffer 0), .op .flushQueue, .op (.rdtSend [20]),
    .op (.flushBuffer 0), .op .flushQueue]

theorem expired_resent_windowInFlight :
    let n := Peer.after .uInt32 protocolConfig 1 windowInFlight
    ∃ after, n.sendWorkerIter .uInt32 (fun _ => 5000) = some after ∧
      (after.1.exited = false →
        ∀ p ∈ n.rdt.flightSendQueue, Expired (fun _ => 5000) p → p ∈ after.2) := by
  obtain ⟨after, hiter, hiff⟩ :=
    expired_resent_iff protocolConfig 1 windowInFlight (fun _ => 5000) (by decide +kernel)
  exact ⟨after, hiter, hiff.mpr (Or.inr ⟨0, Nat.zero_le _, by decide +kernel⟩)⟩

/-- The last packet of a burst is in flight, five seconds old, and the
window is half open: the iteration retransmits nothing. -/
theorem lastPacket_not_resent :
    let n := Peer.after .uInt32 protocolConfig 1 (windowInFlight.take 3)
    ∃ p ∈ n.rdt.flightSendQueue, Expired (fun _ => 5000) p ∧
      ∃ after, n.sendWorkerIter .uInt32 (fun _ => 5000) = some after ∧
        after.1.exited = false ∧ after.2 = [] := by
  intro n
  have hflight : n.rdt.flightSendQueue = [⟨1, .send, 0, 0, [10]⟩] := by decide +kernel
  have hiter : (n.sendWorkerIter .uInt32 fun _ => 5000).map (fun e => (e.1.exited, e.2))
      = some (false, []) := by
    decide +kernel
  obtain ⟨after, hafter, hend⟩ := Option.map_eq_some_iff.mp hiter
  have hold : timeDiff 5000 0 > packetExpireTime := by decide
  refine ⟨⟨1, .send, 0, 0, [10]⟩, by rw [hflight]; exact List.mem_singleton_self _,
    fun _ => hold, after, hafter, ?_⟩
  exact ⟨congrArg Prod.fst hend, congrArg Prod.snd hend⟩

end Training.Udp
