/-
Training.Udp.Wrap — before the wrap-around the code computes on the
natural numbers.

`step_uInt32_eq`: a step that meets `NoWrap` is the same step of the
machine on unbounded sequence numbers. Each operation that computes a
sequence number has its own lemma; the rest of a step does not depend on
the arithmetic. `after_uInt32_eq` carries it to runs, and the other two
lemmas move what is proved of the unbounded machine to the code's.
-/
import Training.Udp.ListTheorems
import Training.Udp.Peer

namespace Training.Udp

open Training.Lib

/-! ## The arithmetic -/

@[simp] theorem unbounded_add (a b : Nat) : SeqArith.unbounded.add a b = a + b := rfl
@[simp] theorem unbounded_sub (a b : Nat) : SeqArith.unbounded.sub a b = a - b := rfl
@[simp] theorem unbounded_nextSeq (a : Nat) : SeqArith.unbounded.nextSeq a = a + 1 := rfl

theorem uInt32_add (a b : Nat) :
    SeqArith.uInt32.add a b = (a + b) % uInt32Size := rfl

theorem uInt32_sub (a b : Nat) : SeqArith.uInt32.sub a b = uSub a b := rfl

theorem uInt32_nextSeq (a : Nat) :
    SeqArith.uInt32.nextSeq a = (a + 1) % uInt32Size % seqNumMax := rfl

theorem uInt32_add_eq {a b : Nat} (h : a + b < uInt32Size) :
    SeqArith.uInt32.add a b = SeqArith.unbounded.add a b := by
  rw [uInt32_add, unbounded_add, Nat.mod_eq_of_lt h]

theorem uInt32_nextSeq_eq {a : Nat} (h : a + 1 < seqNumMax) :
    SeqArith.uInt32.nextSeq a = SeqArith.unbounded.nextSeq a := by
  have hlt : a + 1 < uInt32Size := by
    unfold seqNumMax at h
    unfold uInt32Size
    omega
  rw [uInt32_nextSeq, Nat.mod_eq_of_lt hlt, Nat.mod_eq_of_lt h]
  rfl

theorem uSub_eq {a b : Nat} (hb : b ≤ a) (ha : a < uInt32Size) : uSub a b = a - b := by
  unfold uSub
  rw [Nat.mod_eq_of_lt (by omega : b < uInt32Size),
    show uInt32Size - b + a = a - b + uInt32Size by omega, Nat.add_mod_right,
    Nat.mod_eq_of_lt (by omega)]

/-- `a + b - 1`, also where the sum is the word size: it wraps to 0 and
the `- 1` wraps back. -/
theorem uInt32_last_eq {a b : Nat} (h0 : 0 < a + b) (h : a + b ≤ uInt32Size) :
    SeqArith.uInt32.sub (SeqArith.uInt32.add a b) 1 = a + b - 1 := by
  rw [uInt32_sub, uInt32_add]
  rcases Nat.lt_or_eq_of_le h with hlt | heq
  · rw [Nat.mod_eq_of_lt hlt, uSub_eq h0 hlt]
  · rw [heq, Nat.mod_self]
    decide

theorem lastWnd_uInt32_eq {s : Rdt} (h0 : 0 < s.sendWndBase + s.wndSize)
    (h : s.sendWndBase + s.wndSize ≤ uInt32Size) :
    lastWnd .uInt32 s = lastWnd .unbounded s := by
  unfold lastWnd
  rw [uInt32_last_eq h0 h, unbounded_sub, unbounded_add]

theorem windowFull_uInt32_eq {s : Rdt} (h0 : 0 < s.sendWndBase + s.wndSize)
    (h : s.sendWndBase + s.wndSize ≤ uInt32Size) :
    windowFull .uInt32 s = windowFull .unbounded s := by
  unfold windowFull
  rw [lastWnd_uInt32_eq h0 h]

theorem windowFull_unbounded {s : Rdt} (h0 : 0 < s.sendWndBase + s.wndSize) :
    windowFull .unbounded s = false ↔ s.currentSendSeq < s.sendWndBase + s.wndSize := by
  unfold windowFull lastWnd
  rw [decide_eq_false_iff_not, unbounded_sub, unbounded_add]
  omega

/-! ## The operations -/

theorem flushBufferIter_uInt32_eq {now : Nat} {s : Rdt} (h : NoWrapFlush s) :
    flushBufferIter .uInt32 now s = flushBufferIter .unbounded now s := by
  obtain ⟨h0, hle, hseq⟩ := h
  unfold flushBufferIter
  rw [windowFull_uInt32_eq h0 hle]
  split
  · rfl
  · rename_i hroom
    have hlt := (windowFull_unbounded h0).mp (by simpa using hroom)
    dsimp only
    split
    · rename_i htmp
      have hdata : 0 < ringbuffDataSize s.sendBuffer := by
        rw [ringbuffRead_bytes, List.length_take, length_contents] at htmp
        omega
      simp only [makePacket, getAndUpdateCurrent, getAndUpdateSeq, if_true]
      rw [uInt32_nextSeq_eq (hseq hlt hdata)]
    · rfl

@[simp] theorem clearBlame_sendWndBase (s : Rdt) (seq : Nat) :
    (clearBlame s seq).sendWndBase = s.sendWndBase := by
  unfold clearBlame
  split <;> rfl

theorem advanceSendBase_uInt32_eq {base unack : Nat} (next : List Nat)
    (h : unack = base → next = [] → base + 1 < uInt32Size) :
    advanceSendBase .uInt32 base unack next = advanceSendBase .unbounded base unack next := by
  unfold advanceSendBase
  split
  · rename_i heq
    cases next with
    | nil => exact uInt32_add_eq (h heq rfl)
    | cons nextUnack _ => rfl
  · rfl

theorem removeUnack_uInt32_eq {s : Rdt} {seq : Nat}
    (h : seq = s.sendWndBase → findUnack s.unackList seq = [seq] →
      s.sendWndBase + 1 < uInt32Size) :
    removeUnack .uInt32 s seq = removeUnack .unbounded s seq := by
  unfold removeUnack
  split
  · rfl
  · rename_i unack next hfind
    have hunack := findUnack_head hfind
    rw [advanceSendBase_uInt32_eq next]
    intro heq hnil
    exact h (hunack.symm.trans heq) (by rw [hfind, hnil, hunack])

theorem clearBlame_unackList (s : Rdt) (seq : Nat) :
    (clearBlame s seq).unackList = s.unackList := by
  unfold clearBlame
  split <;> rfl

theorem recvAck_uInt32_eq {s : Rdt} {ack : Nat}
    (h : ack = s.sendWndBase → (findPacket s.flightSendQueue ack).isSome →
      findUnack s.unackList ack = [ack] → s.sendWndBase + 1 < uInt32Size) :
    recvAck .uInt32 s ack = recvAck .unbounded s ack := by
  unfold recvAck
  split
  · rfl
  · split
    · rfl
    · rename_i position hpos
      rw [findPacket_seq hpos]
      dsimp only
      rw [removeUnack_uInt32_eq]
      rw [clearBlame_sendWndBase, clearBlame_unackList]
      exact fun heq hfind => h heq (by rw [hpos]; rfl) hfind

@[simp] theorem pushToRecvBuff_recvWndBase (s : Rdt) (p : Packet) :
    (pushToRecvBuff s p).1.recvWndBase = s.recvWndBase := by
  unfold pushToRecvBuff
  split <;> rfl

@[simp] theorem pushToRecvBuff_recvQueue (s : Rdt) (p : Packet) :
    (pushToRecvBuff s p).1.recvQueue = s.recvQueue := by
  unfold pushToRecvBuff
  split <;> rfl

/-- The loop counts as far as the packets it takes. -/
theorem drain_uInt32_eq {queue : List Packet} {s : Rdt}
    (h : s.recvWndBase + (readyRun .unbounded s.recvWndBase queue).length < uInt32Size) :
    drain .uInt32 queue s = drain .unbounded queue s := by
  induction queue generalizing s with
  | nil => rfl
  | cons p rest ih =>
    unfold drain
    split
    · rename_i hseq
      rw [readyRun, if_pos hseq, List.length_cons, unbounded_add] at h
      dsimp only
      rw [pushToRecvBuff_recvWndBase, uInt32_add_eq (by omega)]
      rw [ih (by simp only [unbounded_add]; omega)]
    · rfl

theorem queueAck_arith (ar ar' : SeqArith) (now : Nat) (s : Rdt) (seq : Nat) :
    queueAck ar now s seq = queueAck ar' now s seq := rfl

/-- Before the base the sum is not computed. -/
theorem recvWindow_uInt32_eq {s : Rdt} {seq : Nat}
    (h : s.recvWndBase ≠ 0 → s.recvWndBase ≤ seq → s.recvWndBase + s.wndSize < uInt32Size) :
    recvWindow .uInt32 s seq = recvWindow .unbounded s seq := by
  unfold recvWindow
  split
  · rfl
  · rename_i hne
    by_cases hbefore : seq < s.recvWndBase
    · rw [if_pos (Or.inl hbefore), if_pos (Or.inl hbefore)]
    · rw [uInt32_add_eq (h (fun h0 => hne h0.symm) (Nat.not_lt.mp hbefore))]

theorem recvSend_uInt32_eq {now : Nat} {s : Rdt} {p : Packet}
    (hcmd : p.cmd = .send) (h : NoWrapRecv s p) :
    recvSend .uInt32 now s p = recvSend .unbounded now s p := by
  obtain ⟨-, hfirst, hwnd, horder⟩ := h
  have hwnd' := hwnd hcmd
  unfold recvSend
  rw [queueAck_arith .uInt32 .unbounded]
  generalize hs : queueAck .unbounded now s p.seq = s'
  have hbase : s'.recvWndBase = s.recvWndBase := by rw [← hs]; rfl
  have hsize : s'.wndSize = s.wndSize := by rw [← hs]; rfl
  have hqueue : s'.recvQueue = s.recvQueue := by rw [← hs]; rfl
  dsimp only
  rw [recvWindow_uInt32_eq (by rw [hbase, hsize]; exact hwnd')]
  split
  · rename_i hw
    have h0 : s.recvWndBase = 0 := by
      unfold recvWindow at hw
      split at hw
      · omega
      · split_ifs at hw
    rw [uInt32_add_eq (hfirst hcmd h0)]
  · rfl
  · rename_i hw
    obtain ⟨hne, heq⟩ : s.recvWndBase ≠ 0 ∧ p.seq = s.recvWndBase := by
      unfold recvWindow at hw
      split_ifs at hw
      omega
    have hlt := horder hcmd hne heq
    rw [pushToRecvBuff_recvWndBase, pushToRecvBuff_recvQueue, hbase, hqueue,
      uInt32_add_eq (by omega)]
    rw [drain_uInt32_eq (by simpa only [unbounded_add] using hlt)]
  · rfl

theorem recvPacket_uInt32_eq {now : Nat} {s : Rdt} {p : Packet} (h : NoWrapRecv s p) :
    recvPacket .uInt32 now s p = recvPacket .unbounded now s p := by
  unfold recvPacket
  split
  · rename_i hcmd
    rw [recvAck_uInt32_eq (h.1 hcmd)]
  · rename_i hcmd
    exact recvSend_uInt32_eq hcmd h
  · rfl
  · rfl

/-! ## Steps and runs -/

/-- Only `flush_buffer` computes sequence numbers on the send side. -/
theorem stepOp_arith (ar ar' : SeqArith) (n : Peer) (o : Op)
    (h : ∀ now, o ≠ .flushBuffer now) : n.stepOp ar o = n.stepOp ar' o := by
  cases o with
  | flushBuffer now => exact absurd rfl (h now)
  | _ => rfl

theorem stepOp_uInt32_eq (n : Peer) (o : Op) (h : NoWrap n (.op o)) :
    n.stepOp .uInt32 o = n.stepOp .unbounded o := by
  cases o with
  | flushBuffer now =>
    simp only [Peer.stepOp, Peer.flushBuffer]
    rw [flushBufferIter_uInt32_eq h]
  | rdtSend buff => exact stepOp_arith _ _ n _ nofun
  | flushQueue => exact stepOp_arith _ _ n _ nofun
  | resend place now => exact stepOp_arith _ _ n _ nofun
  | rdtRecv len => exact stepOp_arith _ _ n _ nofun

theorem recv_uInt32_eq (n : Peer) (p : Packet) (now : Nat) (h : NoWrapRecv n.rdt p) :
    n.recv .uInt32 p now = n.recv .unbounded p now := by
  unfold Peer.recv
  rw [recvPacket_uInt32_eq h]

theorem step_uInt32_eq (n : Peer) (a : Act) (h : NoWrap n a) :
    n.step .uInt32 a = n.step .unbounded a := by
  cases a with
  | op o => rw [Peer.step_op, Peer.step_op, stepOp_uInt32_eq n o h]
  | recv p now => rw [Peer.step_recv, Peer.step_recv, recv_uInt32_eq n p now h]

theorem after_uInt32_eq {cfg : Config} {seq0 : Nat} {acts : List Act}
    (h : BeforeWrap cfg seq0 acts) :
    Peer.after .uInt32 cfg seq0 acts = Peer.after .unbounded cfg seq0 acts :=
  run_congr step_uInt32_eq h

end Training.Udp
