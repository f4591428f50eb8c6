/-
Training.Udp.ProtocolTheorems — what each operation of the protocol does.

One specification for each operation, in the form the machine's proofs
use: the cases of an operation with the record it leaves in each. The
operations fall into a send side and a receive side, and each side's
operations leave the other's fields alone: `OnlyRecvSide` is the frame of
the handling of data, the send operations change records with
`{ s with .. }` that a reader can see.
-/
import Training.Udp.ListTheorems
import Training.Udp.Peer

namespace Training.Udp

/-! ## Making packets -/

/-- The SEND packet made next. -/
def nextPacket (s : Rdt) (now : Nat) (data : List UInt8) : Packet where
  seq := s.currentSendSeq
  cmd := .send
  ack := 0
  ts := now
  data := data

/-- The ACK packet for `seq`. -/
def ackPacket (now seq : Nat) : Packet where
  seq := 0
  cmd := .ack
  ack := seq
  ts := now
  data := []

theorem queueAck_eq (ar : SeqArith) (now : Nat) (s : Rdt) (seq : Nat) :
    queueAck ar now s seq
      = { s with current := now, sendQueue := ackPacket now seq :: s.sendQueue } := rfl

/-! ## `flush_buffer` -/

section FlushBuffer

variable {ar : SeqArith} {now : Nat} {s : Rdt}

theorem flushBufferIter_windowFull (h : windowFull ar s = true) :
    flushBufferIter ar now s = (s, .windowFull) := by
  unfold flushBufferIter
  rw [if_pos h]

/-- With the window open, the iteration takes up to `mtu` bytes off
`send_buffer` and, if there are any, queues them as the next packet. -/
theorem flushBufferIter_open (h : windowFull ar s = false) :
    flushBufferIter ar now s =
      let data := s.sendBuffer.contents.take s.mtu
      let sendBuffer := (ringbuffRead s.sendBuffer s.mtu).1
      if 0 < data.length then
        ({ s with
            sendBuffer
            current := now
            currentSendSeq := ar.nextSeq s.currentSendSeq
            sendQueue := nextPacket s now data :: s.sendQueue },
          .made (nextPacket s now data))
      else ({ s with sendBuffer }, .bufferEmpty) := by
  unfold flushBufferIter
  rw [if_neg (by rw [h]; exact Bool.false_ne_true)]
  dsimp only
  rw [ringbuffRead_bytes]
  rfl

end FlushBuffer

/-! ## `flush_queue` -/

theorem flushQueueIter_eq_none {s : Rdt} : flushQueueIter s = none ↔ s.sendQueue = [] := by
  unfold flushQueueIter
  cases hlast : s.sendQueue.getLast? with
  | none => simpa using List.getLast?_eq_none_iff.mp hlast
  | some packet =>
    have hne : s.sendQueue ≠ [] := by
      intro hnil
      rw [hnil] at hlast
      exact nomatch hlast
    simp only [hne, iff_false]
    split <;> exact fun h => nomatch h

/-- The packet at the tail leaves `send_queue`; a SEND packet goes to the
head of `flight_send_queue` and its number into `unack_list`. -/
theorem flushQueueIter_concat {s : Rdt} {rest : List Packet} {packet : Packet}
    (h : s.sendQueue = rest ++ [packet]) :
    flushQueueIter s =
      if packet.cmd = .send then
        some ({ s with
          sendQueue := rest
          flightSendQueue := packet :: s.flightSendQueue
          unackList := seqInsertToList id packet.seq s.unackList }, packet)
      else some ({ s with sendQueue := rest }, packet) := by
  unfold flushQueueIter
  rw [h, List.getLast?_concat, List.dropLast_concat]

/-- The packet at the tail of a peer's `send_queue` is sent. -/
theorem Peer.flushQueue_cases (n : Peer) :
    n.rdt.sendQueue = [] ∧ n.flushQueue = n ∨
      ∃ rest packet, n.rdt.sendQueue = rest ++ [packet] ∧
        n.flushQueue = { n with
          rdt :=
            if packet.cmd = .send then
              { n.rdt with
                sendQueue := rest
                flightSendQueue := packet :: n.rdt.flightSendQueue
                unackList := seqInsertToList id packet.seq n.rdt.unackList }
            else { n.rdt with sendQueue := rest }
          sent := n.sent ++ [packet] } := by
  unfold Peer.flushQueue
  rcases List.eq_nil_or_concat n.rdt.sendQueue with hnil | ⟨rest, packet, hqueue⟩
  · rw [flushQueueIter_eq_none.mpr hnil]
    exact Or.inl ⟨hnil, rfl⟩
  · rw [List.concat_eq_append] at hqueue
    refine Or.inr ⟨rest, packet, hqueue, ?_⟩
    rw [flushQueueIter_concat hqueue]
    split_ifs <;> rfl

/-! ## Retransmission -/

theorem countRetry_fst (s : Rdt) (seq : Nat) :
    ∃ blame retry,
      (countRetry s seq).1 = { s with blamePacketForExpire := blame, resendRetry := retry } := by
  unfold countRetry
  dsimp only
  generalize (if s.blamePacketForExpire = 0 then seq else s.blamePacketForExpire) = blame
  split
  · exact ⟨blame, s.resendRetry + 1, rfl⟩
  · exact ⟨blame, s.resendRetry, rfl⟩

/-- A retransmission changes the packet's time stamp, the clock and the
retry count. -/
theorem resendPacket_eq (now : Nat) (s : Rdt) (position : Packet) :
    ∃ blame retry exited,
      resendPacket now s position =
        ({ position with ts := now },
          { s with current := now, blamePacketForExpire := blame, resendRetry := retry },
          exited) := by
  obtain ⟨blame, retry, h⟩ := countRetry_fst { s with current := now } position.seq
  refine ⟨blame, retry, (countRetry { s with current := now } position.seq).2, ?_⟩
  unfold resendPacket getAndUpdateCurrent
  dsimp only
  rw [← h]

/-- A peer has no packet at the place, or sends it once more. -/
theorem Peer.resend_cases (n : Peer) (place now : Nat) :
    n.resend place now = n ∨
      ∃ position blame retry exited, n.rdt.flightSendQueue[place]? = some position ∧
        n.resend place now = { n with
          rdt := { n.rdt with
            current := now
            blamePacketForExpire := blame
            resendRetry := retry
            flightSendQueue := n.rdt.flightSendQueue.set place { position with ts := now } }
          sent := n.sent ++ [{ position with ts := now }]
          exited } := by
  unfold Peer.resend
  split
  · exact Or.inl rfl
  · rename_i position hpos
    obtain ⟨blame, retry, exited, hresend⟩ := resendPacket_eq now n.rdt position
    refine Or.inr ⟨position, blame, retry, exited, hpos, ?_⟩
    rw [hresend]

/-! ## Receiving an ACK -/

/-- The base after `removeUnack` of `seq`. -/
def baseAfterAck (ar : SeqArith) (unackList : List Nat) (base seq : Nat) : Nat :=
  match findUnack unackList seq with
  | [] => base
  | unack :: next => advanceSendBase ar base unack next

theorem removeUnack_eq (ar : SeqArith) (s : Rdt) (seq : Nat) :
    removeUnack ar s seq =
      { s with
        sendWndBase := baseAfterAck ar s.unackList s.sendWndBase seq
        unackList := s.unackList.erase seq } := by
  unfold removeUnack baseAfterAck
  cases hfind : findUnack s.unackList seq with
  | nil =>
    have hnot := findUnack_eq_nil.mp hfind
    simp only [List.erase_of_not_mem hnot]
  | cons unack next =>
    simp only [findUnack_head hfind]

theorem clearBlame_eq (s : Rdt) (seq : Nat) :
    ∃ blame retry,
      clearBlame s seq = { s with blamePacketForExpire := blame, resendRetry := retry } := by
  unfold clearBlame
  split
  · exact ⟨0, 0, rfl⟩
  · exact ⟨s.blamePacketForExpire, s.resendRetry, rfl⟩

theorem recvAck_ignored {ar : SeqArith} {s : Rdt} {ack : Nat}
    (h : ackAccepted s ack = false) : recvAck ar s ack = s := by
  unfold recvAck
  split
  · rfl
  · rename_i hge
    split
    · rfl
    · rename_i position hpos
      simp [ackAccepted, hge, hpos] at h

/-- An accepted ACK takes its packet out of `flight_send_queue` and its
number out of `unack_list`, and moves the base. -/
theorem recvAck_accepted (ar : SeqArith) {s : Rdt} {ack : Nat}
    (h : ackAccepted s ack = true) :
    ∃ blame retry, recvAck ar s ack =
      { removeUnack ar s ack with
        blamePacketForExpire := blame
        resendRetry := retry
        flightSendQueue := s.flightSendQueue.eraseP (·.seq == ack) } := by
  unfold ackAccepted at h
  rw [Bool.and_eq_true, Bool.not_eq_true', decide_eq_false_iff_not] at h
  obtain ⟨hge, hsome⟩ := h
  obtain ⟨position, hpos⟩ := Option.isSome_iff_exists.mp hsome
  obtain ⟨blame, retry, hclear⟩ := clearBlame_eq s ack
  refine ⟨blame, retry, ?_⟩
  unfold recvAck
  rw [if_neg hge]
  simp only [hpos, findPacket_seq hpos]
  rw [hclear, removeUnack_eq, removeUnack_eq]

/-! ## Receiving data -/

/-- `s'` is `s` but for the receive window, queue and buffer. -/
def OnlyRecvSide (s s' : Rdt) : Prop :=
  ∃ base queue buffer,
    s' = { s with recvWndBase := base, recvQueue := queue, recvBuffer := buffer }

theorem OnlyRecvSide.refl (s : Rdt) : OnlyRecvSide s s :=
  ⟨s.recvWndBase, s.recvQueue, s.recvBuffer, rfl⟩

theorem OnlyRecvSide.trans {s s' s'' : Rdt} (h : OnlyRecvSide s s')
    (h' : OnlyRecvSide s' s'') : OnlyRecvSide s s'' := by
  obtain ⟨b, q, r, rfl⟩ := h
  obtain ⟨b', q', r', rfl⟩ := h'
  exact ⟨b', q', r', rfl⟩

theorem pushToRecvBuff_fst (s : Rdt) (p : Packet) :
    ∃ buffer, (pushToRecvBuff s p).1 = { s with recvBuffer := buffer } := by
  unfold pushToRecvBuff
  split
  · exact ⟨s.recvBuffer, rfl⟩
  · exact ⟨_, rfl⟩

theorem onlyRecvSide_push (s : Rdt) (p : Packet) : OnlyRecvSide s (pushToRecvBuff s p).1 := by
  obtain ⟨buffer, h⟩ := pushToRecvBuff_fst s p
  rw [h]
  exact ⟨s.recvWndBase, s.recvQueue, buffer, rfl⟩

theorem onlyRecvSide_drain (ar : SeqArith) (queue : List Packet) (s : Rdt) :
    OnlyRecvSide s (drain ar queue s).rdt := by
  induction queue generalizing s with
  | nil => exact .refl s
  | cons p rest ih =>
    unfold drain
    split
    · obtain ⟨buffer, hpush⟩ := pushToRecvBuff_fst s p
      refine .trans ?_ (ih _)
      rw [hpush]
      exact ⟨_, _, _, rfl⟩
    · exact .refl s

/-- `push_to_recv_buff` writes what fits. -/
theorem pushToRecvBuff_snd (s : Rdt) (p : Packet) :
    (pushToRecvBuff s p).2 = min p.len (ringbuffFreeSize s.recvBuffer) := by
  unfold pushToRecvBuff
  split
  · rename_i hfull
    rw [← hfull, Nat.min_zero]
  · exact ringbuffWrite_count _ _

/-- Before the wrap-around the drain loop takes consecutive packets off
the head of the queue, until the queue is empty or its head is not the
base. -/
theorem drain_split {queue : List Packet} {s : Rdt} (hqueue : s.recvQueue = queue) :
    ∃ taken rest, queue = taken ++ rest ∧
      (drain .unbounded queue s).pushes.map Prod.fst = taken ∧
      taken.map Packet.seq = List.range' s.recvWndBase taken.length ∧
      (drain .unbounded queue s).rdt.recvWndBase = s.recvWndBase + taken.length ∧
      (drain .unbounded queue s).rdt.recvQueue = rest ∧
      ∀ r ∈ rest.head?, r.seq ≠ s.recvWndBase + taken.length := by
  induction queue generalizing s with
  | nil => exact ⟨[], [], rfl, rfl, rfl, rfl, hqueue, by simp⟩
  | cons p rest ih =>
    unfold drain
    split
    · rename_i hseq
      obtain ⟨buffer, hpush⟩ := pushToRecvBuff_fst s p
      simp only [hpush]
      obtain ⟨taken, left, hsplit, hpushes, hrange, hbase, hleft, hstop⟩ :=
        ih (s := { s with recvBuffer := buffer, recvWndBase := s.recvWndBase + 1,
                          recvQueue := rest }) rfl
      refine ⟨p :: taken, left, by rw [hsplit]; rfl, ?_, ?_, ?_, hleft, ?_⟩
      · rw [List.map_cons]
        exact congrArg (p :: ·) hpushes
      · rw [List.map_cons, List.length_cons, List.range'_succ, hseq, hrange]
      · rw [List.length_cons]
        refine hbase.trans ?_
        simp only
        omega
      · intro r hr
        have := hstop r hr
        simp only [List.length_cons] at this ⊢
        omega
    · rename_i hseq
      exact ⟨[], p :: rest, rfl, rfl, rfl, rfl, hqueue, by simpa using hseq⟩

/-- The drain loop pushes packets of the queue only, and it is left with
the queue empty. -/
theorem drain_pushes_mem {ar : SeqArith} {queue : List Packet} {s : Rdt} {e : Packet × Nat}
    (he : e ∈ (drain ar queue s).pushes) : e.1 ∈ queue := by
  induction queue generalizing s with
  | nil => exact absurd he List.not_mem_nil
  | cons p rest ih =>
    unfold drain at he
    split at he
    · rcases List.mem_cons.mp he with rfl | he
      · exact List.mem_cons_self
      · exact List.mem_cons_of_mem _ (ih he)
    · exact absurd he List.not_mem_nil

theorem drain_queue_suffix {ar : SeqArith} {queue : List Packet} {s : Rdt}
    (hqueue : s.recvQueue = queue) : (drain ar queue s).rdt.recvQueue <:+ queue := by
  induction queue generalizing s with
  | nil =>
    simp only [drain, hqueue, List.suffix_rfl]
  | cons p rest ih =>
    unfold drain
    split
    · exact (ih rfl).trans (List.suffix_cons p rest)
    · simp only [hqueue, List.suffix_rfl]

theorem drain_returned {ar : SeqArith} {queue : List Packet} {s : Rdt}
    (hqueue : s.recvQueue = queue) (h : (drain ar queue s).returned = true) :
    (drain ar queue s).rdt.recvQueue = [] := by
  induction queue generalizing s with
  | nil => exact hqueue
  | cons p rest ih =>
    unfold drain at h ⊢
    split
    · rename_i hseq
      rw [if_pos hseq] at h
      exact ih rfl h
    · rename_i hseq
      rw [if_neg hseq] at h
      exact nomatch h

section RecvWindow

variable {ar : SeqArith} {s : Rdt} {seq : Nat}

theorem recvWindow_eq_first : recvWindow ar s seq = .first ↔ s.recvWndBase = 0 := by
  unfold recvWindow
  generalize ar.add s.recvWndBase s.wndSize = edge
  split_ifs <;> simp only [true_iff, false_iff] <;> omega

theorem recvWindow_eq_discard :
    recvWindow ar s seq = .discard ↔
      s.recvWndBase ≠ 0 ∧ (seq < s.recvWndBase ∨ ar.add s.recvWndBase s.wndSize < seq) := by
  unfold recvWindow
  generalize ar.add s.recvWndBase s.wndSize = edge
  split_ifs <;> simp only [true_iff, false_iff] <;> omega

theorem recvWindow_eq_inOrder :
    recvWindow ar s seq = .inOrder ↔
      s.recvWndBase ≠ 0 ∧ seq = s.recvWndBase ∧ seq ≤ ar.add s.recvWndBase s.wndSize := by
  unfold recvWindow
  generalize ar.add s.recvWndBase s.wndSize = edge
  split_ifs <;> simp only [true_iff, false_iff] <;> omega

theorem recvWindow_eq_ahead :
    recvWindow ar s seq = .ahead ↔
      s.recvWndBase ≠ 0 ∧ s.recvWndBase < seq ∧ seq ≤ ar.add s.recvWndBase s.wndSize := by
  unfold recvWindow
  generalize ar.add s.recvWndBase s.wndSize = edge
  split_ifs <;> simp only [true_iff, false_iff] <;> omega

end RecvWindow

/-! ## The handling of a SEND packet, by the window it falls in -/

section RecvSend

variable {ar : SeqArith} {now : Nat} {s : Rdt} {p : Packet}

theorem recvSend_first (h : recvWindow ar s p.seq = .first) :
    ∃ buffer, recvSend ar now s p =
      { rdt := { queueAck ar now s p.seq with
                  recvWndBase := ar.add p.seq 1, recvBuffer := buffer }
        pushes := [(p, min p.len (ringbuffFreeSize s.recvBuffer))]
        returned := true } := by
  have hwnd : recvWindow ar (queueAck ar now s p.seq) p.seq = .first := h
  obtain ⟨buffer, hpush⟩ :=
    pushToRecvBuff_fst { queueAck ar now s p.seq with recvWndBase := ar.add p.seq 1 } p
  refine ⟨buffer, ?_⟩
  unfold recvSend
  dsimp only
  rw [hwnd]
  simp only [hpush, pushToRecvBuff_snd]
  rfl

theorem recvSend_discard (h : recvWindow ar s p.seq = .discard) :
    recvSend ar now s p =
      { rdt := queueAck ar now s p.seq, pushes := [], returned := true } := by
  have hwnd : recvWindow ar (queueAck ar now s p.seq) p.seq = .discard := h
  unfold recvSend
  dsimp only
  rw [hwnd]

/-- In order: the packet is pushed, and the queue drained. -/
theorem recvSend_inOrder (h : recvWindow ar s p.seq = .inOrder) :
    ∃ s', OnlyRecvSide (queueAck ar now s p.seq) s' ∧ s'.recvQueue = s.recvQueue ∧
      s'.recvWndBase = ar.add s.recvWndBase 1 ∧
      recvSend ar now s p =
        { rdt := (drain ar s.recvQueue s').rdt
          pushes := (p, min p.len (ringbuffFreeSize s.recvBuffer))
            :: (drain ar s.recvQueue s').pushes
          returned := (drain ar s.recvQueue s').returned } := by
  have hwnd : recvWindow ar (queueAck ar now s p.seq) p.seq = .inOrder := h
  obtain ⟨buffer, hpush⟩ := pushToRecvBuff_fst (queueAck ar now s p.seq) p
  refine ⟨{ queueAck ar now s p.seq with
              recvWndBase := ar.add s.recvWndBase 1, recvBuffer := buffer },
    ⟨_, _, _, rfl⟩, rfl, rfl, ?_⟩
  unfold recvSend
  dsimp only
  rw [hwnd]
  simp only [hpush, pushToRecvBuff_snd]
  rfl

theorem recvSend_ahead (h : recvWindow ar s p.seq = .ahead) :
    recvSend ar now s p =
      { rdt := { queueAck ar now s p.seq with
                  recvQueue := seqInsertToList Packet.seq p s.recvQueue }
        pushes := []
        returned := true } := by
  have hwnd : recvWindow ar (queueAck ar now s p.seq) p.seq = .ahead := h
  unfold recvSend
  dsimp only
  rw [hwnd]
  rfl

end RecvSend

/-- Handling a SEND packet queues its ACK and otherwise stays on the
receive side. -/
theorem onlyRecvSide_recvSend (ar : SeqArith) (now : Nat) (s : Rdt) (p : Packet) :
    OnlyRecvSide (queueAck ar now s p.seq) (recvSend ar now s p).rdt := by
  cases h : recvWindow ar s p.seq with
  | first =>
    obtain ⟨buffer, heq⟩ := recvSend_first h
    rw [heq]
    exact ⟨_, _, _, rfl⟩
  | discard =>
    rw [recvSend_discard h]
    exact .refl _
  | inOrder =>
    obtain ⟨s', hside, -, -, heq⟩ := recvSend_inOrder h
    rw [heq]
    exact .trans hside (onlyRecvSide_drain ar _ _)
  | ahead =>
    rw [recvSend_ahead h]
    exact ⟨_, _, _, rfl⟩

/-- What is pushed is the packet itself or comes off the queue. -/
theorem mem_pushes_recvSend {ar : SeqArith} {now : Nat} {s : Rdt} {p : Packet}
    {e : Packet × Nat} (he : e ∈ (recvSend ar now s p).pushes) :
    e.1 = p ∨ e.1 ∈ s.recvQueue := by
  cases h : recvWindow ar s p.seq with
  | first =>
    obtain ⟨buffer, heq⟩ := recvSend_first h
    rw [heq] at he
    exact Or.inl (by rw [List.mem_singleton.mp he])
  | discard =>
    rw [recvSend_discard h] at he
    exact absurd he List.not_mem_nil
  | inOrder =>
    obtain ⟨s', -, -, -, heq⟩ := recvSend_inOrder h
    rw [heq] at he
    rcases List.mem_cons.mp he with rfl | he
    · exact Or.inl rfl
    · exact Or.inr (drain_pushes_mem he)
  | ahead =>
    rw [recvSend_ahead h] at he
    exact absurd he List.not_mem_nil

end Training.Udp
