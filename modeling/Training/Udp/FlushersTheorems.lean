/-
Training.Udp.FlushersTheorems — the order of packets made by two flushers.

Reading a chunk and numbering it are two steps, and the other thread can
read and number the next chunk between them. The payloads in the order of
their numbers are the bytes in the order they were written in every run
in which this does not happen (`inOrder_of_numberedInTurn`): each time a
number is taken, it is for the oldest chunk that has none, and the
counter has not come back below a number it gave.

What carries the induction is that a thread between `ringbuff_read` and
`get_and_update_seq` holds exactly the chunk it read (`Inv.chunk`): the
oldest chunk held is then the payload of the packet that is made.
-/
import Training.Udp.StreamTheorems
import Training.Udp.Flushers

namespace Training.Udp

open Training.Lib

/-! ## One thread by itself -/

@[simp] theorem flusher_setFlusher (n : Flushers) (t : Flushing) (f : Flusher) :
    (n.setFlusher t f).flusher t = f := by
  cases t <;> rfl

theorem flusher_setFlusher_ne (n : Flushers) {t u : Flushing} (f : Flusher) (h : u ≠ t) :
    (n.setFlusher t f).flusher u = n.flusher u := by
  cases t <;> cases u <;> first | rfl | exact absurd rfl h

@[simp] theorem peer_setFlusher (n : Flushers) (t : Flushing) (f : Flusher) :
    (n.setFlusher t f).peer = n.peer := by
  cases t <;> rfl

@[simp] theorem held_setFlusher (n : Flushers) (t : Flushing) (f : Flusher) :
    (n.setFlusher t f).held = n.held := by
  cases t <;> rfl

@[simp] theorem removed_setFlusher (n : Flushers) (t : Flushing) (f : Flusher) :
    (n.setFlusher t f).removed = n.removed := by
  cases t <;> rfl

section Flush

variable {n : Flushers} {t : Flushing} (now : Nat)

theorem flush_test (h : n.flusher t = .test) :
    n.flush t now = n.setFlusher t (if windowFull .uInt32 n.peer.rdt then .out else .read) := by
  simp only [Flushers.flush, h]
  split <;> rfl

/-- Up to `mtu` bytes come off `send_buffer`. -/
theorem flush_read (h : n.flusher t = .read) :
    n.flush t now =
      let tmp := n.peer.rdt.sendBuffer.contents.take n.peer.rdt.mtu
      let n := n.setRdt { n.peer.rdt with
        sendBuffer := (ringbuffRead n.peer.rdt.sendBuffer n.peer.rdt.mtu).1 }
      if 0 < tmp.length then
        { n with removed := n.removed ++ tmp, held := n.held ++ [(t, tmp)] }.setFlusher t
          (.stamp tmp)
      else n.setFlusher t .out := by
  simp only [Flushers.flush, h]
  rw [ringbuffRead_bytes]

theorem flush_stamp {tmp : List UInt8} (h : n.flusher t = .stamp tmp) :
    n.flush t now =
      (n.setRdt { n.peer.rdt with current := now }).setFlusher t (.number tmp now) := by
  simp only [Flushers.flush, h]
  rfl

theorem flush_number {tmp : List UInt8} {ts : Nat} (h : n.flusher t = .number tmp ts) :
    n.flush t now =
      let packet := nextPacket n.peer.rdt ts tmp
      { n with
        peer := { n.peer with
          rdt := { n.peer.rdt with
            currentSendSeq := SeqArith.uInt32.nextSeq n.peer.rdt.currentSendSeq }
          made := n.peer.made ++ [packet] }
        held := n.held.filter (·.1 ≠ t) }.setFlusher t (.insert packet) := by
  simp only [Flushers.flush, h]
  rfl

theorem flush_insert {packet : Packet} (h : n.flusher t = .insert packet) :
    n.flush t now =
      (n.setRdt { n.peer.rdt with sendQueue := packet :: n.peer.rdt.sendQueue }).setFlusher t
        .test := by
  simp only [Flushers.flush, h]

/-- One iteration of the loop of `flush_buffer` is the steps of its
thread from the window test on, with no other step between. -/
theorem iteration_alone (h : n.flusher t = .test) :
    ∃ k, ((fun n => n.flush t now)^[k] n).peer = n.peer.flushBuffer .uInt32 now ∧
      ((fun n => n.flush t now)^[k] n).flusher t =
        match (flushBufferIter .uInt32 now n.peer.rdt).2 with
        | .made _ => .test
        | _ => .out := by
  have htest := flush_test now h
  cases hfull : windowFull .uInt32 n.peer.rdt with
  | true =>
    rw [hfull, if_pos rfl] at htest
    refine ⟨1, ?_⟩
    simp [htest, Peer.flushBuffer, flushBufferIter_windowFull hfull]
  | false =>
    rw [hfull, if_neg Bool.false_ne_true] at htest
    have hread := flush_read now (flusher_setFlusher n t .read)
    simp only [Peer.flushBuffer, flushBufferIter_open hfull]
    by_cases hdata : 0 < (n.peer.rdt.sendBuffer.contents.take n.peer.rdt.mtu).length
    · simp only [peer_setFlusher, if_pos hdata] at hread
      refine ⟨5, ?_⟩
      simp only [Function.iterate_succ, Function.comp_apply, Function.iterate_zero, id, htest,
        hread, flush_stamp now (flusher_setFlusher _ _ _),
        flush_number now (flusher_setFlusher _ _ _), flush_insert now (flusher_setFlusher _ _ _),
        if_pos hdata, flusher_setFlusher, and_true, peer_setFlusher]
      simp only [Flushers.setRdt, peer_setFlusher, nextPacket]
    · simp only [peer_setFlusher, if_neg hdata] at hread
      refine ⟨2, ?_⟩
      simp only [Function.iterate_succ, Function.comp_apply, Function.iterate_zero, id, htest,
        hread, if_neg hdata, flusher_setFlusher, and_true, peer_setFlusher]
      simp only [Flushers.setRdt, peer_setFlusher]

end Flush

/-! ## What a thread holds -/

/-- The chunk a thread has read and not numbered. -/
def Flusher.chunk : Flusher → Option (List UInt8)
  | .stamp tmp => some tmp
  | .number tmp _ => some tmp
  | _ => none

structure Flushers.Inv (n : Flushers) : Prop where
  increasing : n.peer.made.Pairwise fun p q => p.seq < q.seq
  packets : n.peer.made.flatMap Packet.data ++ n.held.flatMap (·.2) = n.removed
  removed : n.removed ++ n.peer.rdt.sendBuffer.contents = n.peer.accepted
  chunk : ∀ t, n.held.filter (·.1 = t) = (n.flusher t).chunk.toList.map (t, ·)

theorem bySeq_of_increasing {packets : List Packet}
    (h : packets.Pairwise fun p q => p.seq < q.seq) : bySeq packets = packets := by
  refine List.mergeSort_of_pairwise (h.imp ?_)
  intro p q hpq
  simpa using Nat.le_of_lt hpq

theorem Flushers.Inv.inOrder {n : Flushers} (h : n.Inv) : n.InOrder where
  packets := by rw [bySeq_of_increasing h.increasing, h.packets]
  removed := h.removed

theorem inv_init (cfg : Config) (seq0 : Nat) : (Flushers.init cfg seq0).Inv where
  increasing := List.Pairwise.nil
  packets := rfl
  removed := by simp [Flushers.init, Peer.init, createRdt]
  chunk t := by cases t <;> rfl

/-- A step that only moves a thread that holds nothing. -/
theorem Flushers.Inv.setFlusher {n : Flushers} (h : n.Inv) {t : Flushing} {f : Flusher}
    (hf : f.chunk = (n.flusher t).chunk) : (n.setFlusher t f).Inv where
  increasing := by simpa using h.increasing
  packets := by simpa using h.packets
  removed := by simpa using h.removed
  chunk u := by
    by_cases hu : u = t
    · subst hu
      rw [held_setFlusher, flusher_setFlusher, hf]
      exact h.chunk u
    · rw [held_setFlusher, flusher_setFlusher_ne n f hu]
      exact h.chunk u

/-- A change of the record that leaves `send_buffer` alone. -/
theorem Flushers.Inv.setRdt {n : Flushers} (h : n.Inv) (rdt : Rdt)
    (hbuffer : rdt.sendBuffer = n.peer.rdt.sendBuffer) : (n.setRdt rdt).Inv where
  increasing := h.increasing
  packets := h.packets
  removed := by
    simp only [Flushers.setRdt, hbuffer]
    exact h.removed
  chunk t := by cases t <;> exact h.chunk _

/-! ## The steps -/

/-- A chunk read is the newest one held. -/
theorem inv_read {n : Flushers} (h : n.Inv) {t : Flushing} (now : Nat)
    (ht : n.flusher t = .read) : (n.flush t now).Inv := by
  rw [flush_read now ht]
  dsimp only
  have hsplit := List.take_append_drop n.peer.rdt.mtu n.peer.rdt.sendBuffer.contents
  split_ifs with hdata
  · refine ⟨?_, ?_, ?_, ?_⟩
    · simpa [Flushers.setRdt] using h.increasing
    · simp only [peer_setFlusher, held_setFlusher, removed_setFlusher, Flushers.setRdt]
      rw [List.flatMap_append, List.flatMap_singleton, ← List.append_assoc, h.packets]
    · simp only [peer_setFlusher, removed_setFlusher, Flushers.setRdt, contents_ringbuffRead]
      rw [List.append_assoc, hsplit, h.removed]
    · intro u
      have hchunk := h.chunk u
      by_cases hu : u = t
      · subst hu
        rw [ht] at hchunk
        simp only [held_setFlusher, flusher_setFlusher, List.filter_append, Flushers.setRdt]
        rw [hchunk]
        simp [Flusher.chunk]
      · rw [held_setFlusher, flusher_setFlusher_ne _ _ hu]
        simp only [List.filter_append, Flushers.setRdt]
        rw [hchunk]
        have hne : ¬ t = u := fun h => hu h.symm
        cases u <;> simp [hne, Flushers.flusher]
  · have hnil : n.peer.rdt.sendBuffer.contents.take n.peer.rdt.mtu = [] :=
      List.eq_nil_of_length_eq_zero (by omega)
    rw [hnil, List.nil_append] at hsplit
    have hrdt : (n.setRdt { n.peer.rdt with
        sendBuffer := (ringbuffRead n.peer.rdt.sendBuffer n.peer.rdt.mtu).1 }).Inv :=
      { increasing := h.increasing
        packets := h.packets
        removed := by
          simp only [Flushers.setRdt, contents_ringbuffRead, hsplit]
          exact h.removed
        chunk := fun u => by cases u <;> exact h.chunk _ }
    refine hrdt.setFlusher ?_
    cases t <;> simp_all [Flushers.setRdt, Flushers.flusher, Flusher.chunk]

/-- The packet made carries the oldest chunk held, and its number is the
greatest. -/
theorem inv_number {n : Flushers} (h : n.Inv) {t : Flushing} {tmp : List UInt8} {ts : Nat}
    (now : Nat) (ht : n.flusher t = .number tmp ts)
    (hturn : n.held.head?.map Prod.fst = some t)
    (hseq : ∀ p ∈ n.peer.made, p.seq < n.peer.rdt.currentSendSeq) : (n.flush t now).Inv := by
  rw [flush_number now ht]
  dsimp only
  have hchunk := h.chunk t
  rw [ht] at hchunk
  obtain ⟨⟨u, old⟩, rest, hheld⟩ : ∃ e rest, n.held = e :: rest := by
    cases hn : n.held with
    | nil => rw [hn] at hturn; exact nomatch hturn
    | cons e rest => exact ⟨e, rest, rfl⟩
  obtain rfl : u = t := by simpa [hheld] using hturn
  rw [hheld, List.filter_cons_of_pos (by simp)] at hchunk
  obtain ⟨hold, hrest⟩ := List.cons.inj hchunk
  obtain rfl : old = tmp := congrArg Prod.snd hold
  -- no other chunk is this thread's
  have hothers : (n.held.filter (·.1 ≠ u)) = rest := by
    rw [hheld, List.filter_cons_of_neg (by simp), List.filter_eq_self]
    intro e he
    have := List.filter_eq_nil_iff.mp hrest e he
    simpa using this
  refine ⟨?_, ?_, ?_, ?_⟩
  · simp only [peer_setFlusher]
    refine List.pairwise_append.mpr ⟨h.increasing, List.pairwise_singleton _ _, ?_⟩
    intro p hp q hq
    rw [List.mem_singleton.mp hq]
    exact hseq p hp
  · simp only [peer_setFlusher, held_setFlusher, removed_setFlusher]
    rw [hothers, ← h.packets, hheld]
    simp [nextPacket]
  · simpa using h.removed
  · intro v
    rw [held_setFlusher]
    by_cases hv : v = u
    · subst hv
      rw [flusher_setFlusher, List.filter_filter]
      simp [Flusher.chunk]
    · rw [flusher_setFlusher_ne _ _ hv, List.filter_filter]
      have hfilter : (n.held.filter fun e => decide (e.1 = v) && decide (e.1 ≠ u))
          = n.held.filter (·.1 = v) := by
        refine List.filter_congr fun e _ => ?_
        by_cases he : e.1 = v
        · simp [he, hv]
        · simp [he]
      rw [hfilter, h.chunk v]
      cases v <;> rfl

/-- The steps of a thread inside `flush_buffer`. -/
theorem inv_flush {n : Flushers} (h : n.Inv) (t : Flushing) (now : Nat)
    (hturn : ∀ tmp ts, n.flusher t = .number tmp ts →
      n.held.head?.map Prod.fst = some t ∧
        ∀ p ∈ n.peer.made, p.seq < n.peer.rdt.currentSendSeq) :
    (n.flush t now).Inv := by
  cases ht : n.flusher t with
  | out =>
    simp only [Flushers.flush, ht]
    exact h
  | test =>
    rw [flush_test now ht]
    refine h.setFlusher ?_
    rw [ht]
    split <;> rfl
  | read => exact inv_read h now ht
  | stamp tmp =>
    rw [flush_stamp now ht]
    have hrdt := h.setRdt { n.peer.rdt with current := now } rfl
    refine hrdt.setFlusher ?_
    have : (n.setRdt { n.peer.rdt with current := now }).flusher t = n.flusher t := by
      cases t <;> rfl
    rw [this, ht]
    rfl
  | number tmp ts =>
    obtain ⟨hhead, hseq⟩ := hturn tmp ts ht
    exact inv_number h now ht hhead hseq
  | insert packet =>
    rw [flush_insert now ht]
    have hrdt := h.setRdt { n.peer.rdt with sendQueue := packet :: n.peer.rdt.sendQueue } rfl
    refine hrdt.setFlusher ?_
    have : (n.setRdt { n.peer.rdt with
        sendQueue := packet :: n.peer.rdt.sendQueue }).flusher t = n.flusher t := by
      cases t <;> rfl
    rw [this, ht]
    rfl

/-- `rdt_send` writes when it is out of `flush_buffer`. -/
theorem inv_stepApp {n : Flushers} (h : n.Inv) (now : Nat)
    (hturn : ∀ tmp ts, n.app = .number tmp ts →
      n.held.head?.map Prod.fst = some .app ∧
        ∀ p ∈ n.peer.made, p.seq < n.peer.rdt.currentSendSeq) :
    (n.stepApp now).Inv := by
  unfold Flushers.stepApp
  split
  · exact h
  · rename_i call hout hcall
    split
    · refine h.setFlusher ?_
      simp [Flushers.flusher, hout, Flusher.chunk]
    · exact
        { increasing := h.increasing
          packets := h.packets
          removed := by
            simp only
            rw [contents_ringbuffWrite, ← List.append_assoc, h.removed]
          chunk := fun t => by cases t <;> exact h.chunk _ }
  · exact inv_flush h .app now hturn

theorem inv_stepWorker {n : Flushers} (h : n.Inv) (now : Nat)
    (hturn : ∀ tmp ts, n.worker = .number tmp ts →
      n.held.head?.map Prod.fst = some .worker ∧
        ∀ p ∈ n.peer.made, p.seq < n.peer.rdt.currentSendSeq) :
    (n.stepWorker now).Inv := by
  unfold Flushers.stepWorker
  split
  · rename_i hout
    refine h.setFlusher ?_
    simp [Flushers.flusher, hout, Flusher.chunk]
  · exact inv_flush h .worker now hturn

/-- What the other threads do leaves the packets made and `send_buffer`
alone. -/
theorem elsewhere_frame (n : Peer) (e : Elsewhere) :
    (n.step .uInt32 e.act).made = n.made ∧ (n.step .uInt32 e.act).accepted = n.accepted ∧
      (n.step .uInt32 e.act).rdt.sendBuffer = n.rdt.sendBuffer := by
  cases e with
  | flushQueue =>
    rw [Elsewhere.act, Peer.step_op]
    split
    · exact ⟨rfl, rfl, rfl⟩
    · rcases n.flushQueue_cases with ⟨-, h⟩ | ⟨rest, packet, -, h⟩
      · simp [Peer.stepOp, h]
      · rw [Peer.stepOp, h]
        dsimp only
        split_ifs <;> exact ⟨rfl, rfl, rfl⟩
  | resend place now =>
    rw [Elsewhere.act, Peer.step_op]
    split
    · exact ⟨rfl, rfl, rfl⟩
    · rcases n.resend_cases place now with h | ⟨position, blame, retry, exited, -, h⟩
      · simp [Peer.stepOp, h]
      · simp [Peer.stepOp, h]
  | rdtRecv len =>
    rw [Elsewhere.act, Peer.step_op]
    split <;> exact ⟨rfl, rfl, rfl⟩
  | recv p now =>
    rw [Elsewhere.act, Peer.step_recv]
    split_ifs
    · exact ⟨rfl, rfl, rfl⟩
    · exact ⟨rfl, rfl, rfl⟩
    · exact ⟨rfl, rfl, (sendSide_recvPacket .uInt32 now n.rdt p).1⟩

theorem inv_elsewhere {n : Flushers} (h : n.Inv) (e : Elsewhere) :
    Flushers.Inv { n with peer := n.peer.step .uInt32 e.act } := by
  obtain ⟨hmade, haccepted, hbuffer⟩ := elsewhere_frame n.peer e
  refine ⟨?_, ?_, ?_, fun t => ?_⟩
  · simpa only [hmade] using h.increasing
  · simpa only [hmade] using h.packets
  · simpa only [hbuffer, haccepted] using h.removed
  · cases t <;> exact h.chunk _

theorem inv_step {n : Flushers} (h : n.Inv) {a : FlushAct} (ha : NumberedInTurn n a) :
    (n.step a).Inv := by
  unfold Flushers.step
  split
  · exact h
  · cases a with
    | call buff len =>
      simp only
      split
      · exact h
      · exact { increasing := h.increasing, packets := h.packets, removed := h.removed,
                chunk := fun t => by cases t <;> exact h.chunk _ }
    | app now =>
      refine inv_stepApp h now fun tmp ts happ => ha .app ?_
      simp [Flushers.numbering, happ]
    | worker now =>
      refine inv_stepWorker h now fun tmp ts hworker => ha .worker ?_
      simp [Flushers.numbering, hworker]
    | elsewhere e => exact inv_elsewhere h e

/-! ## Runs -/

/-- Along every run in which each number goes to the oldest chunk without
one, and is greater than the numbers before, the packets carry the bytes
in the order they were written. -/
theorem inOrder_of_numberedInTurn (cfg : Config) (seq0 : Nat) (acts : List FlushAct)
    (h : Along Flushers.step NumberedInTurn (Flushers.init cfg seq0) acts) :
    Throughout Flushers.step Flushers.InOrder (Flushers.init cfg seq0) acts :=
  throughout_of_step (fun _ _ hn ha => inv_step hn ha) (fun _ hn => hn.inOrder) h
    (inv_init cfg seq0)

/-- `rdt_send` of one byte. -/
def sendByte (b : UInt8) : List FlushAct := [.call (fun _ => b) 1, .app 0]

/-- The worker on its way from outside `flush_buffer` to a packet in
`send_queue`, and an `rdt_send` on the way. -/
def takingTurns : List FlushAct :=
  sendByte 1 ++ [.worker 0, .worker 0, .worker 0] ++ sendByte 2 ++
    [.worker 0, .worker 0, .worker 0, .worker 0, .worker 0, .worker 0, .worker 0]

theorem inOrder_takingTurns :
    Along Flushers.step NumberedInTurn (Flushers.init protocolConfig 5) takingTurns ∧
      (Flushers.after protocolConfig 5 takingTurns).peer.made.map (fun p => (p.seq, p.data))
        = [(5, [1]), (6, [2])] ∧
      Throughout Flushers.step Flushers.InOrder (Flushers.init protocolConfig 5) takingTurns := by
  have halong : Along Flushers.step NumberedInTurn (Flushers.init protocolConfig 5)
      takingTurns := by decide +kernel
  exact ⟨halong, by decide +kernel, inOrder_of_numberedInTurn protocolConfig 5 _ halong⟩

/-- The worker reads a chunk; the application, waiting for the whole of
`send_buffer`, reads the next one and numbers it; the worker numbers its
own. -/
def overtaking : List FlushAct :=
  sendByte 1 ++ [.worker 0, .worker 0, .worker 0] ++ sendByte 2 ++
    [.call (fun _ => 0) 4194303, .app 0, .app 0, .app 0, .app 0, .app 0, .app 0,
      .worker 0, .worker 0, .worker 0]

/-- The two bytes went into packets in the other order. -/
theorem overtaking_swaps :
    let n := Flushers.after protocolConfig 5 overtaking
    n.held = [] ∧ n.removed = [1, 2] ∧ n.peer.accepted = [1, 2] ∧
      (bySeq n.peer.made).flatMap Packet.data = [2, 1] ∧ ¬ n.InOrder := by
  have hrun : let n := Flushers.after protocolConfig 5 overtaking
      n.held = [] ∧ n.removed = [1, 2] ∧ n.peer.accepted = [1, 2] ∧
        n.peer.made.flatMap Packet.data = [2, 1] ∧
        n.peer.made.Pairwise fun p q => p.seq < q.seq := by
    decide +kernel
  obtain ⟨hheld, hremoved, haccepted, hdata, hincreasing⟩ := hrun
  have hseq := bySeq_of_increasing hincreasing
  refine ⟨hheld, hremoved, haccepted, by rw [hseq, hdata], ?_⟩
  intro h
  have hpackets := h.packets
  rw [hseq, hdata, hheld, hremoved] at hpackets
  exact absurd hpackets (by decide)

end Training.Udp
