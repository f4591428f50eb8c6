/-
Training.Udp.DrainTheorems — where the drain loop ends.

The loop looks at the head of `recv_queue` until the queue is empty
(`drainLoop`), and a head that is not the base stays where it is. So it
ends exactly when the numbers in the queue are the ones that follow the
packet, each once (`loop_iff_consecutive`). What it takes off the queue is
written as far as `recv_buffer` has room and gone either way
(`drain_run`). So the receiver has delivered what it could exactly when
nothing is missing and everything fits (`drains_iff_gapless`).
-/
import Mathlib.Algebra.Ring.Nat
import Training.Udp.ReceiverTheorems

namespace Training.Udp

open Training.Lib

/-! ## The loop -/

/-- The record after `k` iterations of the loop. -/
def drainLoop (ar : SeqArith) : Nat → Rdt → Rdt
  | 0, s => s
  | k + 1, s => drainLoop ar k (drainIter ar s).1

/-- The record the loop finds after the packet `p` in order. -/
def drainStart (ar : SeqArith) (now : Nat) (s : Rdt) (p : Packet) : Rdt :=
  { (pushToRecvBuff (queueAck ar now s p.seq) p).1 with
    recvWndBase := ar.add s.recvWndBase 1 }

/-- What an in-order packet should do: the loop ends, the packet and
the packets of the queue that follow it are delivered, each with its whole
payload, up to the first number that is not there, which is the new base,
and the others stay. -/
structure Drains (now : Nat) (s : Rdt) (p : Packet) (h : Handled) : Prop where
  ends : ∃ k, (drainLoop .uInt32 k (drainStart .uInt32 now s p)).recvQueue = []
  run : ∃ taken, h.pushes = (p :: taken).map (fun q => (q, q.len)) ∧
    h.rdt.recvBuffer.contents = s.recvBuffer.contents ++ (p :: taken).flatMap Packet.data ∧
    (∀ q ∈ taken, q ∈ s.recvQueue) ∧
    taken.map Packet.seq = (List.range' (p.seq + 1) taken.length).map (· % uInt32Size) ∧
    h.rdt.recvWndBase = (p.seq + 1 + taken.length) % uInt32Size ∧
    h.rdt.recvQueue = s.recvQueue.filter fun q => q.seq ∉ (p :: taken).map Packet.seq
  missing : h.rdt.recvWndBase ∉ s.recvQueue.map Packet.seq

/-- The window test lets the packet at the base through, and the numbers in
the queue are the ones after it, each once. -/
def Rdt.Gapless (s : Rdt) : Prop :=
  (s.recvWndBase = 0 ∨ s.recvWndBase + s.wndSize < uInt32Size) ∧
    s.recvQueue.map Packet.seq = List.range' (s.recvWndBase + 1) s.recvQueue.length

/-- `recv_buffer` has room for `p` and everything that waits for it. -/
def Rdt.RoomFor (s : Rdt) (p : Packet) : Prop :=
  p.len + (s.recvQueue.map Packet.len).sum ≤ ringbuffFreeSize s.recvBuffer

instance (s : Rdt) : Decidable s.Gapless := inferInstanceAs (Decidable (_ ∧ _))

instance (s : Rdt) (p : Packet) : Decidable (s.RoomFor p) :=
  inferInstanceAs (Decidable (_ ≤ _))

/-- The numbers from `base` on, as the code counts. -/
def consecutive (ar : SeqArith) : Nat → Nat → List Nat
  | _, 0 => []
  | base, n + 1 => base :: consecutive ar (ar.add base 1) n

variable {ar : SeqArith} {s : Rdt} {p : Packet} {now : Nat}

theorem drainIter_of_eq {rest : List Packet} (hqueue : s.recvQueue = p :: rest)
    (hseq : p.seq = s.recvWndBase) : ∃ buffer, (drainIter ar s).1 =
      { s with recvBuffer := buffer, recvWndBase := ar.add s.recvWndBase 1, recvQueue := rest } := by
  obtain ⟨buffer, hpush⟩ := pushToRecvBuff_fst s p
  exact ⟨buffer, by simp only [drainIter, hqueue, if_pos hseq, hpush]⟩

theorem drainIter_of_ne {rest : List Packet} (hqueue : s.recvQueue = p :: rest)
    (hseq : p.seq ≠ s.recvWndBase) : (drainIter ar s).1 = s := by
  simp only [drainIter, hqueue, if_neg hseq]

theorem drainLoop_of_fixed (h : (drainIter ar s).1 = s) (k : Nat) : drainLoop ar k s = s := by
  induction k with
  | zero => rfl
  | succ k ih => rw [drainLoop, h, ih]

/-- The loop ends exactly when each packet is at the base when it is looked
at. -/
theorem loop_iff_consecutive {queue : List Packet} (hqueue : s.recvQueue = queue) :
    (∃ k, (drainLoop ar k s).recvQueue = []) ↔
      queue.map Packet.seq = consecutive ar s.recvWndBase queue.length := by
  induction queue generalizing s with
  | nil => exact iff_of_true ⟨0, hqueue⟩ rfl
  | cons p rest ih =>
    by_cases hseq : p.seq = s.recvWndBase
    · obtain ⟨buffer, hiter⟩ := @drainIter_of_eq ar _ _ _ hqueue hseq
      have hrest := ih (s := (drainIter ar s).1) (by rw [hiter])
      rw [List.map_cons, List.length_cons, consecutive, List.cons.injEq, and_iff_right hseq]
      have hbase : (drainIter ar s).1.recvWndBase = ar.add s.recvWndBase 1 := by rw [hiter]
      rw [hbase] at hrest
      rw [← hrest]
      constructor
      · rintro ⟨k, hk⟩
        cases k with
        | zero => simp [drainLoop, hqueue] at hk
        | succ k => exact ⟨k, hk⟩
      · rintro ⟨k, hk⟩
        exact ⟨k + 1, hk⟩
    · -- the head stays, and with it the queue
      refine iff_of_false ?_ fun heq => hseq (List.cons.inj heq).1
      rintro ⟨k, hk⟩
      rw [drainLoop_of_fixed (drainIter_of_ne hqueue hseq), hqueue] at hk
      cases hk

/-! ## What the loop writes -/

/-- What `push_to_recv_buff` writes of these packets, one after the other,
when `recv_buffer` has this much room. -/
def writes : Nat → List Packet → List (Packet × Nat)
  | _, [] => []
  | room, q :: rest => (q, min q.len room) :: writes (room - q.len) rest

theorem map_fst_writes (room : Nat) (packets : List Packet) :
    (writes room packets).map Prod.fst = packets := by
  induction packets generalizing room with
  | nil => rfl
  | cons q rest ih => rw [writes, List.map_cons, ih]

/-- Each payload is written as a whole exactly when they fit together. -/
theorem writes_eq_iff {room : Nat} {packets : List Packet} :
    writes room packets = packets.map (fun q => (q, q.len)) ↔
      (packets.map Packet.len).sum ≤ room := by
  induction packets generalizing room with
  | nil => exact iff_of_true rfl (Nat.zero_le _)
  | cons q rest ih =>
    rw [writes, List.map_cons, List.map_cons, List.sum_cons, List.cons.injEq, ih, Prod.mk.injEq]
    simp only [true_and]
    omega

theorem freeSize_push (s : Rdt) (p : Packet) :
    ringbuffFreeSize (pushToRecvBuff s p).1.recvBuffer =
      ringbuffFreeSize s.recvBuffer - p.len := by
  unfold pushToRecvBuff
  split
  · rename_i hfull
    rw [← hfull, Nat.zero_sub]
  · have hold := dataSize_add_freeSize s.recvBuffer
    have hnew := dataSize_add_freeSize (ringbuffWrite s.recvBuffer p.data).1
    rw [ringbuffWrite_dataSize, ringbuffWrite_count, ringbuffWrite_size] at hnew
    dsimp only [Packet.len]
    omega

theorem contents_push (s : Rdt) (p : Packet) :
    (pushToRecvBuff s p).1.recvBuffer.contents =
      s.recvBuffer.contents ++ p.data.take (ringbuffFreeSize s.recvBuffer) := by
  unfold pushToRecvBuff
  split
  · rename_i hfull
    rw [← hfull, List.take_zero, List.append_nil]
  · dsimp only
    rw [contents_ringbuffWrite, ringbuffWrite_count, Nat.min_comm, ← List.take_take,
      List.take_length]

/-- The loop takes the packets at the front of the queue that come next,
writes what fits of their payloads, and leaves the others. -/
theorem drain_run {queue : List Packet} (hqueue : s.recvQueue = queue) :
    (drain ar queue s).pushes =
        writes (ringbuffFreeSize s.recvBuffer) (readyRun ar s.recvWndBase queue) ∧
      (drain ar queue s).rdt.recvBuffer.contents = s.recvBuffer.contents ++
        ((readyRun ar s.recvWndBase queue).flatMap Packet.data).take
          (ringbuffFreeSize s.recvBuffer) ∧
      queue = readyRun ar s.recvWndBase queue ++ (drain ar queue s).rdt.recvQueue := by
  induction queue generalizing s with
  | nil => exact ⟨rfl, by simp [drain, readyRun], hqueue.symm⟩
  | cons p rest ih =>
    by_cases hseq : p.seq = s.recvWndBase
    · obtain ⟨hpushes, hcontents, hsplit⟩ := ih (s := { (pushToRecvBuff s p).1 with
        recvWndBase := ar.add s.recvWndBase 1, recvQueue := rest }) rfl
      simp only [freeSize_push, contents_push] at hpushes hcontents
      simp only [drain, readyRun, if_pos hseq, pushToRecvBuff_recvWndBase]
      refine ⟨?_, ?_, congrArg (p :: ·) hsplit⟩
      · rw [hpushes, pushToRecvBuff_snd, writes]
      · rw [hcontents, List.append_assoc, List.flatMap_cons, List.take_append]
        rfl
    · simp only [drain, readyRun, if_neg hseq]
      exact ⟨rfl, by simp, hqueue.symm⟩

theorem drainStart_eq (ar : SeqArith) (now : Nat) (s : Rdt) (p : Packet) :
    (drainStart ar now s p).recvQueue = s.recvQueue ∧
      (drainStart ar now s p).recvWndBase = ar.add s.recvWndBase 1 := by
  obtain ⟨buffer, hpush⟩ := pushToRecvBuff_fst (queueAck ar now s p.seq) p
  unfold drainStart
  rw [hpush]
  exact ⟨rfl, rfl⟩

/-- The first packet is written as far as there is room. -/
theorem recvSend_first_run (hwindow : recvWindow ar s p.seq = .first) :
    (recvSend ar now s p).pushes = writes (ringbuffFreeSize s.recvBuffer) [p] ∧
      (recvSend ar now s p).rdt.recvBuffer.contents =
        s.recvBuffer.contents ++ p.data.take (ringbuffFreeSize s.recvBuffer) := by
  have hacked : recvWindow ar (queueAck ar now s p.seq) p.seq = .first := hwindow
  unfold recvSend
  dsimp only
  rw [hacked]
  dsimp only
  rw [contents_push, pushToRecvBuff_snd]
  exact ⟨rfl, rfl⟩

/-- The packet in order is written, and then the loop runs. -/
theorem recvSend_inOrder_run (hwindow : recvWindow ar s p.seq = .inOrder) :
    (recvSend ar now s p).pushes = writes (ringbuffFreeSize s.recvBuffer)
        (p :: readyRun ar (ar.add s.recvWndBase 1) s.recvQueue) ∧
      (recvSend ar now s p).rdt.recvBuffer.contents = s.recvBuffer.contents ++
        ((p :: readyRun ar (ar.add s.recvWndBase 1) s.recvQueue).flatMap Packet.data).take
          (ringbuffFreeSize s.recvBuffer) ∧
      s.recvQueue = readyRun ar (ar.add s.recvWndBase 1) s.recvQueue ++
        (recvSend ar now s p).rdt.recvQueue := by
  have hacked : recvWindow ar (queueAck ar now s p.seq) p.seq = .inOrder := hwindow
  obtain ⟨hqueue, hbase⟩ := drainStart_eq ar now s p
  obtain ⟨hpushes, hcontents, hsplit⟩ := @drain_run ar _ _ hqueue
  have hroom : ringbuffFreeSize (drainStart ar now s p).recvBuffer =
      ringbuffFreeSize s.recvBuffer - p.len := freeSize_push (queueAck ar now s p.seq) p
  have hfirst : (drainStart ar now s p).recvBuffer.contents =
      s.recvBuffer.contents ++ p.data.take (ringbuffFreeSize s.recvBuffer) :=
    contents_push (queueAck ar now s p.seq) p
  have heq : recvSend ar now s p =
      { drain ar s.recvQueue (drainStart ar now s p) with
        pushes := (p, min p.len (ringbuffFreeSize s.recvBuffer)) ::
          (drain ar s.recvQueue (drainStart ar now s p)).pushes } := by
    obtain ⟨buffer, hpush⟩ := pushToRecvBuff_fst (queueAck ar now s p.seq) p
    unfold recvSend drainStart
    dsimp only
    rw [hacked]
    simp only [hpush, pushToRecvBuff_snd]
    rfl
  rw [hbase] at hpushes hcontents hsplit
  rw [hroom] at hpushes hcontents
  rw [heq]
  refine ⟨?_, ?_, hsplit⟩
  · rw [hpushes, writes]
  · rw [hcontents, hfirst, List.append_assoc, List.flatMap_cons, List.take_append]
    rfl

theorem map_seq_readyRun (ar : SeqArith) (base : Nat) (queue : List Packet) :
    (readyRun ar base queue).map Packet.seq =
      consecutive ar base (readyRun ar base queue).length := by
  induction queue generalizing base with
  | nil => rfl
  | cons p rest ih =>
    unfold readyRun
    split
    case isTrue hseq => rw [List.map_cons, List.length_cons, consecutive, ih, hseq]
    case isFalse => rfl

/-- A queue in which nothing is missing is taken as a whole. -/
theorem readyRun_of_consecutive {queue : List Packet} {base : Nat}
    (h : queue.map Packet.seq = consecutive ar base queue.length) :
    readyRun ar base queue = queue := by
  induction queue generalizing base with
  | nil => rfl
  | cons p rest ih =>
    obtain ⟨hseq, hrest⟩ := List.cons.inj h
    rw [readyRun, if_pos hseq, ih hrest]

/-- What the loop has left when it ends. -/
theorem drain_of_consecutive {queue : List Packet} (hqueue : s.recvQueue = queue)
    (hbase : s.recvWndBase < uInt32Size)
    (h : queue.map Packet.seq = consecutive .uInt32 s.recvWndBase queue.length) :
    (drain .uInt32 queue s).rdt.recvWndBase = (s.recvWndBase + queue.length) % uInt32Size ∧
      (drain .uInt32 queue s).rdt.recvQueue = [] := by
  induction queue generalizing s with
  | nil => exact ⟨(Nat.mod_eq_of_lt hbase).symm, hqueue⟩
  | cons p rest ih =>
    obtain ⟨hseq, hrest⟩ := List.cons.inj h
    obtain ⟨buffer, hpush⟩ := pushToRecvBuff_fst s p
    have hnext : SeqArith.uInt32.add s.recvWndBase 1 < uInt32Size := Nat.mod_lt _ (by decide)
    obtain ⟨hend, hleft⟩ := ih (s := { s with
      recvBuffer := buffer, recvWndBase := SeqArith.uInt32.add s.recvWndBase 1, recvQueue := rest })
      rfl hnext hrest
    simp only [drain, if_pos hseq, hpush]
    refine ⟨?_, hleft⟩
    rw [hend, List.length_cons]
    show ((s.recvWndBase + 1) % uInt32Size + rest.length) % uInt32Size = _
    rw [Nat.mod_add_mod, Nat.add_assoc, Nat.add_comm 1]

/-! ## Numbers that follow each other -/

/-- Below the word size the code counts as everyone does. -/
theorem consecutive_eq {a n : Nat} (h : a + n ≤ uInt32Size) :
    consecutive .uInt32 a n = List.range' a n := by
  induction n generalizing a with
  | zero => rfl
  | succ n ih =>
    rw [consecutive, List.range'_succ]
    rcases Nat.eq_zero_or_pos n with rfl | hpos
    · rfl
    · have hadd : SeqArith.uInt32.add a 1 = a + 1 := Nat.mod_eq_of_lt (by omega)
      rw [hadd, ih (by omega)]

/-- In order of size they do not go round. -/
theorem le_of_sorted {a n : Nat} (ha : 0 < a) (hlt : a < uInt32Size)
    (h : (consecutive .uInt32 a n).Pairwise (· ≤ ·)) : a + n ≤ uInt32Size := by
  induction n generalizing a with
  | zero => exact Nat.le_of_lt hlt
  | succ n ih =>
    obtain ⟨hhead, htail⟩ := List.pairwise_cons.mp h
    cases n with
    | zero => exact hlt
    | succ n =>
      have hnext : a ≤ SeqArith.uInt32.add a 1 := hhead _ List.mem_cons_self
      have hround : a + 1 < uInt32Size := by
        by_contra hge
        have hlast : a + 1 = uInt32Size := by omega
        have hzero : SeqArith.uInt32.add a 1 = 0 := by
          show (a + 1) % uInt32Size = 0
          rw [hlast, Nat.mod_self]
        omega
      have hadd : SeqArith.uInt32.add a 1 = a + 1 := Nat.mod_eq_of_lt hround
      rw [hadd] at htail
      have hend := ih (Nat.succ_pos a) hround htail
      omega

/-! ## Reachable queues -/

/-- `recv_queue` is in order of size, with nothing in it before the first
packet. -/
structure Rdt.RecvInv (s : Rdt) : Prop where
  wnd : s.wndSize < uInt32Size
  base : s.recvWndBase < uInt32Size
  empty : s.recvWndBase = 0 → s.recvQueue = []
  sorted : (s.recvQueue.map Packet.seq).Pairwise (· ≤ ·)
  small : ∀ q ∈ s.recvQueue, q.seq < uInt32Size

theorem sorted_seqInsertToList {n : Nat} {list : List Nat} (h : list.Pairwise (· ≤ ·)) :
    (seqInsertToList id n list).Pairwise (· ≤ ·) := by
  induction list with
  | nil => exact List.pairwise_singleton _ _
  | cons m rest ih =>
    obtain ⟨hm, hrest⟩ := List.pairwise_cons.mp h
    simp only [seqInsertToList, id]
    split
    case isTrue hlt =>
      refine List.pairwise_cons.mpr ⟨fun x hx => ?_, h⟩
      rcases List.mem_cons.mp hx with rfl | hx
      · exact Nat.le_of_lt hlt
      · exact Nat.le_trans (Nat.le_of_lt hlt) (hm x hx)
    case isFalse hge =>
      refine List.pairwise_cons.mpr ⟨fun x hx => ?_, ih hrest⟩
      rcases mem_seqInsertToList.mp hx with rfl | hx
      · exact Nat.not_lt.mp hge
      · exact hm x hx

theorem recvInv_congr {s s' : Rdt} (h : s.RecvInv) (hwnd : s'.wndSize = s.wndSize)
    (hbase : s'.recvWndBase = s.recvWndBase) (hqueue : s'.recvQueue = s.recvQueue) :
    s'.RecvInv := by
  refine ⟨hwnd ▸ h.wnd, hbase ▸ h.base, fun hzero => ?_, ?_, ?_⟩
  · rw [hqueue, h.empty (hbase ▸ hzero)]
  · rw [hqueue]
    exact h.sorted
  · rw [hqueue]
    exact h.small

theorem drain_returned_nil {queue : List Packet} (hqueue : s.recvQueue = queue)
    (hbase : s.recvWndBase < uInt32Size) (h : (drain .uInt32 queue s).returned = true) :
    (drain .uInt32 queue s).rdt.recvQueue = [] ∧
      (drain .uInt32 queue s).rdt.recvWndBase < uInt32Size := by
  refine ⟨drain_returned hqueue h, ?_⟩
  induction queue generalizing s with
  | nil => exact hbase
  | cons p rest ih =>
    unfold drain at h ⊢
    split
    case isTrue hseq =>
      rw [if_pos hseq] at h
      exact ih rfl (Nat.mod_lt _ (by decide)) h
    case isFalse => exact hbase

/-- A packet that is handled to its end keeps the queue as it is reached. -/
theorem recvInv_recvSend (h : s.RecvInv) (hreturned : (recvSend .uInt32 now s p).returned = true) :
    (recvSend .uInt32 now s p).rdt.RecvInv := by
  have hack : (queueAck .uInt32 now s p.seq).RecvInv := by
    rw [queueAck_eq]
    exact recvInv_congr h rfl rfl rfl
  obtain ⟨base, queue, buffer, hside⟩ := onlyRecvSide_recvSend .uInt32 now s p
  have hwnd : (recvSend .uInt32 now s p).rdt.wndSize < uInt32Size := by
    rw [hside]
    exact hack.wnd
  cases hwindow : recvWindow .uInt32 s p.seq with
  | first =>
    have hnil := h.empty (recvWindow_eq_first.mp hwindow)
    obtain ⟨buffer, heq⟩ := @recvSend_first _ now _ _ hwindow
    rw [heq] at hwnd ⊢
    have hqueue : (queueAck .uInt32 now s p.seq).recvQueue = [] := by rw [queueAck_eq]; exact hnil
    exact ⟨hwnd, Nat.mod_lt _ (by decide), fun _ => hqueue, by rw [hqueue]; exact .nil,
      by rw [hqueue]; simp⟩
  | discard =>
    rw [recvSend_discard hwindow]
    exact hack
  | inOrder =>
    obtain ⟨s', -, hqueue, hnext, heq⟩ := @recvSend_inOrder _ now _ _ hwindow
    rw [heq] at hwnd hreturned ⊢
    obtain ⟨hnil, hbase⟩ := drain_returned_nil hqueue
      (by rw [hnext]; exact Nat.mod_lt _ (by decide)) hreturned
    exact ⟨hwnd, hbase, fun _ => hnil, by rw [hnil]; exact .nil, by rw [hnil]; simp⟩
  | ahead =>
    obtain ⟨hne, -, hle⟩ := recvWindow_eq_ahead.mp hwindow
    rw [recvSend_ahead hwindow]
    refine ⟨hack.wnd, hack.base, fun hzero => absurd ?_ hne, ?_, fun q hq => ?_⟩
    · rw [queueAck_eq] at hzero
      exact hzero
    · show ((seqInsertToList Packet.seq p s.recvQueue).map Packet.seq).Pairwise (· ≤ ·)
      rw [map_seqInsertToList]
      exact sorted_seqInsertToList h.sorted
    · rcases mem_seqInsertToList.mp hq with rfl | hq
      · exact Nat.lt_of_le_of_lt hle (Nat.mod_lt _ (by decide))
      · exact h.small q hq

/-! ## Packets in order -/

/-- A window that goes round lets no packet at its base through. -/
theorem Rdt.RecvInv.round (h : s.RecvInv) {seq : Nat}
    (hwindow : recvWindow .uInt32 s seq = .inOrder) :
    s.recvWndBase + s.wndSize < uInt32Size := by
  obtain ⟨-, hseq, hle⟩ := recvWindow_eq_inOrder.mp hwindow
  have hbase := h.base
  have hsize := h.wnd
  by_contra hge
  have hadd : SeqArith.uInt32.add s.recvWndBase s.wndSize =
      s.recvWndBase + s.wndSize - uInt32Size := by
    show (s.recvWndBase + s.wndSize) % uInt32Size = _
    rw [Nat.mod_eq_sub_mod (by omega), Nat.mod_eq_of_lt (by omega)]
  omega

/-- A queue that is delivered as a whole. -/
theorem Rdt.RecvInv.queue_eq (h : s.RecvInv) (hbase : s.recvWndBase + 1 < uInt32Size)
    (hqueue : s.recvQueue.map Packet.seq =
      consecutive .uInt32 (s.recvWndBase + 1) s.recvQueue.length) :
    s.recvWndBase + 1 + s.recvQueue.length ≤ uInt32Size ∧
      s.recvQueue.map Packet.seq = List.range' (s.recvWndBase + 1) s.recvQueue.length := by
  have hsorted := h.sorted
  rw [hqueue] at hsorted
  have hle := le_of_sorted (Nat.succ_pos _) hbase hsorted
  exact ⟨hle, by rw [hqueue, consecutive_eq hle]⟩

theorem Rdt.RecvInv.bound (h : s.RecvInv)
    (hqueue : s.recvQueue.map Packet.seq = List.range' (s.recvWndBase + 1) s.recvQueue.length)
    (hbase : s.recvWndBase + 1 < uInt32Size) :
    s.recvWndBase + 1 + s.recvQueue.length ≤ uInt32Size := by
  rcases Nat.eq_zero_or_pos s.recvQueue.length with hzero | hpos
  · omega
  · have hlast : s.recvWndBase + s.recvQueue.length ∈ s.recvQueue.map Packet.seq := by
      rw [hqueue]
      exact List.mem_range'_1.mpr ⟨by omega, by omega⟩
    obtain ⟨q, hq, hseq⟩ := List.mem_map.mp hlast
    have := h.small q hq
    omega

/-- What is delivered of a queue with nothing missing. -/
theorem drains_of_all {h : Handled} (hseq : p.seq = s.recvWndBase)
    (hends : ∃ k, (drainLoop .uInt32 k (drainStart .uInt32 now s p)).recvQueue = [])
    (hle : s.recvWndBase + 1 + s.recvQueue.length ≤ uInt32Size)
    (hqueue : s.recvQueue.map Packet.seq = List.range' (s.recvWndBase + 1) s.recvQueue.length)
    (hpushes : h.pushes = writes (ringbuffFreeSize s.recvBuffer) (p :: s.recvQueue))
    (hcontents : h.rdt.recvBuffer.contents = s.recvBuffer.contents ++
      ((p :: s.recvQueue).flatMap Packet.data).take (ringbuffFreeSize s.recvBuffer))
    (hroom : s.RoomFor p)
    (hbase : h.rdt.recvWndBase = (s.recvWndBase + 1 + s.recvQueue.length) % uInt32Size)
    (hleft : h.rdt.recvQueue = []) : Drains now s p h := by
  have hsmall : (List.range' (s.recvWndBase + 1) s.recvQueue.length).map (· % uInt32Size) =
      List.range' (s.recvWndBase + 1) s.recvQueue.length := by
    refine (List.map_congr_left fun x hx => ?_).trans (List.map_id' _)
    have := List.mem_range'_1.mp hx
    exact Nat.mod_eq_of_lt (by omega)
  have hfits : ((p :: s.recvQueue).map Packet.len).sum ≤ ringbuffFreeSize s.recvBuffer := hroom
  refine ⟨hends, ⟨s.recvQueue, ?_, ?_, fun q hq => hq, ?_, ?_, ?_⟩, ?_⟩
  · rw [hpushes, writes_eq_iff]
    exact hfits
  · rw [hcontents, List.take_of_length_le]
    rw [List.length_flatMap]
    exact hfits
  · rw [hseq, hsmall, hqueue]
  · rw [hbase, hseq]
  · rw [hleft]
    refine (List.filter_eq_nil_iff.mpr fun q hq => ?_).symm
    have hmem : q.seq ∈ (p :: s.recvQueue).map Packet.seq :=
      List.mem_map_of_mem (List.mem_cons_of_mem _ hq)
    rw [decide_eq_true_eq]
    exact not_not.mpr hmem
  · rw [hbase, hqueue, List.mem_range'_1]
    rcases Nat.eq_or_lt_of_le hle with heq | hlt
    · rw [heq, Nat.mod_self]
      omega
    · rw [Nat.mod_eq_of_lt hlt]
      omega

/-- What is delivered as a whole had room. -/
theorem Drains.roomFor {h : Handled} (hdrains : Drains now s p h)
    (hpushes : h.pushes = writes (ringbuffFreeSize s.recvBuffer) (p :: s.recvQueue)) :
    s.RoomFor p := by
  obtain ⟨taken, hwhole, -⟩ := hdrains.run
  have htaken : p :: s.recvQueue = p :: taken := by
    have hfst := congrArg (List.map Prod.fst) (hpushes.symm.trans hwhole)
    rw [map_fst_writes] at hfst
    simpa [Function.comp_def] using hfst
  rw [hpushes, htaken] at hwhole
  have hfits := writes_eq_iff.mp hwhole
  rw [← htaken] at hfits
  exact hfits

/-- A packet at the base is delivered with all that waits exactly when
nothing is missing in the queue and there is room for everything. -/
theorem drains_recvSend_iff (h : s.RecvInv) (hwnd : 0 < s.wndSize) (hseq : p.seq = s.recvWndBase) :
    Drains now s p (recvSend .uInt32 now s p) ↔ s.Gapless ∧ s.RoomFor p := by
  obtain ⟨hstartQueue, hstartBase⟩ := drainStart_eq .uInt32 now s p
  have hbase := h.base
  have hsize := h.wnd
  cases hwindow : recvWindow .uInt32 s p.seq with
  | first =>
    have hzero := recvWindow_eq_first.mp hwindow
    have hnil := h.empty hzero
    obtain ⟨buffer, heq⟩ := @recvSend_first _ now _ _ hwindow
    obtain ⟨hpushes, hcontents⟩ := @recvSend_first_run _ _ _ now hwindow
    rw [← hnil] at hpushes
    refine ⟨fun hdrains => ⟨⟨Or.inl hzero, by rw [hnil]; rfl⟩, hdrains.roomFor hpushes⟩,
      fun ⟨_, hroom⟩ => ?_⟩
    refine drains_of_all hseq ⟨0, hstartQueue.trans hnil⟩ ?_ (by rw [hnil]; rfl) hpushes ?_ hroom
      ?_ ?_
    · rw [hnil, hzero]
      decide
    · rw [hcontents, hnil]
      simp
    · rw [heq, hnil, hseq]
      rfl
    · rw [heq, queueAck_eq]
      exact hnil
  | discard =>
    obtain ⟨hne, hout⟩ := recvWindow_eq_discard.mp hwindow
    refine iff_of_false (fun hdrains => ?_) (fun ⟨hgapless, _⟩ => ?_)
    · obtain ⟨taken, hpushes, -⟩ := hdrains.run
      rw [recvSend_discard hwindow] at hpushes
      cases hpushes
    · rcases hgapless.1 with hzero | hlt
      · exact hne hzero
      · have hadd : SeqArith.uInt32.add s.recvWndBase s.wndSize = s.recvWndBase + s.wndSize :=
          Nat.mod_eq_of_lt hlt
        omega
  | ahead =>
    obtain ⟨-, hlt, -⟩ := recvWindow_eq_ahead.mp hwindow
    omega
  | inOrder =>
    have hround := h.round hwindow
    have hnext : SeqArith.uInt32.add s.recvWndBase 1 = s.recvWndBase + 1 :=
      Nat.mod_eq_of_lt (by omega)
    have hloop := @loop_iff_consecutive .uInt32 _ _ hstartQueue
    rw [hstartBase, hnext] at hloop
    obtain ⟨hpushes, hcontents, -⟩ := @recvSend_inOrder_run _ _ _ now hwindow
    rw [hnext] at hpushes hcontents
    constructor
    · intro hdrains
      have hall := hloop.mp hdrains.ends
      rw [readyRun_of_consecutive hall] at hpushes
      exact ⟨⟨Or.inr hround, (h.queue_eq (by omega) hall).2⟩, hdrains.roomFor hpushes⟩
    · rintro ⟨⟨-, hqueue⟩, hroom⟩
      have hend := h.bound hqueue (by omega)
      have hall : s.recvQueue.map Packet.seq =
          consecutive .uInt32 (s.recvWndBase + 1) s.recvQueue.length := by
        rw [hqueue, consecutive_eq hend]
      rw [readyRun_of_consecutive hall] at hpushes hcontents
      obtain ⟨s', -, hqueue', hbase', heq⟩ := @recvSend_inOrder _ now _ _ hwindow
      rw [hnext] at hbase'
      obtain ⟨hlast, hleft⟩ := drain_of_consecutive hqueue' (by omega)
        (by rw [hbase']; exact hall)
      rw [hbase'] at hlast
      refine drains_of_all hseq (hloop.mpr hall) hend hqueue hpushes hcontents hroom ?_ ?_
      · rw [heq]
        exact hlast
      · rw [heq]
        exact hleft

/-! ## Runs -/

variable {n : Peer}

/-- While the receive worker is not caught in the loop. -/
def Peer.RecvInv (n : Peer) : Prop :=
  0 < n.rdt.wndSize ∧ (n.spinning = false → n.rdt.RecvInv)

theorem recvInv_of_view {n' : Peer} (h : n.rdt.RecvInv) (hview : n'.recvView = n.recvView) :
    n'.rdt.RecvInv :=
  recvInv_congr h (congrArg RecvWindow.wnd hview) (congrArg RecvWindow.base hview)
    (congrArg RecvWindow.queue hview)

theorem peerRecvInv_step (h : n.RecvInv) (a : Act) : (n.step .uInt32 a).RecvInv := by
  obtain ⟨hwnd, hinv⟩ := h
  cases a with
  | op o =>
    rw [Peer.step_op]
    split
    · exact ⟨hwnd, hinv⟩
    · have hview := recvView_stepOp .uInt32 n o
      refine ⟨?_, fun hspin => recvInv_of_view (hinv ?_) hview⟩
      · rw [show (n.stepOp .uInt32 o).rdt.wndSize = n.rdt.wndSize from
          congrArg RecvWindow.wnd hview]
        exact hwnd
      · rwa [spinning_stepOp] at hspin
  | recv p now =>
    rw [Peer.step_recv]
    split_ifs with hexited hspin
    · exact ⟨hwnd, hinv⟩
    · exact ⟨hwnd, hinv⟩
    · have hrunning : n.spinning = false := by simpa using hspin
      by_cases hcmd : p.cmd = .send
      · have hrdt : (n.recv .uInt32 p now).rdt = (recvSend .uInt32 now n.rdt p).rdt := by
          simp only [Peer.recv, recvPacket, hcmd]
        have hreturned : (n.recv .uInt32 p now).spinning =
            !(recvSend .uInt32 now n.rdt p).returned := by
          simp only [Peer.recv, recvPacket, hcmd]
        rw [Peer.RecvInv, hrdt, hreturned]
        refine ⟨?_, fun hback => recvInv_recvSend (hinv hrunning) (by simpa using hback)⟩
        obtain ⟨base, queue, buffer, hside⟩ := onlyRecvSide_recvSend .uInt32 now n.rdt p
        rw [hside, queueAck_eq]
        exact hwnd
      · have hview := recvView_recv_of_ne .uInt32 n now hcmd
        refine ⟨?_, fun _ => recvInv_of_view (hinv hrunning) hview⟩
        rw [show (n.recv .uInt32 p now).rdt.wndSize = n.rdt.wndSize from
          congrArg RecvWindow.wnd hview]
        exact hwnd

theorem peerRecvInv_after (cfg : Config) (seq0 : Nat) (acts : List Act)
    (hcfg : cfg.wndSize < uInt32Size) : (Peer.after .uInt32 cfg seq0 acts).RecvInv := by
  refine run_invariant' (I := Peer.RecvInv) (fun _ a h => peerRecvInv_step h a) acts
    ⟨cfg.wnd_pos, fun _ => ⟨hcfg, (by decide : 0 < uInt32Size), fun _ => rfl, .nil, ?_⟩⟩
  intro q hq
  cases hq

/-- In every reachable state in which the receive worker takes a datagram: a
SEND packet at the base is delivered with the run of packets that follow
it, and the drain loop ends, if and only if there is no gap and nothing
twice in the queue (and the window test does not go round), and
`recv_buffer` has room for all of them. -/
theorem drains_iff_gapless (cfg : Config) (seq0 : Nat) (acts : List Act) (p : Packet) (now : Nat)
    (hcfg : cfg.wndSize < uInt32Size)
    (hrunning : (Peer.after .uInt32 cfg seq0 acts).spinning = false) (hcmd : p.cmd = .send)
    (hseq : p.seq = (Peer.after .uInt32 cfg seq0 acts).rdt.recvWndBase) :
    Drains now (Peer.after .uInt32 cfg seq0 acts).rdt p
        (recvPacket .uInt32 now (Peer.after .uInt32 cfg seq0 acts).rdt p) ↔
      (Peer.after .uInt32 cfg seq0 acts).rdt.Gapless ∧
        (Peer.after .uInt32 cfg seq0 acts).rdt.RoomFor p := by
  obtain ⟨hwnd, hinv⟩ := peerRecvInv_after cfg seq0 acts hcfg
  have hsend : recvPacket .uInt32 now (Peer.after .uInt32 cfg seq0 acts).rdt p =
      recvSend .uInt32 now (Peer.after .uInt32 cfg seq0 acts).rdt p := by
    simp only [recvPacket, hcmd]
  rw [hsend]
  exact drains_recvSend_iff (hinv hrunning) hwnd hseq

/-- The packet 11, and 12 behind it. -/
theorem drains_iff_gapless_reordered :
    Drains 0 (Peer.after .uInt32 protocolConfig 1 (outOfOrder.take 2)).rdt (dataPacket 11 [11])
      (recvPacket .uInt32 0 (Peer.after .uInt32 protocolConfig 1 (outOfOrder.take 2)).rdt
        (dataPacket 11 [11])) :=
  (drains_iff_gapless protocolConfig 1 (outOfOrder.take 2) (dataPacket 11 [11]) 0 (by decide)
    (by decide +kernel) rfl (by decide +kernel)).mpr (by decide +kernel)

/-- A connection whose buffers hold two bytes. -/
def twoByteConfig : Config := { protocolConfig with buffLen := 3, buff_pos := Nat.succ_pos 2 }

/-- The packets 10 and 13 have come: with the packet 11 the loop stays at 13.
And with room for two bytes, when 10 and 12 have come: with the packet 11
the loop takes 12 off the queue and writes nothing of it. -/
theorem endless_drain :
    ((Peer.after .uInt32 protocolConfig 1
        [.recv (dataPacket 10 [10]) 0, .recv (dataPacket 13 [13]) 0]).spinning = false ∧
      (Peer.after .uInt32 protocolConfig 1
        [.recv (dataPacket 10 [10]) 0, .recv (dataPacket 13 [13]) 0]).rdt.recvWndBase = 11 ∧
      ¬ ∃ k, (drainLoop .uInt32 k (drainStart .uInt32 0 (Peer.after .uInt32 protocolConfig 1
        [.recv (dataPacket 10 [10]) 0, .recv (dataPacket 13 [13]) 0]).rdt
          (dataPacket 11 [11]))).recvQueue = []) ∧
    (recvPacket .uInt32 0 (Peer.after .uInt32 twoByteConfig 1 (outOfOrder.take 2)).rdt
        (dataPacket 11 [11])).pushes = [(dataPacket 11 [11], 1), (dataPacket 12 [12], 0)] ∧
      (recvPacket .uInt32 0 (Peer.after .uInt32 twoByteConfig 1 (outOfOrder.take 2)).rdt
        (dataPacket 11 [11])).rdt.recvQueue = [] := by
  refine ⟨⟨by decide +kernel, by decide +kernel, ?_⟩, by decide +kernel, by decide +kernel⟩
  obtain ⟨hqueue, hbase⟩ := drainStart_eq .uInt32 0 (Peer.after .uInt32 protocolConfig 1
    [.recv (dataPacket 10 [10]) 0, .recv (dataPacket 13 [13]) 0]).rdt (dataPacket 11 [11])
  rw [loop_iff_consecutive hqueue, hbase]
  decide +kernel

end Training.Udp
