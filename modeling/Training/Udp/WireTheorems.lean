/-
Training.Udp.WireTheorems — what `recv_worker_thread` does with a
datagram of any bytes.

* `returns_pushBlock`, `returns_copy`, `returns_recvBlock` — the exact
  condition under which an operation on a block stays inside it, and the
  value it then has.
* `returns_recvBlock_safe` — handling a datagram is safe exactly when its
  sizes agree with it, as far as the branch it takes depends on them.
* `safe_iff_wellSized` — a run is safe throughout exactly when every
  datagram its receive worker handles is well sized.
* `hostile_datagrams` — what the code does with four that are not.

The buffered copies are the invariant. A copy that was safe to make holds
the whole payload, and all of it was received (`Block.Kept`), so handing
it over later needs no further condition.
-/
import Training.Udp.ProtocolTheorems
import Training.Udp.Wire

namespace Training.Udp

open Training.Lib

/-! ## Blocks -/

@[simp] theorem Block.size_put (b : Block) (i : Nat) (v : UInt8) :
    (b.put i v).size = b.size := by
  simp [Block.put, Block.size]

@[simp] theorem Block.datagram_put (b : Block) (i : Nat) (v : UInt8) :
    (b.put i v).datagram = b.datagram := rfl

theorem Block.word_put {b : Block} {i off : Nat} (v : UInt8)
    (h : i < off ∨ off + 4 ≤ i) : (b.put i v).word off = b.word off :=
  wordAt_set b.bytes v h

theorem Block.length_slice (b : Block) (off n : Nat) :
    (b.slice off n).length = min n (b.size - off) := by
  simp [Block.slice, Block.size]

theorem Block.take_slice (b : Block) (off : Nat) {m n : Nat} (h : m ≤ n) :
    (b.slice off n).take m = b.slice off m := by
  rw [Block.slice, List.take_take, Nat.min_eq_left h, Block.slice]

theorem Block.load_eq {b : Block} {off : Nat} (h : off + 4 ≤ b.size) :
    b.load off = .ok (b.word off) := by
  rw [Block.load, if_pos h]

theorem Block.loadInt_eq {b : Block} {off : Nat} (h : off + 4 ≤ b.size) :
    b.loadInt off = .ok (intOfWire (b.word off)) := by
  rw [Block.loadInt, Block.load_eq h]
  rfl

@[simp] theorem size_recvBuff (packetLen : Nat) (datagram : List UInt8) :
    (recvBuff packetLen datagram).size = packetLen := by
  simp [recvBuff, Block.size]
  omega

/-- A terminator past the header leaves the fields alone. -/
theorem Block.len_put {b : Block} {i : Nat} (v : UInt8) (h : offsetofData ≤ i) :
    (b.put i v).len = b.len := by
  have hoff : offsetofLen + 4 ≤ offsetofData := by decide
  rw [Block.len, Block.word_put v (by omega), Block.len]

theorem Block.pktSize_put {b : Block} {i : Nat} (v : UInt8) (h : offsetofData ≤ i) :
    (b.put i v).pktSize = b.pktSize := by
  have hoff : offsetofPktSize + 4 ≤ offsetofData := by decide
  rw [Block.pktSize, Block.word_put v (by omega), Block.pktSize]

/-- A terminator behind the payload leaves the packet alone. -/
theorem Block.decode_put {b : Block} (v : UInt8) (h : 0 ≤ b.len) :
    (b.put (offsetofData + b.len).toNat v).decode = b.decode := by
  have hword : ∀ off, off + 4 ≤ offsetofData →
      (b.put (offsetofData + b.len).toNat v).word off = b.word off :=
    fun off hoff => Block.word_put v (.inr (by omega))
  have hslice : (b.put (offsetofData + b.len).toNat v).slice offsetofData b.len.toNat
      = b.slice offsetofData b.len.toNat := by
    apply List.ext_getElem?
    intro j
    by_cases hj : j < b.len.toNat
    · have hne : (offsetofData + b.len).toNat ≠ offsetofData + j := by omega
      simp [Block.slice, Block.put, hj, List.getElem?_set_ne hne]
    · simp [Block.slice, hj]
  rw [Block.decode, Block.len_put v (by omega), hslice, Block.decode]
  simp only [Block.seq, Block.cmd, Block.ack, Block.ts]
  rw [hword _ (by decide), hword _ (by decide), hword _ (by decide), hword _ (by decide)]

/-! ## Payloads -/

/-- Below `len`, the payload is the one of the datagram. -/
def Block.Faithful (b : Block) : Prop :=
  ∀ j : Nat, (j : Int) < b.len → offsetofData + j < b.datagram.length →
    b.bytes[offsetofData + j]? = b.datagram[offsetofData + j]?

/-- Bytes of a payload were received exactly where the datagram reaches
as far as they do. -/
theorem Block.slice_prefix_iff {b : Block} (hb : b.Faithful) {n : Nat}
    (hn : (n : Int) ≤ b.len) (hsize : offsetofData + n ≤ b.size) :
    b.slice offsetofData n <+: b.datagram.drop offsetofData ↔ b.Carries n := by
  have hlen : (b.slice offsetofData n).length = n := by
    rw [Block.length_slice]
    omega
  constructor
  · intro hpre
    have hle := hpre.length_le
    rw [hlen, List.length_drop] at hle
    refine ⟨by omega, ?_⟩
    omega
  · rintro ⟨_, hreach⟩
    have heq : b.slice offsetofData n = (b.datagram.drop offsetofData).take n := by
      apply List.ext_getElem?
      intro j
      by_cases hj : j < n
      · have hagree := hb j (by omega) (by omega)
        simpa [Block.slice, List.getElem?_take, hj] using hagree
      · simp [Block.slice, hj]
    rw [heq]
    exact List.take_prefix n _

theorem recvBuff_bytes {packetLen : Nat} {datagram : List UInt8} {j : Nat}
    (hj : j < (recvBuff packetLen datagram).datagram.length) :
    (recvBuff packetLen datagram).bytes[j]? = (recvBuff packetLen datagram).datagram[j]? :=
  List.getElem?_append_left hj

/-- The terminator is no byte of the payload, wherever `len` puts it. -/
theorem faithful_terminated (packetLen : Nat) (datagram : List UInt8) :
    (recvBuff packetLen datagram).terminated.Faithful := by
  generalize hb : recvBuff packetLen datagram = b
  have hbytes : ∀ j, j < b.datagram.length → b.bytes[j]? = b.datagram[j]? := by
    intro j hj
    subst hb
    exact recvBuff_bytes hj
  unfold Block.terminated
  split
  · intro j _ hreach
    exact hbytes _ hreach
  · intro j hj hreach
    have hne : (offsetofData + b.len).toNat ≠ offsetofData + j := by
      have hdata : offsetofData = 52 := rfl
      by_cases hlen : 0 ≤ b.len
      · rw [Block.len_put 0 (by omega)] at hj
        omega
      · omega
    show (b.bytes.set _ 0)[offsetofData + j]? = _
    rw [List.getElem?_set_ne hne]
    exact hbytes _ hreach

/-- `recv_buff` as the data branches find it. -/
structure Block.Received (b : Block) : Prop where
  size_ge : offsetofData ≤ b.size
  reach : b.datagram.length ≤ b.size
  faithful : b.Faithful

theorem received_terminated (s : Rdt) (datagram : List UInt8) :
    (recvBuff (packetLen s) datagram).terminated.Received := by
  have hsize : (recvBuff (packetLen s) datagram).terminated.size = packetLen s := by
    rw [Block.terminated]
    split
    · simp
    · simp
  have hreach : (recvBuff (packetLen s) datagram).terminated.datagram.length
      ≤ packetLen s := by
    rw [Block.terminated]
    split
    · exact List.length_take_le _ _
    · exact List.length_take_le _ _
  refine ⟨?_, by rw [hsize]; exact hreach, faithful_terminated _ _⟩
  rw [hsize]
  exact Nat.le_trans (by decide : offsetofData ≤ sizeofPacket) (Nat.le_add_left _ _)

/-! ## Copies and pushes -/

theorem returns_copyOut {b : Block} {off : Nat} {n : Int} {Q : List UInt8 → Prop} :
    Returns (b.copyOut off n) Q ↔ (0 ≤ n ∧ off + n ≤ b.size) ∧ Q (b.slice off n.toNat) := by
  unfold Block.copyOut
  by_cases hneg : n < 0
  · rw [if_pos hneg]
    simp only [returns_error, false_iff]
    omega
  · rw [if_neg hneg, returns_check]
    exact and_congr_left fun _ => by omega

theorem returns_copy {b : Block} {n : Int} {Q : Block → Prop} :
    Returns (b.copy n) Q ↔
      (0 ≤ n ∧ n ≤ b.size) ∧ Q { b with bytes := b.bytes.take n.toNat } := by
  simp only [Block.copy, returns_bind, returns_copyOut, returns_pure, Block.slice,
    List.drop_zero]
  exact and_congr_left fun _ => by simp

/-- Cutting `len` to the free size first changes nothing that is written. -/
theorem ringbuffWrite_slice (rb : Ringbuffer) (b : Block) :
    ringbuffWrite rb (b.slice offsetofData (min b.len (ringbuffFreeSize rb)).toNat)
      = ringbuffWrite rb b.decode.data := by
  apply ringbuffWrite_congr
  have hmin : min (ringbuffFreeSize rb) (min b.len (ringbuffFreeSize rb)).toNat
      = min (ringbuffFreeSize rb) b.len.toNat := by
    omega
  simp only [Block.decode, Block.slice, List.take_take, hmin]

/-- What `push_to_recv_buff` copies lies inside the block. -/
def PushInside (s : Rdt) (b : Block) : Prop :=
  0 = ringbuffFreeSize s.recvBuffer ∨
    (0 ≤ b.len ∧ offsetofData + min b.len (ringbuffFreeSize s.recvBuffer) ≤ b.size)

/-- What `push_to_recv_buff` needs of a block, and that with it the call
does what it does on the packet the block holds. -/
theorem returns_pushBlock (s : Rdt) {b : Block} (hb : offsetofData ≤ b.size)
    {Q : Rdt × Nat → Prop} :
    Returns (pushBlock s b) Q ↔
      PushInside s b ∧ Q (pushToRecvBuff s b.decode) := by
  have hload : b.loadInt offsetofLen = .ok b.len :=
    Block.loadInt_eq (Nat.le_trans (by decide) hb)
  have hmin : (if b.len > (ringbuffFreeSize s.recvBuffer : Int)
      then (ringbuffFreeSize s.recvBuffer : Int) else b.len)
        = min b.len (ringbuffFreeSize s.recvBuffer) := by
    split <;> omega
  unfold pushBlock pushToRecvBuff PushInside
  rw [hload, returns_bind, returns_ok, hmin]
  by_cases hfull : 0 = ringbuffFreeSize s.recvBuffer
  · rw [if_pos hfull, if_pos hfull]
    simp only [returns_pure, hfull, true_or, true_and]
  · rw [if_neg hfull, if_neg hfull, returns_bind, returns_copyOut, ringbuffWrite_slice]
    -- the ring is opaque here: the kernel must not evaluate the write
    generalize ringbuffWrite s.recvBuffer b.decode.data = written
    obtain ⟨recvBuffer, wSize⟩ := written
    simp only [returns_pure, hfull, false_or]
    exact and_congr_left fun _ => by omega

/-- The count `push_to_recv_buff` returns. -/
theorem PushInside.count {s : Rdt} {b : Block} (h : PushInside s b) :
    (pushToRecvBuff s b.decode).2 = (min b.len (ringbuffFreeSize s.recvBuffer)).toNat := by
  unfold PushInside at h
  rw [pushToRecvBuff_snd, Packet.len, Block.decode, Block.length_slice]
  omega

/-! ## Safety of one datagram -/

/-- Only received bytes are handed over or buffered. -/
structure WireHandled.Safe (h : WireHandled) : Prop where
  handed : ∀ e ∈ h.pushes, Handed e
  kept : ∀ b ∈ h.queue, b.Kept

/-- An outcome that hands nothing over and buffers nothing new. -/
theorem WireHandled.safe_of_kept {rdt : Rdt} {queue : List Block} {returned : Bool}
    (hkept : ∀ c ∈ queue, c.Kept) :
    WireHandled.Safe { rdt, queue, pushes := [], returned } := by
  refine ⟨?_, hkept⟩
  intro e he
  exact absurd he List.not_mem_nil

theorem PushFits.inside {s : Rdt} {b : Block} (h : PushFits s b) (hb : b.Received) :
    PushInside s b := by
  have hsize := hb.size_ge
  have hreach := hb.reach
  rcases h with hfull | ⟨hnonneg, hcarried⟩
  · exact .inl hfull
  · exact .inr ⟨by omega, by omega⟩

/-- The exact condition for a push from `recv_buff`. -/
theorem returns_push_handed (s : Rdt) {b : Block} (hb : b.Received) :
    Returns (pushBlock s b) (fun r => Handed (b, r.2)) ↔ PushFits s b := by
  rw [returns_pushBlock s hb.size_ge]
  constructor
  · rintro ⟨hinside, hhanded⟩
    rw [Handed, handedBytes, hinside.count] at hhanded
    rcases hinside with hfull | ⟨hlen, hsize⟩
    · exact .inl hfull
    · have hcarries := (Block.slice_prefix_iff hb.faithful (by omega) (by omega)).mp hhanded
      rw [Int.toNat_of_nonneg (by omega)] at hcarries
      exact .inr hcarries
  · intro hfits
    have hinside := hfits.inside hb
    refine ⟨hinside, ?_⟩
    rw [Handed, handedBytes, hinside.count]
    rcases hinside with hfull | ⟨hlen, hsize⟩
    · have hzero : (min b.len (ringbuffFreeSize s.recvBuffer)).toNat = 0 := by omega
      simp [Block.slice, hzero]
    · refine (Block.slice_prefix_iff hb.faithful (by omega) (by omega)).mpr ?_
      rw [Int.toNat_of_nonneg (by omega)]
      rcases hfits with hfull | hcarries
      · exact ⟨by omega, .inl (by omega)⟩
      · exact hcarries

/-- A buffered copy can always be handed over. -/
theorem Block.Kept.returns_push {b : Block} (hb : b.Kept) (s : Rdt) :
    Returns (pushBlock s b) fun r => r = pushToRecvBuff s b.decode ∧ Handed (b, r.2) := by
  have hlen := hb.len_nonneg
  have hsize := hb.inside
  have hinside : PushInside s b := .inr ⟨hlen, by omega⟩
  rw [returns_pushBlock s (by omega)]
  refine ⟨hinside, rfl, ?_⟩
  rw [Handed, handedBytes, hinside.count,
    ← Block.take_slice b offsetofData (n := b.len.toNat) (by omega)]
  exact (List.take_prefix _ _).trans hb.received

theorem Block.Kept.size_ge {b : Block} (hb : b.Kept) : offsetofData ≤ b.size := by
  have := hb.len_nonneg
  have := hb.inside
  omega

theorem Block.Kept.load_seq {b : Block} (hb : b.Kept) : b.load offsetofSeq = .ok b.seq :=
  Block.load_eq (Nat.le_trans (by decide) hb.size_ge)

/-! ## The receive queue -/

theorem pushToRecvBuff_setQueue (s : Rdt) (p : Packet) (queue : List Packet) :
    pushToRecvBuff { s with recvQueue := queue } p
      = ({ (pushToRecvBuff s p).1 with recvQueue := queue }, (pushToRecvBuff s p).2) := by
  unfold pushToRecvBuff
  split
  · rfl
  · rfl

/-- Draining buffered copies is draining the packets they hold. -/
theorem returns_drainBlocks {queue : List Block} (hkept : ∀ b ∈ queue, b.Kept) (s : Rdt) :
    Returns (drainBlocks queue s) fun h =>
      h.decode = drain .uInt32 (queue.map Block.decode)
        { s with recvQueue := queue.map Block.decode } ∧ h.Safe := by
  induction queue generalizing s with
  | nil =>
    exact ⟨rfl, WireHandled.safe_of_kept hkept⟩
  | cons b rest ih =>
    have hb := hkept b List.mem_cons_self
    have hrest : ∀ c ∈ rest, c.Kept := fun c hc => hkept c (List.mem_cons_of_mem _ hc)
    simp only [drainBlocks, returns_bind, hb.load_seq, returns_ok, List.map_cons, drain]
    by_cases hseq : b.seq = s.recvWndBase
    · have hdecode : b.decode.seq = s.recvWndBase := hseq
      rw [if_pos hseq, if_pos hdecode, pushToRecvBuff_setQueue, returns_bind]
      refine (hb.returns_push s).mono ?_
      rintro r ⟨rfl, hhanded⟩
      refine (returns_bind _ _).mpr ((ih hrest _).mono ?_)
      rintro h ⟨hdrain, hsafe⟩
      refine ⟨?_, ?_, hsafe.kept⟩
      · show ({ h.decode with pushes := (b.decode, _) :: h.decode.pushes } : Handled) = _
        rw [hdrain]
      · intro e he
        rcases List.mem_cons.mp he with rfl | he
        · exact hhanded
        · exact hsafe.handed e he
    · have hdecode : ¬ b.decode.seq = s.recvWndBase := hseq
      rw [if_neg hseq, if_neg hdecode]
      exact ⟨rfl, WireHandled.safe_of_kept hkept⟩

theorem returns_seqInsertBlock {data : Block} (hdata : data.Kept) {queue : List Block}
    (hkept : ∀ b ∈ queue, b.Kept) :
    Returns (seqInsertBlock data queue) fun queue' =>
      queue'.map Block.decode
        = seqInsertToList Packet.seq data.decode (queue.map Block.decode) ∧
      ∀ b ∈ queue', b.Kept := by
  have hlink : data.link = .ok () := if_pos (Nat.le_trans (by decide) hdata.size_ge)
  induction queue with
  | nil =>
    simp only [seqInsertBlock, hlink, returns_bind, returns_ok, returns_pure]
    refine ⟨rfl, ?_⟩
    intro b hb
    rw [List.mem_singleton.mp hb]
    exact hdata
  | cons position rest ih =>
    have hposition := hkept position List.mem_cons_self
    have hrest : ∀ b ∈ rest, b.Kept := fun b hb => hkept b (List.mem_cons_of_mem _ hb)
    simp only [seqInsertBlock, hdata.load_seq, hposition.load_seq, returns_bind, returns_ok,
      List.map_cons, seqInsertToList]
    by_cases hlt : data.seq < position.seq
    · have hdecode : data.decode.seq < position.decode.seq := hlt
      rw [if_pos hlt, if_pos hdecode]
      simp only [hlink, returns_bind, returns_ok, returns_pure]
      refine ⟨rfl, ?_⟩
      intro b hb
      rcases List.mem_cons.mp hb with rfl | hb
      · exact hdata
      · exact hkept b hb
    · have hdecode : ¬ data.decode.seq < position.decode.seq := hlt
      rw [if_neg hlt, if_neg hdecode, returns_bind]
      refine (ih hrest).mono ?_
      rintro queue' ⟨hmap, hkept'⟩
      rw [returns_pure]
      refine ⟨by rw [List.map_cons, hmap], ?_⟩
      intro b hb
      rcases List.mem_cons.mp hb with rfl | hb
      · exact hposition
      · exact hkept' b hb

/-- An insertion that comes to an end has inserted. -/
theorem mem_of_returns_seqInsertBlock {data : Block} {queue : List Block}
    {Q : List Block → Prop} (h : Returns (seqInsertBlock data queue) Q) :
    ∃ queue', Q queue' ∧ data ∈ queue' := by
  induction queue generalizing Q with
  | nil =>
    simp only [seqInsertBlock, returns_bind, returns_pure] at h
    obtain ⟨_, _, hQ⟩ := returns_iff.mp h
    exact ⟨[data], hQ, List.mem_cons_self⟩
  | cons position rest ih =>
    simp only [seqInsertBlock, returns_bind] at h
    obtain ⟨key, _, h⟩ := returns_iff.mp h
    obtain ⟨key', _, h⟩ := returns_iff.mp h
    by_cases hlt : key < key'
    · rw [if_pos hlt] at h
      simp only [returns_bind, returns_pure] at h
      obtain ⟨_, _, hQ⟩ := returns_iff.mp h
      exact ⟨data :: position :: rest, hQ, List.mem_cons_self⟩
    · rw [if_neg hlt] at h
      simp only [returns_bind, returns_pure] at h
      obtain ⟨queue', hQ, hmem⟩ := ih h
      exact ⟨position :: queue', hQ, List.mem_cons_of_mem _ hmem⟩

/-! ## Copies -/

theorem Block.word_take {b : Block} {off n : Nat} (h : off + 4 ≤ n) :
    ({ b with bytes := b.bytes.take n } : Block).word off = b.word off :=
  wordAt_take b.bytes h

theorem Block.len_take {b : Block} {n : Nat} (h : offsetofData ≤ n) :
    ({ b with bytes := b.bytes.take n } : Block).len = b.len := by
  rw [Block.len, Block.word_take (Nat.le_trans (by decide) h), Block.len]

theorem Block.slice_take {b : Block} {off m n : Nat} (h : off + m ≤ n) :
    ({ b with bytes := b.bytes.take n } : Block).slice off m = b.slice off m := by
  rw [Block.slice, Block.slice, List.drop_take, List.take_take, Nat.min_eq_left (by omega)]

/-- A copy that holds its payload holds the packet. -/
theorem Block.decode_take {b : Block} {n : Nat} (hlen : 0 ≤ b.len)
    (h : offsetofData + b.len ≤ n) :
    ({ b with bytes := b.bytes.take n } : Block).decode = b.decode := by
  have hword : ∀ off, off + 4 ≤ offsetofData →
      ({ b with bytes := b.bytes.take n } : Block).word off = b.word off :=
    fun off hoff => Block.word_take (by omega)
  rw [Block.decode, Block.len_take (by omega), Block.slice_take (by omega), Block.decode]
  simp only [Block.seq, Block.cmd, Block.ack, Block.ts]
  rw [hword _ (by decide), hword _ (by decide), hword _ (by decide), hword _ (by decide)]

/-- The copy `malloc (pkt_size)` makes of a received packet. -/
theorem kept_copy_iff {b : Block} (hfaithful : b.Faithful) {n : Int}
    (hn : 0 ≤ n ∧ n ≤ b.size) :
    ({ b with bytes := b.bytes.take n.toNat } : Block).Kept ↔
      b.Carries b.len ∧ offsetofData + b.len ≤ n := by
  have hsize : ({ b with bytes := b.bytes.take n.toNat } : Block).size = n.toNat := by
    have : n.toNat ≤ b.bytes.length := by
      have := hn.2
      rw [Block.size] at this
      omega
    simp [Block.size, this]
  constructor
  · intro hkept
    have hge := hkept.size_ge
    have hlen := hkept.len_nonneg
    have hinside := hkept.inside
    have hreceived := hkept.received
    rw [hsize] at hge hinside
    rw [Block.len_take hge] at hlen hinside hreceived
    rw [Block.slice_take (by omega)] at hreceived
    have hcarries := (Block.slice_prefix_iff hfaithful (by omega) (by omega)).mp hreceived
    rw [Int.toNat_of_nonneg hlen] at hcarries
    exact ⟨hcarries, by omega⟩
  · rintro ⟨hcarries, hinside⟩
    have hlen := hcarries.1
    have hlentake : ({ b with bytes := b.bytes.take n.toNat } : Block).len = b.len :=
      Block.len_take (by omega)
    refine ⟨by rw [hlentake]; exact hlen, by rw [hlentake, hsize]; omega, ?_⟩
    rw [hlentake, Block.slice_take (by omega)]
    refine (Block.slice_prefix_iff hfaithful (by omega) (by omega)).mpr ?_
    rwa [Int.toNat_of_nonneg hlen]

theorem CopyFits.range {b : Block} (h : CopyFits b) :
    0 ≤ b.pktSize ∧ b.pktSize ≤ b.size := by
  obtain ⟨⟨hnonneg, _⟩, hinside, hsize⟩ := h
  exact ⟨by omega, hsize⟩

/-! ## The branches -/

section Branches

variable {b : Block} {queue : List Block} (now : Nat) (s : Rdt)

theorem recvDataBlock_eq (hb : offsetofData ≤ b.size) :
    recvDataBlock now s queue b =
      match b.cmd with
      | .send => recvSendBlock now s queue b
      | .test => do
          let (s, wSize) ← pushBlock s b
          pure { rdt := s, queue, pushes := [(b, wSize)], returned := true }
      | _ => pure { rdt := s, queue, pushes := [], returned := true } := by
  have hcmd : b.load offsetofCmd = .ok (b.word offsetofCmd) :=
    Block.load_eq (Nat.le_trans (by decide) hb)
  rw [recvDataBlock, hcmd]
  rfl

/-- Handling a block: an ACK, or a terminator inside the block and a data
branch on the block with it. -/
theorem returns_recvBlock (hb : offsetofData ≤ b.size) {Q : WireHandled → Prop} :
    Returns (recvBlock now s queue b) Q ↔
      if b.cmd = .ack then
        Q { rdt := recvAck .uInt32 s b.ack, queue, pushes := [], returned := true }
      else (0 ≤ offsetofData + b.len ∧ offsetofData + b.len < b.size) ∧
        Returns (recvDataBlock now s queue b.terminated) Q := by
  have hcmd : b.load offsetofCmd = .ok (b.word offsetofCmd) :=
    Block.load_eq (Nat.le_trans (by decide) hb)
  have hack : b.load offsetofAck = .ok b.ack := Block.load_eq (Nat.le_trans (by decide) hb)
  have hlen : b.loadInt offsetofLen = .ok b.len :=
    Block.loadInt_eq (Nat.le_trans (by decide) hb)
  have hfield : cmdOfWire (b.word offsetofCmd) = b.cmd := rfl
  rw [recvBlock, hcmd, returns_bind, returns_ok, hfield, Block.terminated]
  by_cases hisAck : b.cmd = .ack
  · rw [if_pos hisAck, if_pos hisAck, hack]
    rfl
  · rw [if_neg hisAck, if_neg hisAck, if_neg hisAck, hlen, returns_bind, returns_ok,
      returns_bind, Block.store, returns_check]

variable (hb : b.Received) (hkept : ∀ c ∈ queue, c.Kept)

include hb hkept

/-- A push, and nothing buffered. -/
theorem returns_push_safe :
    Returns (do
      let (s, wSize) ← pushBlock s b
      pure { rdt := s, queue, pushes := [(b, wSize)], returned := true })
      WireHandled.Safe ↔ PushFits s b := by
  rw [returns_bind, ← returns_push_handed s hb]
  refine returns_congr ?_
  rintro ⟨s', wSize⟩
  constructor
  · intro hsafe
    exact hsafe.handed (b, wSize) List.mem_cons_self
  · intro hhanded
    refine ⟨?_, hkept⟩
    intro e he
    rw [List.mem_singleton.mp he]
    exact hhanded

/-- A push, and the copies that have become in order. -/
theorem returns_push_drain_safe :
    Returns (do
      let (s, wSize) ← pushBlock s b
      let h ← drainBlocks queue
        { s with recvWndBase := SeqArith.uInt32.add s.recvWndBase 1 }
      pure { h with pushes := (b, wSize) :: h.pushes }) WireHandled.Safe ↔
    PushFits s b := by
  rw [returns_bind, ← returns_push_handed s hb]
  refine returns_congr ?_
  rintro ⟨s', wSize⟩
  simp only [returns_bind, returns_pure]
  have hdrain := (returns_drainBlocks hkept
    { s' with recvWndBase := SeqArith.uInt32.add s'.recvWndBase 1 }).mono fun _ h => h.2
  refine Iff.trans (returns_congr ?_) (hdrain.and_left_iff (p := Handed (b, wSize)))
  intro h
  constructor
  · intro hsafe
    refine ⟨hsafe.handed _ List.mem_cons_self, ?_, hsafe.kept⟩
    intro e he
    exact hsafe.handed e (List.mem_cons_of_mem _ he)
  · rintro ⟨hhanded, hsafe⟩
    refine ⟨?_, hsafe.kept⟩
    intro e he
    rcases List.mem_cons.mp he with rfl | he
    · exact hhanded
    · exact hsafe.handed e he

/-- A copy, buffered in order. -/
theorem returns_copy_insert_safe :
    Returns (do
      let tmpPkt ← b.copy (← b.loadInt offsetofPktSize)
      let queue ← seqInsertBlock tmpPkt queue
      pure { rdt := s, queue, pushes := [], returned := true }) WireHandled.Safe ↔
    CopyFits b := by
  have hload : b.loadInt offsetofPktSize = .ok b.pktSize :=
    Block.loadInt_eq (Nat.le_trans (by decide) hb.size_ge)
  simp only [hload, returns_bind, returns_ok, returns_copy, returns_pure]
  constructor
  · rintro ⟨hsize, hinsert⟩
    obtain ⟨queue', hsafe, hmem⟩ := mem_of_returns_seqInsertBlock hinsert
    have hcopy := (kept_copy_iff hb.faithful hsize).mp (hsafe.kept _ hmem)
    exact ⟨hcopy.1, hcopy.2, hsize.2⟩
  · intro hfits
    have hcopy := (kept_copy_iff hb.faithful hfits.range).mpr ⟨hfits.1, hfits.2.1⟩
    refine ⟨hfits.range, (returns_seqInsertBlock hcopy hkept).mono ?_⟩
    rintro queue' ⟨_, hkept'⟩
    exact WireHandled.safe_of_kept hkept'

/-- The SEND branch is safe exactly when the sizes fit what the receive
window makes of the packet. -/
theorem returns_recvSendBlock_safe :
    Returns (recvSendBlock now s queue b) WireHandled.Safe ↔ SendSized s b := by
  have hwindow : recvWindow .uInt32 (queueAck .uInt32 now s b.seq) b.seq
      = recvWindow .uInt32 s b.seq := rfl
  have hload : b.load offsetofSeq = .ok b.seq :=
    Block.load_eq (Nat.le_trans (by decide) hb.size_ge)
  rw [recvSendBlock, hload, returns_bind, returns_ok, SendSized]
  dsimp only
  rw [hwindow]
  cases recvWindow .uInt32 s b.seq with
  | first => exact returns_push_safe _ hb hkept
  | discard => exact iff_of_true (WireHandled.safe_of_kept hkept) trivial
  | inOrder => exact returns_push_drain_safe _ hb hkept
  | ahead => exact returns_copy_insert_safe _ hb hkept

theorem returns_recvDataBlock_safe :
    Returns (recvDataBlock now s queue b) WireHandled.Safe ↔ DataSized s b := by
  rw [recvDataBlock_eq now s hb.size_ge, DataSized]
  cases b.cmd with
  | send => exact returns_recvSendBlock_safe now s hb hkept
  | test => exact returns_push_safe s hb hkept
  | ack => exact iff_of_true (WireHandled.safe_of_kept hkept) trivial
  | null => exact iff_of_true (WireHandled.safe_of_kept hkept) trivial

omit hb in
/-- Handling a datagram is safe exactly when it is an ACK or its sizes
agree with it. -/
theorem returns_recvBlock_safe (datagram : List UInt8) :
    Returns (recvBlock now s queue (recvBuff (packetLen s) datagram)) WireHandled.Safe ↔
      Sized s (recvBuff (packetLen s) datagram) := by
  have hsize := size_recvBuff (packetLen s) datagram
  have hterminated := received_terminated s datagram
  have hge : offsetofData ≤ (recvBuff (packetLen s) datagram).size := by
    rw [hsize]
    exact Nat.le_trans (by decide : offsetofData ≤ sizeofPacket) (Nat.le_add_left _ _)
  rw [returns_recvBlock now s hge, returns_recvDataBlock_safe now s hterminated hkept, hsize,
    Sized]
  split
  · rename_i hisAck
    exact iff_of_true (WireHandled.safe_of_kept hkept) (.inl hisAck)
  · rename_i hisAck
    simp only [hisAck, false_or, and_assoc]

end Branches

/-! ## Every run -/

theorem WirePeer.safe_iff (n : WirePeer) :
    n.Safe ↔ n.fault = none ∧ (∀ e ∈ n.pushes, Handed e) ∧ ∀ b ∈ n.queue, b.Kept := by
  constructor
  · intro h
    exact ⟨h.noFault, h.handed, h.kept⟩
  · rintro ⟨hfault, hhanded, hkept⟩
    exact ⟨hfault, hhanded, hkept, n.peer.rdt.recvBuffer.wr_lt, n.peer.rdt.recvBuffer.rd_lt⟩

theorem WirePeer.safe_recv_iff {n : WirePeer} (hn : n.Safe) (datagram : List UInt8)
    (now : Nat) :
    (n.recv datagram now).Safe ↔
      Returns (recvBlock now n.peer.rdt n.queue (n.recvBuff datagram)) WireHandled.Safe := by
  unfold WirePeer.recv
  cases recvBlock now n.peer.rdt n.queue (n.recvBuff datagram) with
  | error fault =>
    refine iff_of_false ?_ id
    intro h
    exact absurd h.noFault (by simp)
  | ok h =>
    rw [WirePeer.safe_iff, returns_ok]
    dsimp only
    constructor
    · rintro ⟨_, hhanded, hkept⟩
      exact ⟨fun e he => hhanded e (List.mem_append_right _ he), hkept⟩
    · intro hsafe
      refine ⟨hn.noFault, ?_, hsafe.kept⟩
      intro e he
      rcases List.mem_append.mp he with he | he
      · exact hn.handed e he
      · exact hsafe.handed e he

/-- A step leaves a safe state safe exactly when the datagram it handles
is well sized. -/
theorem WirePeer.safe_step_iff {n : WirePeer} (hn : n.Safe) (a : WireAct) :
    (n.step a).Safe ↔ WellSized n a := by
  have hfault : ¬ n.fault.isSome := by simp [hn.noFault]
  unfold WirePeer.step
  rw [if_neg hfault]
  cases a with
  | op o =>
    refine iff_of_true ?_ trivial
    exact (WirePeer.safe_iff _).mpr ⟨hn.noFault, hn.handed, hn.kept⟩
  | recv datagram now =>
    dsimp only
    by_cases hreceives : n.receives
    · rw [if_pos hreceives, WirePeer.safe_recv_iff hn]
      refine Iff.trans (returns_recvBlock_safe now n.peer.rdt hn.kept datagram) ?_
      exact ⟨fun h _ => h, fun h => h hreceives⟩
    · rw [if_neg hreceives]
      exact iff_of_true hn fun h => absurd h hreceives

theorem WirePeer.safe_init (cfg : Config) (seq0 : Nat) :
    (WirePeer.init cfg seq0).Safe := by
  refine (WirePeer.safe_iff _).mpr ⟨rfl, ?_, ?_⟩
  · intro e he
    exact absurd he List.not_mem_nil
  · intro b hb
    exact absurd hb List.not_mem_nil

/-- A run is safe throughout exactly when every datagram its receive
worker handles is well sized. -/
theorem safe_iff_wellSized (cfg : Config) (seq0 : Nat) (acts : List WireAct) :
    Throughout WirePeer.step WirePeer.Safe (WirePeer.init cfg seq0) acts ↔
      Along WirePeer.step WellSized (WirePeer.init cfg seq0) acts := by
  exact throughout_iff_along (I := fun _ => True) (fun _ _ _ => trivial)
    (fun n a _ hn => WirePeer.safe_step_iff hn a) acts trivial
    (WirePeer.safe_init cfg seq0)

/-- Four datagrams with sizes of their own: a `len` that puts the
terminator behind `recv_buff`, one that reaches past what was received,
one that is negative, and a `pkt_size` past `recv_buff`. -/
theorem hostile_datagrams :
    (WirePeer.after protocolConfig 1
        [.recv (header 10 2 57 1028 0 0 ++ [7]) 0]).fault = some .write ∧
      (WirePeer.after protocolConfig 1
        [.recv (header 10 2 57 4 0 0 ++ [7]) 0]).pushes.map handedBytes = [[7, 0, 0, 0]] ∧
      (¬ ∀ e ∈ (WirePeer.after protocolConfig 1
        [.recv (header 10 2 57 4 0 0 ++ [7]) 0]).pushes, Handed e) ∧
      (WirePeer.after protocolConfig 1
        [.recv (header 10 2 57 4294967295 0 0 ++ [7]) 0]).fault = some .negativeSize ∧
      (WirePeer.after protocolConfig 1
        [.recv (header 10 2 57 1 0 0 ++ [7]) 0,
          .recv (header 12 2 2000 1 0 0 ++ [9]) 0]).fault = some .read ∧
      ¬ ∀ acts, Throughout WirePeer.step WirePeer.Safe (WirePeer.init protocolConfig 1) acts := by
  have hwrite : (WirePeer.after protocolConfig 1
      [.recv (header 10 2 57 1028 0 0 ++ [7]) 0]).fault = some .write := by
    decide +kernel
  refine ⟨hwrite, by decide +kernel, by decide +kernel, by decide +kernel,
    by decide +kernel, ?_⟩
  intro hsafe
  have hnone := (hsafe [.recv (header 10 2 57 1028 0 0 ++ [7]) 0]).last.noFault
  rw [WirePeer.after] at hwrite
  rw [hnone] at hwrite
  exact absurd hwrite (by simp)

end Training.Udp
