/-
Training.Udp.WireRefinement — along well-sized datagrams the machine on
bytes is the machine on packets.

* `returns_recvBlock_decode` — handling the bytes of a well-sized datagram
  is `recvPacket` on the packet they hold.
* `run_act` — a run along well-sized datagrams runs the `Peer` inside on
  those packets, so what holds of every run of `Peer` holds of it.
* `decode_encode`, `sized_encode` — the datagrams of this protocol decode
  to the packets they were made from and are well sized, whatever the
  state of the receiver.
-/
import Training.Udp.ReceiverTheorems
import Training.Udp.WireTheorems

namespace Training.Udp

open Training.Lib

/-! ## The packets of the datagrams -/

theorem recvQueue_self {s : Rdt} {queue : List Packet} (h : s.recvQueue = queue) :
    { s with recvQueue := queue } = s := by
  rw [← h]

section Decode

variable {b : Block} (hb : b.Received) {queue : List Block} {s : Rdt}
  (hqueue : s.recvQueue = queue.map Block.decode)

include hb hqueue

theorem returns_push_decode (hinside : PushInside s b) :
    Returns (do
      let (s, wSize) ← pushBlock s b
      pure { rdt := s, queue, pushes := [(b, wSize)], returned := true })
      fun h : WireHandled => h.decode =
        { rdt := (pushToRecvBuff s b.decode).1
          pushes := [(b.decode, (pushToRecvBuff s b.decode).2)]
          returned := true } := by
  have hkeep := (pushToRecvBuff_recvQueue s b.decode).trans hqueue
  rw [returns_bind, returns_pushBlock s hb.size_ge]
  refine ⟨hinside, ?_⟩
  generalize pushToRecvBuff s b.decode = r at hkeep ⊢
  obtain ⟨s', wSize⟩ := r
  rw [returns_pure, WireHandled.decode, recvQueue_self hkeep]
  rfl

theorem returns_push_drain_decode (hinside : PushInside s b)
    (hkept : ∀ c ∈ queue, c.Kept) :
    Returns (do
      let (s, wSize) ← pushBlock s b
      let h ← drainBlocks queue
        { s with recvWndBase := SeqArith.uInt32.add s.recvWndBase 1 }
      pure { h with pushes := (b, wSize) :: h.pushes })
      fun h : WireHandled => h.decode =
        let (s, wSize) := pushToRecvBuff s b.decode
        let s := { s with recvWndBase := SeqArith.uInt32.add s.recvWndBase 1 }
        let h := drain .uInt32 s.recvQueue s
        { h with pushes := (b.decode, wSize) :: h.pushes } := by
  have hkeep := (pushToRecvBuff_recvQueue s b.decode).trans hqueue
  rw [returns_bind, returns_pushBlock s hb.size_ge]
  refine ⟨hinside, ?_⟩
  generalize pushToRecvBuff s b.decode = r at hkeep ⊢
  obtain ⟨s', wSize⟩ := r
  have hself := recvQueue_self
    (s := { s' with recvWndBase := SeqArith.uInt32.add s'.recvWndBase 1 }) hkeep
  have hdrain := returns_drainBlocks hkept
    { s' with recvWndBase := SeqArith.uInt32.add s'.recvWndBase 1 }
  rw [hself] at hdrain
  refine (returns_bind _ _).mpr (hdrain.mono ?_)
  rintro h ⟨hdecode, _⟩
  show ({ h.decode with pushes := (b.decode, wSize) :: h.decode.pushes } : Handled) = _
  rw [hdecode, ← hkeep]

omit hqueue in
theorem returns_copy_insert_decode (hfits : CopyFits b) (hkept : ∀ c ∈ queue, c.Kept) :
    Returns (do
      let tmpPkt ← b.copy (← b.loadInt offsetofPktSize)
      let queue ← seqInsertBlock tmpPkt queue
      pure { rdt := s, queue, pushes := [], returned := true })
      fun h : WireHandled => h.decode =
        { rdt := { s with
            recvQueue := seqInsertToList Packet.seq b.decode (queue.map Block.decode) }
          pushes := []
          returned := true } := by
  have hload : b.loadInt offsetofPktSize = .ok b.pktSize :=
    Block.loadInt_eq (Nat.le_trans (by decide) hb.size_ge)
  have hcopy := (kept_copy_iff hb.faithful hfits.range).mpr ⟨hfits.1, hfits.2.1⟩
  have hnonneg : 0 ≤ b.len := hfits.1.1
  have hinside := hfits.2.1
  simp only [hload, returns_bind, returns_ok, returns_copy, returns_pure]
  refine ⟨hfits.range, (returns_seqInsertBlock hcopy hkept).mono ?_⟩
  rintro queue' ⟨hmap, _⟩
  rw [WireHandled.decode, hmap, Block.decode_take hnonneg (by omega)]
  rfl

theorem returns_recvSendBlock_decode (now : Nat) (hkept : ∀ c ∈ queue, c.Kept)
    (hsized : SendSized s b) :
    Returns (recvSendBlock now s queue b) fun h =>
      h.decode = recvSend .uInt32 now s b.decode := by
  have hload : b.load offsetofSeq = .ok b.seq :=
    Block.load_eq (Nat.le_trans (by decide) hb.size_ge)
  have hseq : b.decode.seq = b.seq := rfl
  have hwindow : recvWindow .uInt32 (queueAck .uInt32 now s b.seq) b.seq
      = recvWindow .uInt32 s b.seq := rfl
  have hack : (queueAck .uInt32 now s b.seq).recvQueue = queue.map Block.decode := hqueue
  unfold SendSized at hsized
  rw [recvSendBlock, hload, returns_bind, returns_ok, recvSend, hseq]
  dsimp only
  rw [hwindow]
  cases hw : recvWindow .uInt32 s b.seq with
  | first =>
    rw [hw] at hsized
    exact returns_push_decode hb hack (PushFits.inside hsized hb)
  | discard =>
    show ({ rdt := { queueAck .uInt32 now s b.seq with recvQueue := _ }, pushes := _,
            returned := _ } : Handled) = _
    rw [recvQueue_self hack]
    rfl
  | inOrder =>
    rw [hw] at hsized
    exact returns_push_drain_decode hb hack (PushFits.inside hsized hb) hkept
  | ahead =>
    rw [hw] at hsized
    have hinsert := returns_copy_insert_decode (s := queueAck .uInt32 now s b.seq) hb
      hsized hkept
    rw [← hack] at hinsert
    exact hinsert

end Decode

theorem returns_recvDataBlock_decode {b : Block} (hb : b.Received) {queue : List Block}
    {s : Rdt} (hqueue : s.recvQueue = queue.map Block.decode) (now : Nat)
    (hkept : ∀ c ∈ queue, c.Kept) (hsized : DataSized s b) (hcmd : b.cmd ≠ .ack) :
    Returns (recvDataBlock now s queue b) fun h =>
      h.decode = recvPacket .uInt32 now s b.decode := by
  have hfield : b.decode.cmd = b.cmd := rfl
  unfold DataSized at hsized
  rw [recvDataBlock_eq now s hb.size_ge, recvPacket, hfield]
  cases hw : b.cmd with
  | ack => exact absurd hw hcmd
  | send =>
    rw [hw] at hsized
    exact returns_recvSendBlock_decode hb hqueue now hkept hsized
  | test =>
    rw [hw] at hsized
    exact returns_push_decode hb hqueue (PushFits.inside hsized hb)
  | null =>
    show ({ rdt := { s with recvQueue := _ }, pushes := _, returned := _ } : Handled) = _
    rw [recvQueue_self hqueue]
    rfl

theorem recvAck_recvQueue (ar : SeqArith) (s : Rdt) (ack : Nat) :
    (recvAck ar s ack).recvQueue = s.recvQueue := by
  cases h : ackAccepted s ack with
  | false => rw [recvAck_ignored h]
  | true =>
    obtain ⟨blame, retry, heq⟩ := recvAck_accepted ar h
    rw [heq, removeUnack_eq]

/-- Handling a well-sized datagram is handling its packet. -/
theorem returns_recvBlock_decode (now : Nat) {s : Rdt} {datagram : List UInt8}
    {queue : List Block} (hqueue : s.recvQueue = queue.map Block.decode)
    (hkept : ∀ c ∈ queue, c.Kept) (hsized : Sized s (recvBuff (packetLen s) datagram)) :
    Returns (recvBlock now s queue (recvBuff (packetLen s) datagram)) fun h =>
      h.decode = recvPacket .uInt32 now s (recvBuff (packetLen s) datagram).packet := by
  have hsize := size_recvBuff (packetLen s) datagram
  have hterminated := received_terminated s datagram
  generalize recvBuff (packetLen s) datagram = b at hsized hsize hterminated ⊢
  have hge : offsetofData ≤ b.size := by
    rw [hsize]
    exact Nat.le_trans (by decide : offsetofData ≤ sizeofPacket) (Nat.le_add_left _ _)
  rw [returns_recvBlock now s hge, hsize]
  by_cases hisAck : b.cmd = .ack
  · have hpacket : b.packet = b.decode := if_pos hisAck
    have hfield : b.decode.cmd = .ack := hisAck
    rw [if_pos hisAck, hpacket, recvPacket, hfield]
    show ({ rdt := { recvAck .uInt32 s b.ack with recvQueue := _ }, pushes := _,
            returned := _ } : Handled) = _
    rw [recvQueue_self ((recvAck_recvQueue _ _ _).trans hqueue)]
    rfl
  · obtain ⟨hlow, hhigh, hdata⟩ := hsized.resolve_left hisAck
    rw [if_neg hisAck]
    refine ⟨⟨hlow, hhigh⟩, ?_⟩
    by_cases hcmd : b.terminated.cmd = .ack
    · have hpacket : b.packet = { b.terminated.decode with cmd := .null } := by
        rw [Block.packet, if_neg hisAck, if_pos hcmd]
      rw [recvDataBlock_eq now s hterminated.size_ge, hcmd, hpacket]
      show ({ rdt := { s with recvQueue := _ }, pushes := _, returned := _ } : Handled) = _
      rw [recvQueue_self hqueue]
      rfl
    · have hpacket : b.packet = b.terminated.decode := by
        rw [Block.packet, if_neg hisAck, if_neg hcmd]
      rw [hpacket]
      exact returns_recvDataBlock_decode hterminated hqueue now hkept hdata hcmd

/-! ## Runs -/

/-- Safe, and the record and the copies agree. -/
structure WirePeer.Tracks (n : WirePeer) : Prop where
  safe : n.Safe
  queue : n.peer.rdt.recvQueue = n.queue.map Block.decode

theorem WirePeer.step_peer {n : WirePeer} (hn : n.Tracks) {a : WireAct}
    (ha : WellSized n a) :
    (n.step a).peer = n.peer.step .uInt32 (n.act a) ∧
      (n.step a).peer.rdt.recvQueue = (n.step a).queue.map Block.decode := by
  have hfault : ¬ n.fault.isSome := by simp [hn.safe.noFault]
  unfold WirePeer.step
  rw [if_neg hfault]
  cases a with
  | op o =>
    refine ⟨rfl, ?_⟩
    show (n.peer.step .uInt32 (.op o)).rdt.recvQueue = _
    rw [Peer.step_op]
    split
    · exact hn.queue
    · exact (congrArg RecvWindow.queue (recvView_stepOp .uInt32 n.peer o)).trans hn.queue
  | recv datagram now =>
    dsimp only [WirePeer.act]
    rw [Peer.step_recv]
    by_cases hreceives : n.receives
    · obtain ⟨hexited, hspinning⟩ : n.peer.exited = false ∧ n.peer.spinning = false := by
        simpa [WirePeer.receives] using hreceives
      obtain ⟨h, hok, hdecode⟩ := returns_iff.mp
        (returns_recvBlock_decode now hn.queue hn.safe.kept (ha hreceives))
      rw [if_pos hreceives, hexited, hspinning, WirePeer.recv, WirePeer.recvBuff, hok]
      refine ⟨?_, rfl⟩
      show _ = n.peer.recv .uInt32 _ now
      rw [Peer.recv, ← hdecode]
    · rw [if_neg hreceives]
      refine ⟨?_, hn.queue⟩
      cases hexited : n.peer.exited with
      | true => rfl
      | false =>
        have hspinning : n.peer.spinning = true := by
          simpa [WirePeer.receives, hexited] using hreceives
        rw [hspinning]
        rfl

theorem WirePeer.tracks_step {n : WirePeer} (hn : n.Tracks) {a : WireAct}
    (ha : WellSized n a) : (n.step a).Tracks :=
  ⟨(WirePeer.safe_step_iff hn.safe a).mpr ha, (WirePeer.step_peer hn ha).2⟩

theorem WirePeer.tracks_init (cfg : Config) (seq0 : Nat) :
    (WirePeer.init cfg seq0).Tracks :=
  ⟨WirePeer.safe_init cfg seq0, rfl⟩

/-- Along well-sized datagrams the peer on bytes is the peer on the
packets they hold. -/
theorem peer_of_wellSized (cfg : Config) (seq0 : Nat) {acts : List WireAct}
    (h : Along WirePeer.step WellSized (WirePeer.init cfg seq0) acts) :
    (WirePeer.after cfg seq0 acts).peer =
      Peer.after .uInt32 cfg seq0
        (trace WirePeer.step WirePeer.act (WirePeer.init cfg seq0) acts) :=
  run_simulation (f := WirePeer.peer) (I := WirePeer.Tracks)
    (fun _ _ hn ha => WirePeer.tracks_step hn ha)
    (fun _ _ hn ha => (WirePeer.step_peer hn ha).1) h (WirePeer.tracks_init cfg seq0)

/-! ## The datagrams of this protocol -/

/-- The fields fit the words they are written to, and the payload the
largest one `flush_buffer` takes. -/
structure Packet.Fits (mtu : Nat) (p : Packet) : Prop where
  seq : p.seq < uInt32Size
  ack : p.ack < uInt32Size
  ts : p.ts < uInt32Size
  len : p.len ≤ mtu
  pktSize : 2 * (sizeofPacket + p.len) < uInt32Size

theorem cmdOfWire_cmdToWire (cmd : Cmd) : cmdOfWire (cmdToWire cmd) = cmd := by
  cases cmd <;> rfl

theorem intOfWire_of_lt {n : Nat} (h : 2 * n < uInt32Size) : intOfWire n = n :=
  Int.bmod_eq_of_le_mul_two (by omega) (by omega)

theorem length_header (seq cmd pktSize len ack ts : Nat) :
    (header seq cmd pktSize len ack ts).length = offsetofData :=
  length_flatMap_toBytesLE 4 _

theorem length_encode (p : Packet) : p.encode.length = sizeofPacket + p.len := by
  simp only [Packet.encode, List.length_append, length_header, List.length_replicate,
    Packet.len]
  simp only [sizeofPacket, offsetofData]
  omega

theorem Block.cmd_decode (b : Block) : b.decode.cmd = b.cmd := rfl

section Encode

variable {s : Rdt} {p : Packet} (hp : p.Fits s.mtu)

include hp

theorem datagram_encode : (recvBuff (packetLen s) p.encode).datagram = p.encode := by
  have hlen := hp.len
  refine List.take_of_length_le ?_
  rw [length_encode, packetLen]
  omega

theorem bytes_encode :
    (recvBuff (packetLen s) p.encode).bytes =
      header p.seq (cmdToWire p.cmd) (sizeofPacket + p.len) p.len p.ack p.ts ++
        (p.data ++ (List.replicate (sizeofPacket - offsetofData) 0 ++
          List.replicate (packetLen s - p.encode.length) 0)) := by
  have hdatagram := datagram_encode hp
  show (recvBuff (packetLen s) p.encode).datagram ++ _ = _
  rw [hdatagram]
  nth_rewrite 1 [Packet.encode]
  rw [List.append_assoc, List.append_assoc]

/-- The words of `recv_buff` are the ones of the header. -/
theorem word_encode (i : Nat) (hi : i < 13)
    (h : [0, 0, 0, 0, p.seq, cmdToWire p.cmd, sizeofPacket + p.len, p.len, p.ack, p.ts,
      0, 0, 0][i] < uInt32Size) :
    (recvBuff (packetLen s) p.encode).word (4 * i) =
      [0, 0, 0, 0, p.seq, cmdToWire p.cmd, sizeofPacket + p.len, p.len, p.ack, p.ts,
        0, 0, 0][i] := by
  have hsize : (256 : Nat) ^ 4 = uInt32Size := by decide
  rw [Block.word, bytes_encode hp]
  exact wordAt_flatMap hi (by rw [hsize]; exact h) _

theorem len_encode : (recvBuff (packetLen s) p.encode).len = p.len := by
  have hpktSize := hp.pktSize
  rw [Block.len, ← intOfWire_of_lt (by omega : 2 * p.len < uInt32Size)]
  exact congrArg intOfWire (word_encode hp 7 (by decide) (by show p.len < _; omega))

theorem pktSize_encode :
    (recvBuff (packetLen s) p.encode).pktSize = (sizeofPacket + p.len : Nat) := by
  have hpktSize := hp.pktSize
  rw [Block.pktSize, ← intOfWire_of_lt hpktSize]
  exact congrArg intOfWire (word_encode hp 6 (by decide) (by show sizeofPacket + p.len < _; omega))

theorem cmd_encode : (recvBuff (packetLen s) p.encode).cmd = p.cmd := by
  have hlt : cmdToWire p.cmd < uInt32Size := by
    cases p.cmd <;> decide
  rw [← cmdOfWire_cmdToWire p.cmd]
  exact congrArg cmdOfWire (word_encode hp 5 (by decide) hlt)

/-- The block holds the packet it was made from. -/
theorem decode_encode : (recvBuff (packetLen s) p.encode).decode = p := by
  have hseq : (recvBuff (packetLen s) p.encode).seq = p.seq :=
    word_encode hp 4 (by decide) hp.seq
  have hack : (recvBuff (packetLen s) p.encode).ack = p.ack :=
    word_encode hp 8 (by decide) hp.ack
  have hts : (recvBuff (packetLen s) p.encode).ts = p.ts :=
    word_encode hp 9 (by decide) hp.ts
  have hdata : (recvBuff (packetLen s) p.encode).slice offsetofData p.len = p.data := by
    rw [Block.slice, bytes_encode hp, List.drop_left' (length_header _ _ _ _ _ _)]
    exact List.take_left' rfl
  rw [Block.decode, hseq, cmd_encode hp, hack, hts, len_encode hp, Int.toNat_natCast, hdata]

theorem packet_encode : (recvBuff (packetLen s) p.encode).packet = p := by
  have hdecode := decode_encode hp
  rw [Block.packet]
  split
  · exact hdecode
  · rename_i hcmd
    have hterminated : (recvBuff (packetLen s) p.encode).terminated.decode = p := by
      rw [Block.terminated, if_neg hcmd, Block.decode_put]
      · exact hdecode
      · rw [len_encode hp]
        omega
    have hfield : (recvBuff (packetLen s) p.encode).terminated.cmd = p.cmd := by
      rw [← Block.cmd_decode, hterminated]
    rw [cmd_encode hp] at hcmd
    rw [if_neg (by rw [hfield]; exact hcmd), hterminated]

/-- The sizes in a datagram of this protocol are right for every receiver
that knows the unit of transmission. -/
theorem sized_encode : Sized s (recvBuff (packetLen s) p.encode) := by
  have hlen := len_encode hp
  have hle := hp.len
  have hdata : offsetofData = 52 := rfl
  have hpacket : sizeofPacket = 56 := rfl
  rw [Sized, hlen]
  by_cases hisAck : (recvBuff (packetLen s) p.encode).cmd = .ack
  · exact .inl hisAck
  · refine .inr ⟨by omega, by rw [packetLen]; omega, ?_⟩
    have hlent : (recvBuff (packetLen s) p.encode).terminated.len = p.len := by
      rw [Block.terminated, if_neg hisAck, Block.len_put 0 (by rw [hlen]; omega), hlen]
    have hpktSize : (recvBuff (packetLen s) p.encode).terminated.pktSize
        = (sizeofPacket + p.len : Nat) := by
      rw [Block.terminated, if_neg hisAck, Block.pktSize_put 0 (by rw [hlen]; omega),
        pktSize_encode hp]
    have hdatagram : (recvBuff (packetLen s) p.encode).terminated.datagram = p.encode := by
      rw [Block.terminated, if_neg hisAck, Block.datagram_put, datagram_encode hp]
    have hsize : (recvBuff (packetLen s) p.encode).terminated.size = packetLen s := by
      rw [Block.terminated, if_neg hisAck, Block.size_put, size_recvBuff]
    have hcarries : ∀ n : Int, 0 ≤ n → n ≤ p.len →
        (recvBuff (packetLen s) p.encode).terminated.Carries n := by
      intro n hnonneg hn
      refine ⟨hnonneg, .inr ?_⟩
      rw [hdatagram, length_encode]
      omega
    have hpush : PushFits s (recvBuff (packetLen s) p.encode).terminated := by
      refine .inr (hcarries _ ?_ ?_)
      · rw [hlent]
        omega
      · rw [hlent]
        omega
    have hcopy : CopyFits (recvBuff (packetLen s) p.encode).terminated := by
      refine ⟨hcarries _ (by rw [hlent]; omega) (by rw [hlent]), ?_, ?_⟩
      · rw [hlent, hpktSize]
        omega
      · rw [hpktSize, hsize, packetLen]
        omega
    rw [DataSized]
    split
    · rw [SendSized]
      split
      · exact hpush
      · exact hpush
      · trivial
      · exact hcopy
    · exact hpush
    · trivial

end Encode

end Training.Udp
