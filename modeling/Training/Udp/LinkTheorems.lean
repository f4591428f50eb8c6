/-
Training.Udp.LinkTheorems — the two ends of a connection together.

Wrap-around. Before a sequence number reaches the top of `u_int32_t` the
code's link and the link on unbounded numbers are the same machine, step
by step and decision by decision (`lockStep`). At the top they part: the
window test compares with `>` a bound that wraps to 0.

Delivery. `Link.Inv` joins the two sides: what the receiver has handled
was made by the sender, with the number and the payload it was made
with, and what the receiver has pushed is consecutive from the first
packet it handled. If that first packet is the first one the sender made
(`Link.StartsAt`), the bytes written are a prefix of the bytes accepted
(`written_prefix`). Nothing in the protocol makes it so: the receiver
takes whichever packet arrives first for the start of the stream.
-/
import Training.Udp.Link
import Training.Udp.ReceiverTheorems
import Training.Udp.SenderTheorems
import Training.Udp.StreamTheorems

namespace Training.Udp

open Training.Lib

/-! ## Before the wrap-around -/

theorem decision_uInt32_eq (n : Peer) (a : Act) (h : NoWrap n a) :
    n.decision .uInt32 a = n.decision .unbounded a := by
  unfold Peer.decision
  split
  · rfl
  · cases a with
    | op o =>
      cases o with
      | flushBuffer now =>
        simp only
        rw [flushBufferIter_uInt32_eq h]
      | _ => rfl
    | recv p now =>
      simp only
      split
      · rfl
      · cases hcmd : p.cmd with
        | send =>
          simp only
          rw [recvPacket_uInt32_eq h, recvWindow_uInt32_eq (h.2.2.1 hcmd)]
        | _ => rfl

theorem decision_of_not_running {n : Peer} {a : Act} (ar : SeqArith) (h : ¬ n.Running a) :
    n.decision ar a = .other := by
  unfold Peer.decision
  split
  · rfl
  · rename_i hexited
    cases a with
    | op o => exact absurd (Bool.eq_false_of_not_eq_true hexited) h
    | recv p now =>
      have hspinning : n.spinning = true := by
        by_contra hspinning
        exact h ⟨by simpa using hexited, by simpa using hspinning⟩
      exact if_pos hspinning

/-- One step of a peer of the link: a step without an effect needs nothing. -/
theorem running_uInt32_eq (n : Peer) (a : Act) (h : n.Running a → NoWrap n a) :
    n.step .uInt32 a = n.step .unbounded a ∧
      n.decision .uInt32 a = n.decision .unbounded a := by
  by_cases hrunning : n.Running a
  · exact ⟨step_uInt32_eq n a (h hrunning), decision_uInt32_eq n a (h hrunning)⟩
  · rw [Peer.step_of_not_running hrunning, Peer.step_of_not_running hrunning,
      decision_of_not_running _ hrunning, decision_of_not_running _ hrunning]
    exact ⟨rfl, rfl⟩

theorem linkStep_uInt32_eq (l : Link) (a : LinkAct) (h : l.NoWrap a) :
    l.step .uInt32 a = l.step .unbounded a := by
  unfold Link.NoWrap at h
  unfold Link.step
  split
  · rfl
  · rename_i side b hresolve
    rw [hresolve] at h
    have hstep := (running_uInt32_eq (l.peer side) b h).1
    cases side with
    | snd => exact congrArg (fun n => { l with snd := n }) hstep
    | rcv => exact congrArg (fun n => { l with rcv := n }) hstep

theorem linkDecision_uInt32_eq (l : Link) (a : LinkAct) (h : l.NoWrap a) :
    l.decision .uInt32 a = l.decision .unbounded a := by
  unfold Link.NoWrap at h
  unfold Link.decision
  split
  · rfl
  · rename_i side b hresolve
    rw [hresolve] at h
    exact (running_uInt32_eq (l.peer side) b h).2

/-- Lock-step simulation: in a run in which no sequence-number addition
reaches the word size, the code decides in every step what the machine on
unbounded numbers decides, and it ends in the same state. -/
theorem lockStep (cfg : Config) (seqS seqR : Nat) (acts : List LinkAct)
    (h : Along (Link.step .uInt32) Link.NoWrap (Link.init cfg seqS seqR) acts) :
    trace (Link.step .uInt32) (Link.decision .uInt32) (Link.init cfg seqS seqR) acts =
        trace (Link.step .unbounded) (Link.decision .unbounded) (Link.init cfg seqS seqR) acts ∧
      Link.after .uInt32 cfg seqS seqR acts = Link.after .unbounded cfg seqS seqR acts :=
  ⟨trace_congr linkStep_uInt32_eq linkDecision_uInt32_eq h, run_congr linkStep_uInt32_eq h⟩

/-- One packet made, sent, delivered and acknowledged. -/
def oneRoundTrip : List LinkAct :=
  [.op .snd (.rdtSend [10]), .op .snd (.flushBuffer 0), .op .snd .flushQueue,
    .deliver .rcv 0 0, .op .rcv .flushQueue, .deliver .snd 0 0]

theorem lockStep_oneRoundTrip :
    trace (Link.step .uInt32) (Link.decision .uInt32) (Link.init protocolConfig 1 1)
          oneRoundTrip =
        trace (Link.step .unbounded) (Link.decision .unbounded) (Link.init protocolConfig 1 1)
          oneRoundTrip ∧
      Link.after .uInt32 protocolConfig 1 1 oneRoundTrip =
        Link.after .unbounded protocolConfig 1 1 oneRoundTrip :=
  lockStep protocolConfig 1 1 oneRoundTrip (by decide +kernel)

/-- Three packets for the sender, none of them sent yet. -/
def threeMade : List LinkAct :=
  [.op .snd (.rdtSend [10]), .op .snd (.flushBuffer 0), .op .snd (.rdtSend [20]),
    .op .snd (.flushBuffer 0), .op .snd (.rdtSend [30]), .op .snd (.flushBuffer 0)]

/-- With the last `u_int32_t` for the initial number, the window's last
number wraps to 0 and the first packet is blocked for good. One number
earlier the counter wraps to 0 after the first packet, and from then on
the window is open whatever is in flight. -/
theorem not_lockStep :
    trace (Link.step .uInt32) (Link.decision .uInt32)
        (Link.init protocolConfig 4294967295 1) (threeMade.take 2) = [.other, .blocked] ∧
    trace (Link.step .unbounded) (Link.decision .unbounded)
        (Link.init protocolConfig 4294967295 1) (threeMade.take 2)
      = [.other, .admitted [10]] ∧
    trace (Link.step .uInt32) (Link.decision .uInt32)
        (Link.init protocolConfig 4294967294 1) threeMade
      = [.other, .admitted [10], .other, .admitted [20], .other, .admitted [30]] ∧
    trace (Link.step .unbounded) (Link.decision .unbounded)
        (Link.init protocolConfig 4294967294 1) threeMade
      = [.other, .admitted [10], .other, .admitted [20], .other, .blocked] := by
  decide +kernel

/-! ## Consecutive packets -/

/-- Packets numbered from `first` that all occur among the consecutive
packets `made` from `first` carry what the first of those carry. -/
theorem flatMap_data_prefix {made pushed : List Packet} {first k n : Nat}
    (hmade : made.map Packet.seq = List.range' first n)
    (hpushed : pushed.map Packet.seq = List.range' first k)
    (hsame : ∀ p ∈ pushed, ∃ m ∈ made, m.seq = p.seq ∧ m.data = p.data) :
    pushed.flatMap Packet.data <+: made.flatMap Packet.data := by
  induction pushed generalizing made first k n with
  | nil => exact List.nil_prefix
  | cons p pushed ih =>
    cases k with
    | zero => exact nomatch hpushed
    | succ k =>
      rw [List.map_cons, List.range'_succ] at hpushed
      obtain ⟨hp, hrest⟩ := List.cons.inj hpushed
      obtain ⟨m, hm, hseq, hdata⟩ := hsame p List.mem_cons_self
      cases made with
      | nil => exact absurd hm List.not_mem_nil
      | cons m0 made =>
        cases n with
        | zero => exact nomatch hmade
        | succ n =>
          rw [List.map_cons, List.range'_succ] at hmade
          obtain ⟨hm0, hmade⟩ := List.cons.inj hmade
          -- what is made after the first packet has a greater number
          have hafter : ∀ m' ∈ made, first + 1 ≤ m'.seq := by
            intro m' hm'
            have : m'.seq ∈ List.range' (first + 1) n := hmade ▸ List.mem_map_of_mem hm'
            exact (List.mem_range'_1.mp this).1
          have heq : m = m0 := by
            rcases List.mem_cons.mp hm with heq | hm
            · exact heq
            · have := hafter m hm
              omega
          have htail := ih hmade hrest fun q hq => by
            obtain ⟨m', hm', hseq', hdata'⟩ := hsame q (List.mem_cons_of_mem _ hq)
            have hq' : q.seq ∈ List.range' (first + 1) k := hrest ▸ List.mem_map_of_mem hq
            have hle := (List.mem_range'_1.mp hq').1
            rcases List.mem_cons.mp hm' with rfl | hm'
            · omega
            · exact ⟨m', hm', hseq', hdata'⟩
          rw [List.flatMap_cons, List.flatMap_cons, ← hdata, heq]
          exact List.prefix_append_right_inj _ |>.mpr htail

/-! ## The joint invariant -/

structure Link.Inv (cfg : Config) (seqS : Nat) (l : Link) : Prop where
  send : l.snd.SendInv cfg seqS
  streams : l.snd.Streams
  recv : l.rcv.recvView.Inv
  handled : ∀ p ∈ l.rcv.handled, l.snd.Made p
  first : l.rcv.handled ≠ [] → l.rcv.firstSeq = seqS

theorem linkInv_init (cfg : Config) (seqS seqR : Nat) :
    (Link.init cfg seqS seqR).Inv cfg seqS where
  send := sendInv_init cfg seqS
  streams := streams_init cfg seqS
  recv := recvInv_init cfg seqR
  handled := by simp [Link.init, Peer.init]
  first := fun h => absurd rfl h

variable {cfg : Config} {seqS : Nat} {l : Link}

/-- A step of the sender. -/
theorem linkInv_snd (h : l.Inv cfg seqS) (a : Act) :
    (l.stepAt .unbounded .snd a).Inv cfg seqS where
  send := sendInv_step h.send a
  streams := streams_step .unbounded h.streams a
  recv := h.recv
  handled := fun p hp => (h.handled p hp).mono (made_step_subset .unbounded l.snd a)
  first := h.first

/-- A step of the receiver handles no packet, or one that the sender
sent. -/
theorem handled_step (n : Peer) (a : Act) :
    (n.step .unbounded a).handled = n.handled ∨
      ∃ p now, a = .recv p now ∧ p.cmd = .send ∧ n.exited = false ∧
        (n.step .unbounded a).handled = n.handled ++ [p] := by
  cases a with
  | op o =>
    refine Or.inl ?_
    rw [Peer.step_op]
    split
    · rfl
    · exact congrArg RecvWindow.handled (recvView_stepOp .unbounded n o)
  | recv p now =>
    rw [Peer.step_recv]
    split_ifs with hexited hspin
    · exact Or.inl rfl
    · exact Or.inl rfl
    · by_cases hcmd : p.cmd = .send
      · refine Or.inr ⟨p, now, rfl, hcmd, by simpa using hexited, ?_⟩
        simp only [Peer.recv, hcmd, if_true]
      · exact Or.inl (congrArg RecvWindow.handled
          (recvView_recv_of_ne .unbounded n now hcmd))

theorem linkInv_rcv (h : l.Inv cfg seqS) (a : Act)
    (hsent : ∀ p now, a = .recv p now → p ∈ l.snd.sent)
    (hstart : ∀ p now, a = .recv p now → p.cmd = .send → l.rcv.exited = false →
      l.rcv.rdt.recvWndBase = 0 → p.seq = seqS) :
    (l.stepAt .unbounded .rcv a).Inv cfg seqS := by
  have hrecv := recvInv_step h.recv a
  rcases handled_step l.rcv a with hsame | ⟨p, now, ha, hcmd, hexited, hnew⟩
  · exact
      { send := h.send
        streams := h.streams
        recv := hrecv
        handled := fun p hp => h.handled p (hsame ▸ hp)
        first := by
          simp only [Link.stepAt, Peer.firstSeq, hsame]
          exact h.first }
  · refine ⟨h.send, h.streams, hrecv, ?_, fun _ => ?_⟩
    · intro q hq
      simp only [Link.stepAt, hnew] at hq
      rcases List.mem_append.mp hq with hq | hq
      · exact h.handled q hq
      · rw [List.mem_singleton.mp hq]
        exact h.streams.sent p (hsent p now ha) hcmd
    · simp only [Link.stepAt, Peer.firstSeq, hnew]
      by_cases hnil : l.rcv.handled = []
      · have hbase : l.rcv.rdt.recvWndBase = 0 := h.recv.started.mpr hnil
        simpa [hnil] using hstart p now ha hcmd hexited hbase
      · rw [RecvWindow.head?_append_singleton hnil]
        exact h.first hnil

theorem linkInv_step (h : l.Inv cfg seqS) {a : LinkAct} (hstart : l.StartsAt seqS a) :
    (l.step .unbounded a).Inv cfg seqS := by
  unfold Link.StartsAt at hstart
  unfold Link.step
  cases hresolve : l.resolve a with
  | none => exact h
  | some e =>
    obtain ⟨side, b⟩ := e
    rw [hresolve] at hstart
    cases side with
    | snd => exact linkInv_snd h b
    | rcv =>
      refine linkInv_rcv h b ?_ ?_
      · rintro p now rfl
        cases a with
        | op side o => simp [Link.resolve] at hresolve
        | deliver side place now =>
          simp only [Link.resolve, Option.map_eq_some_iff, Prod.mk.injEq] at hresolve
          obtain ⟨q, hq, rfl, hact⟩ := hresolve
          rw [(Act.recv.inj hact).1] at hq
          exact List.mem_of_getElem? hq
      · rintro p now rfl
        exact hstart

/-! ## Delivery -/

/-- The bytes written are a prefix of the bytes accepted, as far as every
push found room. -/
theorem Link.Inv.writtenSend_prefix (h : l.Inv cfg seqS) (hfull : l.rcv.NeverFull) :
    l.rcv.writtenSend <+: l.snd.accepted := by
  have hwritten : l.rcv.writtenSend = l.rcv.recvView.pushed.flatMap Packet.data := by
    simp only [Peer.writtenSend, Peer.recvView, sendPushes, List.flatMap_map]
    refine List.flatMap_congr fun e he => ?_
    rw [hfull e (List.mem_of_mem_filter he), Packet.len, List.take_length]
  have hpushed : ∀ p ∈ l.rcv.recvView.pushed, l.snd.Made p := fun p hp =>
    h.handled p (h.recv.pushed_handled p hp)
  have hprefix : l.rcv.recvView.pushed.flatMap Packet.data
      <+: l.snd.made.flatMap Packet.data := by
    by_cases hnil : l.rcv.handled = []
    · have hnone : l.rcv.recvView.pushed = [] := by
        refine List.eq_nil_iff_forall_not_mem.mpr fun p hp => ?_
        have : p ∈ l.rcv.handled := h.recv.pushed_handled p hp
        rw [hnil] at this
        exact List.not_mem_nil this
      rw [hnone]
      exact List.nil_prefix
    · have hfirst : l.rcv.recvView.first = seqS := h.first hnil
      have horder := h.recv.order
      rw [hfirst] at horder
      exact flatMap_data_prefix h.send.1.made horder hpushed
  rw [hwritten, ← h.streams.accepted]
  exact hprefix.trans (List.prefix_append _ _)

/-- Reliable, ordered delivery: over a network that loses, duplicates,
delays and reorders, the bytes written for SEND packets are at every
moment a prefix of the bytes accepted, in every run whose receiver
handles the sender's first packet first. -/
theorem written_prefix (cfg : Config) (seqS seqR : Nat) (acts : List LinkAct)
    (hwrap : Along (Link.step .uInt32) Link.NoWrap (Link.init cfg seqS seqR) acts)
    (hstart : Along (Link.step .uInt32) (Link.StartsAt seqS) (Link.init cfg seqS seqR) acts)
    (hfull : (Link.after .uInt32 cfg seqS seqR acts).rcv.NeverFull) :
    (Link.after .uInt32 cfg seqS seqR acts).rcv.writtenSend <+:
      (Link.after .uInt32 cfg seqS seqR acts).snd.accepted := by
  have hrun : Link.after .uInt32 cfg seqS seqR acts = Link.after .unbounded cfg seqS seqR acts :=
    run_congr linkStep_uInt32_eq hwrap
  have hinv : (Link.after .unbounded cfg seqS seqR acts).Inv cfg seqS :=
    run_invariant (I := Link.Inv cfg seqS) (fun _ _ h ha => linkInv_step h ha)
      ((along_congr linkStep_uInt32_eq hwrap).mp hstart) (linkInv_init cfg seqS seqR)
  rw [hrun] at hfull ⊢
  exact hinv.writtenSend_prefix hfull

/-- Two packets made and sent. -/
def twoSent : List LinkAct :=
  [.op .snd (.rdtSend [10]), .op .snd (.flushBuffer 0), .op .snd (.rdtSend [20]),
    .op .snd (.flushBuffer 0), .op .snd .flushQueue, .op .snd .flushQueue]

/-- The first arrives twice, the second once. -/
theorem written_prefix_duplicated :
    let l := Link.after .uInt32 protocolConfig 1 1
      (twoSent ++ [.deliver .rcv 0 0, .deliver .rcv 0 0, .deliver .rcv 1 0])
    l.rcv.writtenSend <+: l.snd.accepted :=
  written_prefix protocolConfig 1 1 _ (by decide +kernel) (by decide +kernel)
    (by decide +kernel)

/-- The second arrives first: the stream starts with its payload. -/
theorem written_reordered :
    let acts := twoSent ++ [.deliver .rcv 1 0, .deliver .rcv 0 0]
    let l := Link.after .uInt32 protocolConfig 1 1 acts
    Along (Link.step .uInt32) Link.NoWrap (Link.init protocolConfig 1 1) acts ∧
      l.rcv.NeverFull ∧ l.snd.accepted = [10, 20] ∧ l.rcv.writtenSend = [20] ∧
      ¬ l.rcv.writtenSend <+: l.snd.accepted := by
  decide +kernel

end Training.Udp
