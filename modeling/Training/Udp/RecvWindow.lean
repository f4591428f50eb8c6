/-
Training.Udp.RecvWindow — the receive side as a window of numbers.

A `RecvWindow` is what remains of a connection when of the receive side
only the base, the reorder queue and the packets handled and pushed are
kept; how much of a packet found room in `recv_buffer` is left out.
`Handle w p w'` says what the handling of a SEND packet `p` can do: it
starts the window, it is discarded, it is delivered together with a run
of consecutive packets from the queue, or it is buffered.

Two things are proved here. `Inv`: whatever arrives, the packets pushed
are the ones from the first number to the base, each once and in order.
`WellFormed`: the queue is strictly increasing and inside the window;
that is kept exactly by the packets that are not in the queue already
(`wellFormed_handle_iff`).
-/
import Training.Udp.ListTheorems

namespace Training.Udp

structure RecvWindow where
  wnd : Nat
  base : Nat
  queue : List Packet
  handled : List Packet
  pushed : List Packet

namespace RecvWindow

/-- The number of the first packet handled. -/
def first (w : RecvWindow) : Nat := (w.handled.head?.map Packet.seq).getD 0

def queueSeqs (w : RecvWindow) : List Nat := w.queue.map Packet.seq

def start (w : RecvWindow) (p : Packet) : RecvWindow :=
  { w with base := p.seq + 1, handled := w.handled ++ [p], pushed := w.pushed ++ [p] }

def discard (w : RecvWindow) (p : Packet) : RecvWindow :=
  { w with handled := w.handled ++ [p] }

/-- `p` and the packets `taken` off the queue are delivered. -/
def deliver (w : RecvWindow) (p : Packet) (taken rest : List Packet) : RecvWindow :=
  { w with
    base := w.base + 1 + taken.length
    queue := rest
    handled := w.handled ++ [p]
    pushed := w.pushed ++ p :: taken }

def buffer (w : RecvWindow) (p : Packet) : RecvWindow :=
  { w with
    queue := seqInsertToList Packet.seq p w.queue
    handled := w.handled ++ [p] }

/-- The handling of a SEND packet. -/
inductive Handle (w : RecvWindow) (p : Packet) : RecvWindow → Prop where
  | start (hbase : w.base = 0) : Handle w p (w.start p)
  | discard (hbase : w.base ≠ 0) (hout : p.seq < w.base ∨ w.base + w.wnd < p.seq) :
      Handle w p (w.discard p)
  | deliver (hbase : w.base ≠ 0) (hseq : p.seq = w.base) (taken rest : List Packet)
      (hqueue : w.queue = taken ++ rest)
      (htaken : taken.map Packet.seq = List.range' (w.base + 1) taken.length)
      (hstop : ∀ r ∈ rest.head?, r.seq ≠ w.base + 1 + taken.length) :
      Handle w p (w.deliver p taken rest)
  | buffer (hbase : w.base ≠ 0) (hlt : w.base < p.seq) (hle : p.seq ≤ w.base + w.wnd) :
      Handle w p (w.buffer p)

variable {w w' : RecvWindow} {p : Packet}

/-! ## In order and once -/

structure Inv (w : RecvWindow) : Prop where
  handled_send : ∀ p ∈ w.handled, p.cmd = .send
  queue_handled : ∀ p ∈ w.queue, p ∈ w.handled
  pushed_handled : ∀ p ∈ w.pushed, p ∈ w.handled
  started : w.base = 0 ↔ w.handled = []
  first_le : w.first ≤ w.base
  order : w.pushed.map Packet.seq = List.range' w.first (w.base - w.first)

theorem inv_empty (wnd : Nat) : Inv ⟨wnd, 0, [], [], []⟩ where
  handled_send := by simp
  queue_handled := by simp
  pushed_handled := by simp
  started := by simp
  first_le := Nat.le_refl _
  order := rfl

theorem Inv.queue_eq_nil (h : w.Inv) (hbase : w.base = 0) : w.queue = [] := by
  refine List.eq_nil_iff_forall_not_mem.mpr fun r hr => ?_
  have := h.queue_handled r hr
  rw [h.started.mp hbase] at this
  exact List.not_mem_nil this

theorem Inv.handled_ne_nil (h : w.Inv) (hbase : w.base ≠ 0) : w.handled ≠ [] :=
  fun hnil => hbase (h.started.mpr hnil)

/-- Once there is a first packet, it stays the first. -/
theorem head?_append_singleton {l : List Packet} (hne : l ≠ []) (p : Packet) :
    (l ++ [p]).head? = l.head? :=
  List.head?_append_of_ne_nil l hne

theorem inv_start (h : w.Inv) (hbase : w.base = 0) (hcmd : p.cmd = .send) :
    (w.start p).Inv := by
  have hnil := h.started.mp hbase
  have hpushed : w.pushed = [] := by
    refine List.eq_nil_iff_forall_not_mem.mpr fun r hr => ?_
    have := h.pushed_handled r hr
    rw [hnil] at this
    exact List.not_mem_nil this
  have hfirst : (w.start p).first = p.seq := by simp [first, start, hnil]
  exact
    { handled_send := by simp [start, hnil, hcmd]
      queue_handled := by simp [start, h.queue_eq_nil hbase]
      pushed_handled := by simp [start, hpushed]
      started := by simp [start]
      first_le := by
        rw [hfirst]
        exact Nat.le_succ _
      order := by
        rw [hfirst]
        simp [start, hpushed] }

/-- Packets handled later leave the invariant as it is, whatever they do
to the queue. -/
theorem inv_handled (h : w.Inv) (hbase : w.base ≠ 0) (hcmd : p.cmd = .send)
    {queue : List Packet} (hqueue : ∀ r ∈ queue, r = p ∨ r ∈ w.queue) :
    Inv { w with queue, handled := w.handled ++ [p] } := by
  have hne := h.handled_ne_nil hbase
  have hfirst : first { w with queue, handled := w.handled ++ [p] } = w.first := by
    simp only [first, head?_append_singleton hne]
  exact
    { handled_send := by
        intro r hr
        rcases List.mem_append.mp hr with hr | hr
        · exact h.handled_send r hr
        · rw [List.mem_singleton.mp hr]
          exact hcmd
      queue_handled := by
        intro r hr
        rcases hqueue r hr with rfl | hr
        · simp
        · exact List.mem_append_left _ (h.queue_handled r hr)
      pushed_handled := fun r hr => List.mem_append_left _ (h.pushed_handled r hr)
      started := by simp [hbase]
      first_le := by
        rw [hfirst]
        exact h.first_le
      order := by
        rw [hfirst]
        exact h.order }

theorem inv_deliver (h : w.Inv) (hbase : w.base ≠ 0) (hcmd : p.cmd = .send)
    (hseq : p.seq = w.base) {taken rest : List Packet} (hqueue : w.queue = taken ++ rest)
    (htaken : taken.map Packet.seq = List.range' (w.base + 1) taken.length) :
    (w.deliver p taken rest).Inv := by
  have hleft : Inv { w with queue := rest, handled := w.handled ++ [p] } :=
    inv_handled h hbase hcmd fun r hr => Or.inr (by rw [hqueue]; exact List.mem_append_right _ hr)
  have hle := h.first_le
  have hfirst : (w.deliver p taken rest).first = w.first := by
    simp only [first, deliver, head?_append_singleton (h.handled_ne_nil hbase)]
  exact
    { handled_send := hleft.handled_send
      queue_handled := hleft.queue_handled
      pushed_handled := by
        intro r hr
        simp only [deliver] at hr ⊢
        rcases List.mem_append.mp hr with hr | hr
        · exact hleft.pushed_handled r hr
        · rcases List.mem_cons.mp hr with rfl | hr
          · simp
          · have : r ∈ w.queue := by rw [hqueue]; exact List.mem_append_left _ hr
            exact List.mem_append_left _ (h.queue_handled r this)
      started := by simp [deliver]
      first_le := by
        rw [hfirst]
        simp only [deliver]
        omega
      order := by
        -- the run so far, `p` at the base, and the taken ones after it
        have hlen : w.base + 1 + taken.length - w.first
            = w.base - w.first + (taken.length + 1) := by omega
        have hat : w.first + (w.base - w.first) = w.base := by omega
        rw [hfirst]
        simp only [deliver]
        rw [List.map_append, List.map_cons, h.order, hseq, htaken, hlen,
          ← List.range'_append_1, hat, List.range'_succ] }

theorem inv_handle (h : w.Inv) (hcmd : p.cmd = .send) (hmove : Handle w p w') : w'.Inv := by
  cases hmove with
  | start hbase => exact inv_start h hbase hcmd
  | discard hbase hout => exact inv_handled h hbase hcmd fun r hr => Or.inr hr
  | deliver hbase hseq taken rest hqueue htaken hstop =>
    exact inv_deliver h hbase hcmd hseq hqueue htaken
  | buffer hbase hlt hle =>
    exact inv_handled h hbase hcmd fun r hr => mem_seqInsertToList.mp hr

/-! ## The reorder queue -/

/-- Strictly increasing and inside the window. -/
structure WellFormed (w : RecvWindow) : Prop where
  sorted : w.queueSeqs.Pairwise (· < ·)
  window : ∀ s ∈ w.queueSeqs, w.base < s ∧ s ≤ w.base + w.wnd

/-- Distinct numbers in a window: no more than fit. -/
theorem WellFormed.length_le (h : w.WellFormed) : w.queue.length ≤ w.wnd := by
  have hsub : w.queueSeqs ⊆ List.range' (w.base + 1) w.wnd := by
    intro s hs
    have := h.window s hs
    exact List.mem_range'_1.mpr (by omega)
  have hnodup : w.queueSeqs.Nodup := h.sorted.imp Nat.ne_of_lt
  have hlen := (List.subperm_of_subset hnodup hsub).length_le
  simpa [queueSeqs] using hlen

theorem wellFormed_deliver (h : w.WellFormed) {taken rest : List Packet}
    (hqueue : w.queue = taken ++ rest)
    (htaken : taken.map Packet.seq = List.range' (w.base + 1) taken.length)
    (hstop : ∀ r ∈ rest.head?, r.seq ≠ w.base + 1 + taken.length) :
    (w.deliver p taken rest).WellFormed := by
  have hsorted := h.sorted
  have hwindow := h.window
  unfold queueSeqs at hsorted hwindow
  rw [hqueue, List.map_append, htaken] at hsorted
  rw [hqueue, List.map_append] at hwindow
  obtain ⟨-, hrest, hcross⟩ := List.pairwise_append.mp hsorted
  refine ⟨hrest, fun s hs => ?_⟩
  have hin := hwindow s (List.mem_append_right _ hs)
  -- what is left comes after everything that was taken
  have hafter : w.base + 1 + taken.length ≤ s := by
    rcases Nat.eq_zero_or_pos taken.length with hzero | hpos
    · omega
    · have := hcross (w.base + taken.length) (List.mem_range'_1.mpr (by omega)) s hs
      omega
  simp only [deliver, queueSeqs] at hs ⊢
  refine ⟨?_, by omega⟩
  cases rest with
  | nil => exact absurd hs List.not_mem_nil
  | cons r rest =>
    have hr : w.base + 1 + taken.length ≤ r.seq := by
      have hin := hwindow r.seq (by simp)
      rcases Nat.eq_zero_or_pos taken.length with hzero | hpos
      · omega
      · have := hcross (w.base + taken.length) (List.mem_range'_1.mpr (by omega)) r.seq (by simp)
        omega
    have hne := hstop r (by simp)
    rcases List.mem_cons.mp hs with rfl | hs
    · omega
    · have := (List.pairwise_cons.mp hrest).1 s hs
      omega

theorem wellFormed_buffer_iff (h : w.WellFormed) (hlt : w.base < p.seq)
    (hle : p.seq ≤ w.base + w.wnd) : (w.buffer p).WellFormed ↔ p.seq ∉ w.queueSeqs := by
  have hseqs : (w.buffer p).queueSeqs = seqInsertToList id p.seq w.queueSeqs :=
    map_seqInsertToList _ _ _
  constructor
  · intro hnew hmem
    have hsorted := hnew.sorted
    rw [hseqs] at hsorted
    exact not_pairwise_seqInsertToList hmem hsorted
  · intro hnot
    refine ⟨?_, fun s hs => ?_⟩
    · rw [hseqs]
      exact pairwise_seqInsertToList h.sorted hnot
    · rw [hseqs] at hs
      rcases mem_seqInsertToList.mp hs with rfl | hs
      · exact ⟨hlt, hle⟩
      · exact h.window s hs

/-- Handling a packet keeps the queue well formed exactly when the packet
is not in the queue. -/
theorem wellFormed_handle_iff (hinv : w.Inv) (h : w.WellFormed) (hmove : Handle w p w') :
    w'.WellFormed ↔ p.seq ∉ w.queueSeqs := by
  have hout : (p.seq ≤ w.base ∨ w.base + w.wnd < p.seq) → p.seq ∉ w.queueSeqs := by
    intro hcase hmem
    have := h.window _ hmem
    omega
  cases hmove with
  | start hbase =>
    have hnil : w.queueSeqs = [] := by rw [queueSeqs, hinv.queue_eq_nil hbase]; rfl
    have hstart : (w.start p).queueSeqs = [] := hnil
    refine iff_of_true ⟨?_, ?_⟩ ?_
    · rw [hstart]
      exact .nil
    · rw [hstart]
      simp
    · rw [hnil]
      exact List.not_mem_nil
  | discard hbase hcase => exact iff_of_true ⟨h.sorted, h.window⟩ (hout (by omega))
  | deliver hbase hseq taken rest hqueue htaken hstop =>
    exact iff_of_true (wellFormed_deliver h hqueue htaken hstop) (hout (by omega))
  | buffer hbase hlt hle => exact wellFormed_buffer_iff h hlt hle

end RecvWindow

end Training.Udp
