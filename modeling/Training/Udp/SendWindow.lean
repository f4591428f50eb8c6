/-
Training.Udp.SendWindow — the send side as a window of numbers.

A `SendWindow` is what remains of a connection when only the sequence
numbers of its SEND packets are kept: the base, the next number, the
numbers waiting in `send_queue` (newest first, as the queue holds them),
in `flight_send_queue` and in `unack_list`, and the numbers made and
acknowledged so far. Three moves change it: a packet is admitted, a
packet is transmitted, a number is acknowledged.

`SendWindow.Inv` is the invariant of the three moves. The numbers from
`out` on are queued in order, the ones in flight are between the base and
`out`, and every number made that is neither is acknowledged. What the
base IS, is not part of it: `Exact` says that the base is the least
unacknowledged number, and an acknowledgement can break that
(`exact_acknowledge_iff`). Moving the base to one more than the
acknowledged number is right only if that number was not acknowledged
before.
-/
import Training.Udp.ProtocolTheorems

namespace Training.Udp

structure SendWindow where
  wnd : Nat
  base : Nat
  next : Nat
  queued : List Nat
  flight : List Nat
  unack : List Nat
  made : List Nat
  acked : List Nat

namespace SendWindow

/-- The least number not yet transmitted. -/
def out (w : SendWindow) : Nat := w.next - w.queued.length

def enqueue (w : SendWindow) : SendWindow :=
  { w with next := w.next + 1, queued := w.next :: w.queued, made := w.made ++ [w.next] }

def transmit (w : SendWindow) (rest : List Nat) (q : Nat) : SendWindow :=
  { w with
    queued := rest
    flight := q :: w.flight
    unack := seqInsertToList id q w.unack }

/-- The base after an acknowledgement of `q`. -/
def newBase (w : SendWindow) (q : Nat) : Nat :=
  baseAfterAck .unbounded w.unack w.base q

def acknowledge (w : SendWindow) (q : Nat) : SendWindow :=
  { w with
    base := w.newBase q
    flight := w.flight.erase q
    unack := w.unack.erase q
    acked := w.acked ++ [q] }

/-- Numbers made whose acknowledgement has not been processed. -/
def unacked (w : SendWindow) : List Nat := w.made.filter (· ∉ w.acked)

/-! ## The invariant -/

structure Inv (first : Nat) (w : SendWindow) : Prop where
  wnd_pos : 0 < w.wnd
  first_le : first ≤ w.next
  made : w.made = List.range' first (w.next - first)
  queued_length : w.queued.length ≤ w.next - first
  queued : w.queued.reverse = List.range' w.out w.queued.length
  flight_nodup : w.flight.Nodup
  flight_bounds : ∀ q ∈ w.flight, w.base ≤ q ∧ q < w.out
  unack_sorted : w.unack.Pairwise (· < ·)
  unack_flight : w.unack.Perm w.flight
  acked : ∀ q, q ∈ w.acked ↔ first ≤ q ∧ q < w.out ∧ q ∉ w.flight
  first_le_base : first ≤ w.base
  base_le_out : w.base ≤ w.out
  next_le : w.next ≤ w.base + w.wnd

variable {first : Nat} {w : SendWindow} {q : Nat}

theorem Inv.out_le (h : w.Inv first) : first ≤ w.out ∧ w.out ≤ w.next := by
  have := h.queued_length
  have := h.first_le
  unfold out
  omega

theorem Inv.out_add_queued (h : w.Inv first) : w.out + w.queued.length = w.next := by
  have := h.queued_length
  have := h.first_le
  unfold out
  omega

theorem Inv.mem_queued (h : w.Inv first) : q ∈ w.queued ↔ w.out ≤ q ∧ q < w.next := by
  rw [← List.mem_reverse, h.queued, List.mem_range'_1, h.out_add_queued]

theorem Inv.mem_unack (h : w.Inv first) : q ∈ w.unack ↔ q ∈ w.flight :=
  h.unack_flight.mem_iff

/-- An unacknowledged number is in flight or still queued. -/
theorem Inv.mem_unacked (h : w.Inv first) :
    q ∈ w.unacked ↔ q ∈ w.flight ∨ w.out ≤ q ∧ q < w.next := by
  have hout := h.out_le
  have hfirst := h.first_le
  have hbase := h.first_le_base
  unfold unacked
  rw [h.made, List.mem_filter, List.mem_range'_1, decide_eq_true_iff, h.acked]
  constructor
  · rintro ⟨hq, hnot⟩
    by_cases hf : q ∈ w.flight
    · exact Or.inl hf
    · refine Or.inr ⟨?_, by omega⟩
      by_contra hlt
      exact hnot ⟨hq.1, by omega, hf⟩
  · rintro (hf | hq)
    · have := h.flight_bounds q hf
      exact ⟨by omega, fun hx => hx.2.2 hf⟩
    · exact ⟨by omega, fun hx => by omega⟩

theorem inv_start (first wnd : Nat) (hwnd : 0 < wnd) :
    Inv first ⟨wnd, first, first, [], [], [], [], []⟩ where
  wnd_pos := hwnd
  first_le := Nat.le_refl _
  made := by simp
  queued_length := by simp
  queued := by simp
  flight_nodup := List.nodup_nil
  flight_bounds := by simp
  unack_sorted := .nil
  unack_flight := .nil
  acked := by
    intro q
    simp only [out, List.length_nil, List.not_mem_nil, not_false_eq_true, and_true,
      false_iff]
    omega
  first_le_base := Nat.le_refl _
  base_le_out := by simp [out]
  next_le := by simp

/-! ## The three moves keep it -/

theorem out_enqueue (h : w.Inv first) : w.enqueue.out = w.out := by
  have := h.queued_length
  have := h.first_le
  simp only [out, enqueue, List.length_cons]
  omega

theorem inv_enqueue (h : w.Inv first) (hroom : w.next < w.base + w.wnd) :
    w.enqueue.Inv first where
  wnd_pos := h.wnd_pos
  first_le := by
    have := h.first_le
    simp only [enqueue]
    omega
  made := by
    have hsub : w.next + 1 - first = w.next - first + 1 := by have := h.first_le; omega
    have hlast : first + 1 * (w.next - first) = w.next := by have := h.first_le; omega
    simp only [enqueue]
    rw [hsub, List.range'_concat, ← h.made, hlast]
  queued_length := by
    have := h.queued_length
    have := h.first_le
    simp only [enqueue, List.length_cons]
    omega
  queued := by
    have hlast : w.out + 1 * w.queued.length = w.next := by
      have := h.out_add_queued
      omega
    rw [out_enqueue h]
    simp only [enqueue, List.reverse_cons, List.length_cons]
    rw [List.range'_concat, h.queued, hlast]
  flight_nodup := h.flight_nodup
  flight_bounds := by
    rw [out_enqueue h]
    exact h.flight_bounds
  unack_sorted := h.unack_sorted
  unack_flight := h.unack_flight
  acked := by
    rw [out_enqueue h]
    exact h.acked
  first_le_base := h.first_le_base
  base_le_out := by
    rw [out_enqueue h]
    exact h.base_le_out
  next_le := by
    simp only [enqueue]
    omega

/-- The number transmitted next is the least of the queued ones. -/
theorem Inv.eq_out (h : w.Inv first) {rest : List Nat} (hq : w.queued = rest ++ [q]) :
    q = w.out ∧ rest.reverse = List.range' (w.out + 1) rest.length := by
  have hrev := h.queued
  rw [hq] at hrev
  simp only [List.reverse_append, List.reverse_cons, List.reverse_nil, List.nil_append,
    List.singleton_append, List.length_append, List.length_singleton] at hrev
  rw [List.range'_succ] at hrev
  exact ⟨(List.cons.inj hrev).1, (List.cons.inj hrev).2⟩

theorem out_transmit (h : w.Inv first) {rest : List Nat} (hq : w.queued = rest ++ [q]) :
    (w.transmit rest q).out = w.out + 1 := by
  have hlen : w.queued.length = rest.length + 1 := by rw [hq]; simp
  have := h.queued_length
  have := h.first_le
  simp only [out, transmit]
  omega

theorem inv_transmit (h : w.Inv first) {rest : List Nat} (hq : w.queued = rest ++ [q]) :
    (w.transmit rest q).Inv first := by
  obtain ⟨hout, hrest⟩ := h.eq_out hq
  have hlen : w.queued.length = rest.length + 1 := by rw [hq]; simp
  have hle := h.queued_length
  have hbase := h.base_le_out
  have hfirst := h.first_le_base
  have hfresh : q ∉ w.flight := fun hmem => by
    have := h.flight_bounds q hmem
    omega
  exact
    { wnd_pos := h.wnd_pos
      first_le := h.first_le
      made := h.made
      queued_length := by
        simp only [transmit]
        omega
      queued := by
        rw [out_transmit h hq]
        exact hrest
      flight_nodup := List.nodup_cons.mpr ⟨hfresh, h.flight_nodup⟩
      flight_bounds := by
        rw [out_transmit h hq]
        intro r hr
        simp only [transmit] at hr ⊢
        rcases List.mem_cons.mp hr with rfl | hr
        · omega
        · have := h.flight_bounds r hr
          omega
      unack_sorted :=
        pairwise_seqInsertToList h.unack_sorted fun hmem => hfresh (h.mem_unack.mp hmem)
      unack_flight := (perm_seqInsertToList id q w.unack).trans (h.unack_flight.cons q)
      acked := by
        intro r
        rw [out_transmit h hq]
        simp only [transmit]
        rw [h.acked r, List.mem_cons]
        constructor
        · rintro ⟨h1, h2, h3⟩
          exact ⟨h1, by omega, by rintro (hr | hr) <;> [omega; exact h3 hr]⟩
        · rintro ⟨h1, h2, h3⟩
          exact ⟨h1, by
            by_contra hge
            exact h3 (Or.inl (by omega)), fun hr => h3 (Or.inr hr)⟩
      first_le_base := h.first_le_base
      base_le_out := by
        rw [out_transmit h hq]
        simp only [transmit]
        omega
      next_le := h.next_le }

/-- In flight at the base, the base is the first of `unack_list`. -/
theorem Inv.unack_eq_cons (h : w.Inv first) (hq : w.base ∈ w.flight) :
    ∃ rest, w.unack = w.base :: rest := by
  have hmem := h.mem_unack.mpr hq
  cases hu : w.unack with
  | nil =>
    rw [hu] at hmem
    exact absurd hmem List.not_mem_nil
  | cons u rest =>
    rw [hu] at hmem
    refine ⟨rest, ?_⟩
    rcases List.mem_cons.mp hmem with heq | hrest
    · rw [heq]
    · have hsorted := h.unack_sorted
      rw [hu] at hsorted
      have hlt := (List.pairwise_cons.mp hsorted).1 _ hrest
      have hu' : u ∈ w.flight := h.mem_unack.mp (hu ▸ List.mem_cons_self)
      have := (h.flight_bounds u hu').1
      omega

theorem findUnack_cons_self (q : Nat) (rest : List Nat) :
    findUnack (q :: rest) q = q :: rest := by
  simp [findUnack]

/-- The base stays unless the base itself is acknowledged. -/
theorem newBase_of_ne (hne : q ≠ w.base) : w.newBase q = w.base := by
  unfold newBase baseAfterAck
  split
  · rfl
  · rename_i unack next hfind
    unfold advanceSendBase
    rw [if_neg (findUnack_head hfind ▸ hne)]

theorem newBase_base {rest : List Nat} (hu : w.unack = w.base :: rest) :
    w.newBase w.base = rest.headD (w.base + 1) := by
  unfold newBase baseAfterAck
  rw [hu, findUnack_cons_self]
  simp only [advanceSendBase, if_true]
  cases rest with
  | nil => rfl
  | cons r rest => rfl

/-- Wherever the base moves, it moves up and stays below what is left. -/
theorem newBase_bounds (h : w.Inv first) (hq : q ∈ w.flight) :
    w.base ≤ w.newBase q ∧ w.newBase q ≤ w.out ∧
      ∀ r ∈ w.flight.erase q, w.newBase q ≤ r := by
  by_cases heq : q = w.base
  · subst heq
    obtain ⟨rest, hu⟩ := h.unack_eq_cons hq
    have hbound := h.flight_bounds _ hq
    rw [newBase_base hu]
    have hperm : rest.Perm (w.flight.erase w.base) := by
      have := h.unack_flight.erase w.base
      rwa [hu, List.erase_cons_head] at this
    cases rest with
    | nil =>
      refine ⟨by simp, by simp only [List.headD_nil]; omega, ?_⟩
      intro r hr
      exact absurd (hperm.mem_iff.mpr hr) List.not_mem_nil
    | cons r rest =>
      have hsorted := h.unack_sorted
      rw [hu] at hsorted
      obtain ⟨hbase, hrest⟩ := List.pairwise_cons.mp hsorted
      have hr := hbase r List.mem_cons_self
      have hrf : r ∈ w.flight := h.mem_unack.mp (by rw [hu]; simp)
      have := h.flight_bounds r hrf
      simp only [List.headD_cons]
      refine ⟨by omega, by omega, ?_⟩
      intro x hx
      rcases List.mem_cons.mp (hperm.mem_iff.mpr hx) with rfl | hx
      · exact Nat.le_refl _
      · exact Nat.le_of_lt ((List.pairwise_cons.mp hrest).1 x hx)
  · rw [newBase_of_ne heq]
    refine ⟨Nat.le_refl _, h.base_le_out, ?_⟩
    intro r hr
    exact (h.flight_bounds r (List.mem_of_mem_erase hr)).1

theorem inv_acknowledge (h : w.Inv first) (hq : q ∈ w.flight) :
    (w.acknowledge q).Inv first := by
  obtain ⟨hup, hout, hleft⟩ := newBase_bounds h hq
  have hle := h.next_le
  have hfirst := h.first_le_base
  have hbound := h.flight_bounds q hq
  exact
    { wnd_pos := h.wnd_pos
      first_le := h.first_le
      made := h.made
      queued_length := h.queued_length
      queued := h.queued
      flight_nodup := h.flight_nodup.erase q
      flight_bounds := fun r hr => ⟨hleft r hr, (h.flight_bounds r (List.mem_of_mem_erase hr)).2⟩
      unack_sorted := h.unack_sorted.sublist List.erase_sublist
      unack_flight := h.unack_flight.erase q
      acked := by
        intro r
        simp only [acknowledge]
        rw [List.mem_append, List.mem_singleton, h.acked r, h.flight_nodup.mem_erase_iff]
        show _ ↔ first ≤ r ∧ r < w.out ∧ _
        constructor
        · rintro (⟨h1, h2, h3⟩ | rfl)
          · exact ⟨h1, h2, fun hx => h3 hx.2⟩
          · exact ⟨by omega, hbound.2, fun hx => hx.1 rfl⟩
        · rintro ⟨h1, h2, h3⟩
          by_cases hr : r = q
          · exact Or.inr hr
          · exact Or.inl ⟨h1, h2, fun hx => h3 ⟨hr, hx⟩⟩
      first_le_base := by
        simp only [acknowledge]
        omega
      base_le_out := hout
      next_le := by
        simp only [acknowledge]
        omega }

/-- What the send operations do to the window. -/
inductive Send (w : SendWindow) : SendWindow → Prop where
  | stay : Send w w
  | enqueue (hroom : w.next < w.base + w.wnd) : Send w w.enqueue
  | transmit (rest : List Nat) (q : Nat) (hq : w.queued = rest ++ [q]) :
      Send w (w.transmit rest q)

/-- One step of a sender: what can happen to its window. -/
inductive Move (w : SendWindow) : SendWindow → Prop where
  | send {w' : SendWindow} (hsend : Send w w') : Move w w'
  | acknowledge (q : Nat) (hq : q ∈ w.flight) : Move w (w.acknowledge q)

variable {w' : SendWindow}

theorem inv_send (h : w.Inv first) (hsend : Send w w') : w'.Inv first := by
  cases hsend with
  | stay => exact h
  | enqueue hroom => exact inv_enqueue h hroom
  | transmit rest q hq => exact inv_transmit h hq

theorem inv_move (h : w.Inv first) (hmove : Move w w') : w'.Inv first := by
  cases hmove with
  | send hsend => exact inv_send h hsend
  | acknowledge q hq => exact inv_acknowledge h hq

theorem wnd_move (hmove : Move w w') : w'.wnd = w.wnd := by
  cases hmove with
  | send hsend => cases hsend <;> rfl
  | acknowledge q hq => rfl

/-- The base never moves down. -/
theorem base_le_move (h : w.Inv first) (hmove : Move w w') : w.base ≤ w'.base := by
  cases hmove with
  | send hsend => cases hsend <;> exact Nat.le_refl _
  | acknowledge q hq => exact (newBase_bounds h hq).1

/-! ## What the invariant says -/

/-- Every unacknowledged number occurs once in the two queues together. -/
theorem Inv.count_unacked (h : w.Inv first) (hq : q ∈ w.unacked) :
    (w.queued ++ w.flight).count q = 1 := by
  have hnodup : w.queued.Nodup := by
    rw [← List.nodup_reverse, h.queued]
    exact List.nodup_range'
  rw [List.count_append]
  rcases h.mem_unacked.mp hq with hf | hout
  · have hlt := (h.flight_bounds q hf).2
    have hnot : q ∉ w.queued := fun hx => by
      have := h.mem_queued.mp hx
      omega
    rw [List.count_eq_zero_of_not_mem hnot, List.count_eq_one_of_mem h.flight_nodup hf]
  · have hmem := h.mem_queued.mpr hout
    have hnot : q ∉ w.flight := fun hx => by
      have := h.flight_bounds q hx
      omega
    rw [List.count_eq_zero_of_not_mem hnot, List.count_eq_one_of_mem hnodup hmem]

theorem Inv.unacked_bounds (h : w.Inv first) (hq : q ∈ w.unacked) :
    w.base ≤ q ∧ q < w.next := by
  have hout := h.out_le
  have hbase := h.base_le_out
  rcases h.mem_unacked.mp hq with hf | hr
  · have := h.flight_bounds q hf
    omega
  · omega

theorem Inv.nodup_unacked (h : w.Inv first) : w.unacked.Nodup := by
  unfold unacked
  rw [h.made]
  exact List.Nodup.filter _ List.nodup_range'

/-- The window bound: distinct numbers in an interval of length `wnd`. -/
theorem Inv.length_unacked (h : w.Inv first) : w.unacked.length ≤ w.wnd := by
  have hle := h.next_le
  have hsub : w.unacked ⊆ List.range' w.base w.wnd := by
    intro q hq
    have := h.unacked_bounds hq
    exact List.mem_range'_1.mpr (by omega)
  have hlen := (List.subperm_of_subset h.nodup_unacked hsub).length_le
  simpa using hlen

/-! ## The exact base -/

/-- The base is the least unacknowledged number, or the next number when
every number is acknowledged. -/
def Exact (w : SendWindow) : Prop := w.base = w.unacked.min?.getD w.next

/-- The exact base is in flight, or nothing is and it goes out next. -/
theorem Inv.exact_iff (h : w.Inv first) :
    w.Exact ↔ w.base ∈ w.flight ∨ w.base = w.out := by
  have hout := h.out_le
  unfold Exact
  cases hmin : w.unacked.min? with
  | none =>
    have hnil : w.unacked = [] := List.min?_eq_none_iff.mp hmin
    have hnone : ∀ q, q ∉ w.unacked := by simp [hnil]
    have hflight : w.base ∉ w.flight := fun hx => hnone _ (h.mem_unacked.mpr (Or.inl hx))
    have hnext : w.next = w.out := by
      by_contra hne
      exact hnone w.out (h.mem_unacked.mpr (Or.inr (by omega)))
    simp only [Option.getD_none, hflight, false_or, hnext]
  | some m =>
    obtain ⟨hm, hleast⟩ := List.min?_eq_some_iff.mp hmin
    have hbase := (h.unacked_bounds hm).1
    simp only [Option.getD_some]
    constructor
    · intro heq
      rw [heq]
      rcases h.mem_unacked.mp hm with hf | hr
      · exact Or.inl hf
      · have := h.base_le_out
        exact Or.inr (by omega)
    · rintro (hf | heq)
      · have := hleast _ (h.mem_unacked.mpr (Or.inl hf))
        omega
      · rcases h.mem_unacked.mp hm with hf | hr
        · have := h.flight_bounds m hf
          omega
        · have := hleast w.out (h.mem_unacked.mpr (Or.inr (by omega)))
          omega

theorem exact_enqueue (h : w.Inv first) (hexact : w.Exact) (hroom : w.next < w.base + w.wnd) :
    w.enqueue.Exact := by
  rw [(inv_enqueue h hroom).exact_iff, out_enqueue h]
  exact h.exact_iff.mp hexact

theorem exact_transmit (h : w.Inv first) (hexact : w.Exact) {rest : List Nat}
    (hq : w.queued = rest ++ [q]) : (w.transmit rest q).Exact := by
  rw [(inv_transmit h hq).exact_iff]
  refine Or.inl ?_
  rcases h.exact_iff.mp hexact with hf | hout
  · exact List.mem_cons_of_mem _ hf
  · rw [← (h.eq_out hq).1] at hout
    exact List.mem_cons.mpr (Or.inl hout)

/-- The send operations keep the base exact. -/
theorem exact_send (h : w.Inv first) (hexact : w.Exact) (hsend : Send w w') : w'.Exact := by
  cases hsend with
  | stay => exact hexact
  | enqueue hroom => exact exact_enqueue h hexact hroom
  | transmit rest q hq => exact exact_transmit h hexact hq

/-- Acknowledging `q` keeps the base exact unless `q` is alone in flight
and a number after it is acknowledged already: then the base moves to
`q + 1`, which is no longer unacknowledged. -/
theorem exact_acknowledge_iff (h : w.Inv first) (hexact : w.Exact) (hq : q ∈ w.flight) :
    (w.acknowledge q).Exact ↔ (w.unack = [q] → ∀ r ∈ w.acked, r < q) := by
  have hbound := h.flight_bounds q hq
  have hbase : w.base ∈ w.flight := by
    rcases h.exact_iff.mp hexact with hf | hout
    · exact hf
    · omega
  have hout : (w.acknowledge q).out = w.out := rfl
  rw [(inv_acknowledge h hq).exact_iff, hout]
  simp only [acknowledge]
  by_cases heq : q = w.base
  · obtain ⟨rest, hu⟩ := h.unack_eq_cons hbase
    have hperm : rest.Perm (w.flight.erase w.base) := by
      have := h.unack_flight.erase w.base
      rwa [hu, List.erase_cons_head] at this
    subst heq
    rw [newBase_base hu]
    cases rest with
    | cons r rest =>
      simp only [List.headD_cons]
      exact iff_of_true (Or.inl (hperm.mem_iff.mp List.mem_cons_self)) (by simp [hu])
    | nil =>
      -- nothing else is in flight, so what is after `q` is acknowledged or not yet out
      have hnone : w.flight.erase w.base = [] := hperm.symm.eq_nil
      have halone : ∀ r ∈ w.flight, r = w.base := fun r hr => by
        by_contra hne
        have := (h.flight_nodup.mem_erase_iff).mpr ⟨hne, hr⟩
        rw [hnone] at this
        exact List.not_mem_nil this
      simp only [hnone, List.not_mem_nil, List.headD_nil, false_or, hu, forall_const]
      constructor
      · intro hlast r hr
        have := (h.acked r).mp hr
        have hne : r ≠ w.base := fun hx => this.2.2 (hx ▸ hbase)
        omega
      · intro hall
        by_contra hne
        have hmem : w.base + 1 ∈ w.acked :=
          (h.acked _).mpr ⟨by have := h.first_le_base; omega, by omega,
            fun hx => by have := halone _ hx; omega⟩
        have := hall _ hmem
        omega
  · rw [newBase_of_ne heq]
    have hleft : w.base ∈ w.flight.erase q :=
      (h.flight_nodup.mem_erase_iff).mpr ⟨Ne.symm heq, hbase⟩
    refine iff_of_true (Or.inl hleft) ?_
    intro hu
    have : w.base ∈ w.unack := h.mem_unack.mpr hbase
    rw [hu] at this
    exact absurd (List.mem_singleton.mp this).symm heq

/-- With every number acknowledged, an exact base leaves the whole window
open. -/
theorem Exact.base_eq_next (hexact : w.Exact) (hnone : w.unacked = []) : w.base = w.next := by
  unfold Exact at hexact
  rwa [hnone] at hexact

end SendWindow

end Training.Udp
