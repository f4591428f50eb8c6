/-
Training.Rpc.LanguageTheorems — the strings the two receivers of the RPC
server accept.

The blocking receiver accepts the frames at the front of a string
(`recvAll_spec`) and rejects what is behind them. `SameLanguage` says that
the non-blocking one hands over the same payloads and closes the
connection behind them, whatever the reads do. It looks neither at the
magic nor at RPC_BUFF_MAX, so it does so exactly for the strings of
`sameLanguage_iff`: where the rest is cut short before the end of the
payload its header announces.
-/
import Training.Rpc.Blocking
import Training.Rpc.ReassemblyTheorems

namespace Training.Rpc

open Training.Lib

variable {mem : Nat → Bool} {s : List UInt8} {c : Conn}

/-- Both receivers accept the frames at the front of `s`, and reject what is
behind them. -/
def SameLanguage (mem : Nat → Bool) (s : List UInt8) : Prop :=
  ∀ ps rest, Frames s ps rest →
    (∀ outcomes : List Outcome, (∀ o ∈ outcomes, o.delivers = true) →
      recvAll (s.length + 1) { source := { unread := s, closed := true }, outcomes } = ps) ∧
    ∀ sched, Fair sched → ∃ K, ∀ k, K ≤ k →
      (serve mem sched (Conn.init { unread := s, closed := true }) k).connected = false ∧
      (serve mem sched (Conn.init { unread := s, closed := true }) k).overflow = false ∧
      (serve mem sched (Conn.init { unread := s, closed := true }) k).dispatched = ps

/-- Where the receiver ends, the connection does. -/
theorem connected_epollRecv_end {os : List Outcome} (h : c.Reads mem s true)
    (hconn : c.connected = true) (habs : ¬ (c.receiver mem).Absorbed)
    (hos : (os.headD .whole).delivers = true) (hnil : c.source.unread = []) :
    (epollRecv mem os c).connected = false :=
  (moves_epollRecv os h.inv hconn habs hos).2 hnil h.closed

theorem dispatched_of_disconnected (h : c.Reads mem s true) (hdis : c.connected = false) :
    c.dispatched = (Receiver.init.feedAll mem s).accepted := by
  rw [h.inv.dispatched]
  rcases h.dropped hdis with href | ⟨hnil, -, -⟩
  · rw [h.receiver_absorbed (by simp [Receiver.Absorbed, href])]
  · rw [h.receiver_drained hnil]

section Rejects

variable {ps : List (List UInt8)}
  (hend : (Receiver.init.feedAll mem s).phase = .refused ∨
    ¬ (Receiver.init.feedAll mem s).Absorbed)

include hend

theorem not_absorbed_of_connected (h : c.Reads mem s true) (hconn : c.connected = true) :
    ¬ (c.receiver mem).Absorbed := by
  intro habs
  rw [← h.receiver_absorbed habs] at hend
  rcases hend with href | hnot
  · exact absurd (hconn.symm.trans (h.inv.refused href)) (by simp)
  · exact hnot habs

theorem overflow_eq_false (h : c.Reads mem s true) : c.overflow = false := by
  rw [← Bool.not_eq_true, h.inv.overflow]
  intro hphase
  have habs : (c.receiver mem).Absorbed := by simp [Receiver.Absorbed, hphase]
  rw [← h.receiver_absorbed habs, hphase] at hend
  rcases hend with href | hnot
  · cases href
  · exact hnot habs

theorem eventually_rejected {sched : Nat → List Outcome}
    (hacc : (Receiver.init.feedAll mem s).accepted = ps) (hfair : Fair sched) :
    ∃ K, ∀ k, K ≤ k →
      (serve mem sched (Conn.init { unread := s, closed := true }) k).connected = false ∧
      (serve mem sched (Conn.init { unread := s, closed := true }) k).overflow = false ∧
      (serve mem sched (Conn.init { unread := s, closed := true }) k).dispatched = ps := by
  obtain ⟨run, hrun⟩ : ∃ run, run = serve mem sched (Conn.init { unread := s, closed := true }) :=
    ⟨_, rfl⟩
  have hstep : ∀ k, run (k + 1) = epollRecv mem (sched k) (run k) := fun k => by rw [hrun, serve]
  have hreads : ∀ k, (run k).Reads mem s true := fun k => by
    rw [hrun]
    exact reads_serve hfair k
  have hkeep : ∀ k, (run k).connected = false → (run (k + 1)).connected = false := by
    intro k hdis
    rw [hstep, epollRecv_closed (Or.inr hdis)]
    exact hdis
  have hrank : ∀ k, (run (k + 1)).source.unread.length ≤ (run k).source.unread.length := fun k => by
    rw [hstep]
    exact length_unread_epollRecv _ (hreads k).inv
  rw [← hrun]
  obtain ⟨K, hK⟩ := settles_of_rank run (fun c => c.connected = false)
    (fun c => c.source.unread.length) hkeep hrank fun k => by
      obtain ⟨j, hkj, hdel⟩ := hfair.delivers k
      refine ⟨j, hkj, ?_⟩
      cases hconn : (run j).connected with
      | false => exact Or.inl (hkeep j hconn)
      | true =>
        have habs := not_absorbed_of_connected hend (hreads j) hconn
        rw [hstep]
        by_cases hnil : (run j).source.unread = []
        · exact Or.inl (connected_epollRecv_end (hreads j) hconn habs hdel hnil)
        · exact Or.inr (length_unread_lt (hreads j).inv hconn habs hdel hnil)
  exact ⟨K, fun k hk => ⟨hK k hk, overflow_eq_false hend (hreads k),
    (dispatched_of_disconnected (hreads k) (hK k hk)).trans hacc⟩⟩

end Rejects

theorem receiver_of_sameLanguage {ps : List (List UInt8)}
    (h : ∃ K, ∀ k, K ≤ k →
      (serve mem (fun _ => []) (Conn.init { unread := s, closed := true }) k).connected = false ∧
      (serve mem (fun _ => []) (Conn.init { unread := s, closed := true }) k).overflow = false ∧
      (serve mem (fun _ => []) (Conn.init { unread := s, closed := true }) k).dispatched = ps) :
    (Receiver.init.feedAll mem s).accepted = ps ∧
      ((Receiver.init.feedAll mem s).phase = .refused ∨
        ¬ (Receiver.init.feedAll mem s).Absorbed) := by
  obtain ⟨K, hK⟩ := h
  obtain ⟨hdis, -, hps⟩ := hK K (Nat.le_refl K)
  have hreads : (serve mem (fun _ => []) (Conn.init { unread := s, closed := true }) K).Reads
      mem s true := reads_serve fair_whole K
  rw [hreads.inv.dispatched] at hps
  rcases hreads.dropped hdis with href | ⟨hnil, -, habs⟩
  · rw [← hreads.receiver_absorbed (by simp [Receiver.Absorbed, href])]
    exact ⟨hps, Or.inl href⟩
  · rw [← hreads.receiver_drained hnil]
    exact ⟨hps, Or.inr habs⟩

/-- What the receiver makes of frames and a rest. -/
theorem rejects_iff {ps : List (List UInt8)} {rest : List UInt8} (h : Frames s ps rest) :
    ((Receiver.init.feedAll mem s).accepted = ps ∧
        ((Receiver.init.feedAll mem s).phase = .refused ∨
          ¬ (Receiver.init.feedAll mem s).Absorbed)) ↔
      Receivable mem ps ∧ RestRejected mem (ps.head?.map List.length) rest := by
  have hlen : ∀ p ∈ ps, p.length < int32Size := fun p hp =>
    Nat.lt_of_le_of_lt (h.length_le p hp) (by decide)
  have hsplit : Receivable mem ps →
      (((Receiver.init.feedAll mem s).accepted = ps ∧
          ((Receiver.init.feedAll mem s).phase = .refused ∨
            ¬ (Receiver.init.feedAll mem s).Absorbed)) ↔
        RestRejected mem (ps.head?.map List.length) rest) := by
    intro hps
    obtain ⟨hphase, hacc, hheld⟩ := feedAll_receivable hlen hps
    rw [← hheld, ← rejects_rest hphase, Receiver.Rejects, ← feedAll_append,
      ← h.split, hacc]
  constructor
  · intro hend
    have hps : Receivable mem ps := by
      refine receivable_of_accepted rest hlen ?_
      exact h.split ▸ hend.1 ▸ List.prefix_refl _
    exact ⟨hps, (hsplit hps).mp hend⟩
  · exact fun hend => (hsplit hend.1).mpr hend.2

theorem length_le_stream (ps : List (List UInt8)) :
    ps.length ≤ (ps.flatMap streamCallPack).length := by
  induction ps with
  | nil => exact Nat.le_refl 0
  | cons p ps ih =>
    simp only [List.flatMap_cons, List.length_append, length_streamCallPack, List.length_cons,
      packageHeadLen]
    omega

theorem sameLanguage_of_rejected
    (h : ∀ ps rest, Frames s ps rest →
      Receivable mem ps ∧ RestRejected mem (ps.head?.map List.length) rest) :
    SameLanguage mem s := by
  intro ps rest hframes
  obtain ⟨hacc, hend⟩ := (rejects_iff hframes).mpr (h ps rest hframes)
  refine ⟨fun outcomes hos => recvAll_spec ⟨rfl, hos⟩ hframes ?_,
    fun sched hfair => eventually_rejected hend hacc hfair⟩
  have hle := length_le_stream ps
  rw [hframes.split, List.length_append]
  omega

theorem rejected_of_sameLanguage (h : SameLanguage mem s) :
    ∀ ps rest, Frames s ps rest →
      Receivable mem ps ∧ RestRejected mem (ps.head?.map List.length) rest :=
  fun ps rest hframes =>
    (rejects_iff hframes).mp (receiver_of_sameLanguage ((h ps rest hframes).2 _ fair_whole))

/-- The receivers agree on a string exactly when the frames at its front
have payloads no longer than the first, for which there is memory, and
the rest is cut short before the payload that its header announces ends,
and within the allocation, or cannot be received at all. -/
theorem sameLanguage_iff (mem : Nat → Bool) (s : List UInt8) :
    SameLanguage mem s ↔ ∀ ps rest, Frames s ps rest →
      Receivable mem ps ∧ RestRejected mem (ps.head?.map List.length) rest :=
  ⟨rejected_of_sameLanguage, sameLanguage_of_rejected⟩

/-- A frame with another magic, and an empty one. -/
theorem different_languages :
    ¬ SameLanguage (fun _ => true) [0, 0, 0, 0, 0, 0, 0, 1, 7] ∧
      ¬ SameLanguage (fun _ => true) (streamCallPack []) := by
  constructor
  · intro h
    have hframes : Frames [0, 0, 0, 0, 0, 0, 0, 1, 7] [] [0, 0, 0, 0, 0, 0, 0, 1, 7] :=
      ⟨rfl, by simp, by decide⟩
    exact absurd (rejected_of_sameLanguage h _ _ hframes).2 (by decide)
  · intro h
    have hframes : Frames (streamCallPack []) [[]] [] := ⟨by decide, by decide, by decide⟩
    exact absurd (rejected_of_sameLanguage h _ _ hframes).1 (by decide)

end Training.Rpc
