/-
Training.CasCounter.CounterTheorems — no increment is lost.

A turn of a thread adds to the counters and to its local buffer together
what it performs (`Thread.Turns`): a compare-exchange that succeeds adds
one, or the batch that the buffer has, and one that fails adds nothing.
The sum over all threads is
`increments_conserved`. A batch size of 0 empties the
buffer into nothing (`lost_emptyBatch`).
-/
import Training.CasCounter.Counter
import Training.Lib.Roster

namespace Training.CasCounter

open Training.Lib

variable {cfg : Config} {strategy : Strategy} {counters : List Nat} {t : Thread} {s : State}
  {fails : Bool}

/-! ## One thread -/

/-- What holds of a thread between its turns. -/
structure Thread.Ok (cfg : Config) (strategy : Strategy) (t : Thread) : Prop where
  segment : t.segmentIndex < cfg.segmentCount
  turns : t.i ≤ cfg.opsPerThread
  finished : t.pc = .finished → t.i = cfg.opsPerThread ∧ t.localBuffer = 0
  unbatched : strategy ≠ .batch →
    t.localBuffer = 0 ∧ t.pc ≠ .next ∧ ∀ e, t.pc = .cas e → t.i < cfg.opsPerThread
  /-- inside a turn of the loop of `batch_update_thread` the increment of the
  turn has been made -/
  performed : t.performed =
    if strategy = .batch ∧ t.pc ≠ .next ∧ t.i < cfg.opsPerThread then t.i + 1 else t.i
  next : t.pc = .next → t.localBuffer < cfg.batchSize
  flushing : strategy = .batch → t.pc ≠ .next → t.pc ≠ .finished → t.valueToAdd = t.localBuffer

/-- What one turn does. -/
structure Thread.Turns (cfg : Config) (strategy : Strategy) (counters : List Nat) (t : Thread)
    (r : List Nat × Thread) : Prop where
  ok : r.2.Ok cfg strategy
  length : r.1.length = counters.length
  sum : r.1.sum + r.2.localBuffer + t.performed = counters.sum + t.localBuffer + r.2.performed

theorem sum_set {i c : Nat} (v : Nat) (hi : i < counters.length) (hc : counters.getD i 0 = c) :
    (counters.set i (c + v)).sum = counters.sum + v := by
  have hget : counters[i]? = some c := by
    rw [List.getElem?_eq_getElem hi, ← hc, List.getD_eq_getElem?_getD, List.getElem?_eq_getElem hi]
    rfl
  have hsum := Roster.sum_map_set hget (c + v) id
  rw [List.map_id, List.map_id] at hsum
  simp only [id] at hsum
  omega

theorem turns_incrementThread (hs : strategy ≠ .batch) {retry : Thread → Thread}
    (hretry : ∀ t : Thread, t.segmentIndex < cfg.segmentCount →
      (retry t).segmentIndex < cfg.segmentCount ∧ (retry t).i = t.i ∧
        (retry t).localBuffer = t.localBuffer ∧ (retry t).performed = t.performed)
    (hlen : counters.length = cfg.segmentCount) (h : t.Ok cfg strategy) (fails : Bool) :
    t.Turns cfg strategy counters (incrementThread cfg retry counters t fails) := by
  obtain ⟨hbuffer, hnext, hbusy⟩ := h.unbatched hs
  have hperf : t.performed = t.i := by
    rw [h.performed, if_neg fun hb => hs hb.1]
  have hturns := h.turns
  unfold incrementThread
  cases hpc : t.pc with
  | next => exact absurd hpc hnext
  | finished => exact ⟨h, rfl, rfl⟩
  | load =>
    dsimp only
    split
    · rename_i hlt
      refine ⟨⟨h.segment, hturns, nofun, fun _ => ⟨hbuffer, nofun, fun _ _ => hlt⟩, ?_, nofun,
        fun hb => absurd hb hs⟩, rfl, rfl⟩
      rw [if_neg fun hb => hs hb.1]
      exact hperf
    · rename_i hge
      refine ⟨⟨h.segment, hturns, fun _ => ⟨?_, hbuffer⟩, fun _ => ⟨hbuffer, nofun, nofun⟩, ?_,
        nofun, fun hb => absurd hb hs⟩, rfl, rfl⟩
      · exact Nat.le_antisymm hturns (Nat.le_of_not_lt hge)
      · rw [if_neg fun hb => hs hb.1]
        exact hperf
  | cas expected =>
    have hlt := hbusy expected hpc
    dsimp only
    split
    · rename_i hcas
      refine ⟨⟨h.segment, hlt, nofun, fun _ => ⟨hbuffer, nofun, nofun⟩, ?_, nofun,
        fun hb => absurd hb hs⟩, List.length_set, ?_⟩
      · rw [if_neg fun hb => hs hb.1]
        exact congrArg (· + 1) hperf
      · rw [sum_set 1 (hlen ▸ h.segment) hcas.1]
        dsimp only
        omega
    · obtain ⟨hseg, hi, hlocal, hper⟩ := hretry t h.segment
      refine ⟨⟨hseg, ?_, nofun, fun _ => ⟨hlocal.trans hbuffer, nofun, nofun⟩, ?_, nofun,
        fun hb => absurd hb hs⟩, rfl, ?_⟩
      · exact hi ▸ hturns
      · rw [if_neg fun hb => hs hb.1]
        exact hper.trans (hperf.trans hi.symm)
      · dsimp only
        rw [hlocal, hper]

/-- A call of `update_global_counter_with_cas` takes the batch along. -/
theorem turns_updateGlobalCounterWithCas (hseg : 0 < cfg.segmentCount) {n : Thread} {v : Nat}
    (hi : n.i ≤ cfg.opsPerThread) (hv : v = n.localBuffer)
    (hperf : n.performed = if n.i < cfg.opsPerThread then n.i + 1 else n.i)
    (hsum : n.localBuffer + t.performed = t.localBuffer + n.performed) :
    t.Turns cfg .batch counters (counters, updateGlobalCounterWithCas cfg n v) := by
  refine ⟨⟨Nat.mod_lt _ hseg, hi, nofun, fun hb => absurd rfl hb, ?_, nofun, fun _ _ _ => hv⟩, rfl, ?_⟩
  · rw [updateGlobalCounterWithCas, hperf]
    simp
  · unfold updateGlobalCounterWithCas
    dsimp only
    omega

theorem turns_batchUpdateThread (hseg : 0 < cfg.segmentCount) (hbatch : 0 < cfg.batchSize)
    (hlen : counters.length = cfg.segmentCount) (h : t.Ok cfg .batch) (fails : Bool) :
    t.Turns cfg .batch counters (batchUpdateThread cfg counters t fails) := by
  have hperf := h.performed
  have hturns := h.turns
  unfold batchUpdateThread
  cases hpc : t.pc with
  | finished => exact ⟨h, rfl, rfl⟩
  | next =>
    have hbuffer := h.next hpc
    have hperf : t.performed = t.i := by simpa [hpc] using hperf
    dsimp only
    split
    · rename_i hlt
      split
      · rename_i hfull
        refine turns_updateGlobalCounterWithCas hseg hturns ?_ ?_ ?_
        · exact Nat.le_antisymm hfull hbuffer
        · rw [if_pos hlt]
          exact congrArg (· + 1) hperf
        · dsimp only
          omega
      · rename_i hroom
        refine ⟨⟨h.segment, hlt, nofun, fun hb => absurd rfl hb, ?_,
          fun _ => Nat.lt_of_not_le hroom, fun _ hne => absurd rfl hne⟩, rfl, ?_⟩
        · simpa [hpc] using hperf
        · dsimp only
          omega
    · rename_i hge
      split
      · refine turns_updateGlobalCounterWithCas hseg hturns rfl ?_ rfl
        rw [if_neg hge, hperf]
      · rename_i hempty
        have hi : t.i = cfg.opsPerThread := Nat.le_antisymm hturns (Nat.le_of_not_lt hge)
        have hzero : t.localBuffer = 0 := Nat.eq_zero_of_not_pos hempty
        refine ⟨⟨h.segment, hturns, fun _ => ⟨hi, hzero⟩, fun hb => absurd rfl hb, ?_, nofun,
          fun _ _ hne => absurd rfl hne⟩, rfl, rfl⟩
        simp [hge, hperf]
  | load =>
    refine ⟨⟨h.segment, hturns, nofun, fun hb => absurd rfl hb, ?_, nofun, fun _ _ _ => ?_⟩, rfl, rfl⟩
    · simpa [hpc] using hperf
    · exact h.flushing rfl (by rw [hpc]; nofun) (by rw [hpc]; nofun)
  | cas expected =>
    have hvalue := h.flushing rfl (by rw [hpc]; nofun) (by rw [hpc]; nofun)
    have hperf : t.performed = if t.i < cfg.opsPerThread then t.i + 1 else t.i := by
      simpa [hpc] using hperf
    dsimp only
    split
    · rename_i hcas
      have hsum := sum_set t.valueToAdd (hlen ▸ h.segment) hcas.1
      split
      · rename_i hlt
        rw [if_pos hlt] at hperf
        refine ⟨⟨h.segment, hlt, nofun, fun hb => absurd rfl hb, ?_, fun _ => hbatch,
          fun _ hne => absurd rfl hne⟩, List.length_set, ?_⟩
        · simpa using hperf
        · dsimp only
          omega
      · rename_i hge
        rw [if_neg hge] at hperf
        refine ⟨⟨h.segment, hturns, fun _ => ⟨?_, rfl⟩, fun hb => absurd rfl hb, ?_, nofun,
          fun _ _ hne => absurd rfl hne⟩, List.length_set, ?_⟩
        · exact Nat.le_antisymm hturns (Nat.le_of_not_lt hge)
        · simpa [hge] using hperf
        · dsimp only
          omega
    · refine ⟨⟨h.segment, hturns, nofun, fun hb => absurd rfl hb, ?_, nofun, fun _ _ _ => hvalue⟩,
        rfl, rfl⟩
      simpa using hperf

theorem turns_thread (hseg : 0 < cfg.segmentCount) (hbatch : 0 < cfg.batchSize)
    (hlen : counters.length = cfg.segmentCount) (h : t.Ok cfg strategy) (fails : Bool) :
    t.Turns cfg strategy counters (strategy.thread cfg counters t fails) := by
  cases strategy with
  | segmented =>
    have hs : Strategy.segmented ≠ .batch := by decide
    exact turns_incrementThread hs (fun t ht => ⟨ht, rfl, rfl, rfl⟩) hlen h fails
  | optimized =>
    have hs : Strategy.optimized ≠ .batch := by decide
    show t.Turns cfg .optimized counters (optimizedSegmentedThread cfg counters t fails)
    unfold optimizedSegmentedThread
    refine turns_incrementThread hs ?_ hlen h fails
    exact fun t ht => ⟨ht, rfl, rfl, rfl⟩
  | ultra =>
    have hs : Strategy.ultra ≠ .batch := by decide
    show t.Turns cfg .ultra counters (ultraHighConcurrencyThread cfg counters t fails)
    unfold ultraHighConcurrencyThread
    refine turns_incrementThread hs ?_ hlen h fails
    intro t ht
    split
    · exact ⟨Nat.mod_lt _ hseg, rfl, rfl, rfl⟩
    · exact ⟨ht, rfl, rfl, rfl⟩
  | batch => exact turns_batchUpdateThread hseg hbatch hlen h fails

/-! ## All threads -/

structure State.Inv (cfg : Config) (strategy : Strategy) (s : State) : Prop where
  segments : s.counters.length = cfg.segmentCount
  numThreads : s.threads.length = cfg.numThreads
  threads : ∀ t ∈ s.threads, t.Ok cfg strategy
  sum : s.counters.sum + (s.threads.map Thread.localBuffer).sum =
    (s.threads.map Thread.performed).sum

theorem inv_init (hseg : 0 < cfg.segmentCount) (hbatch : 0 < cfg.batchSize) (strategy : Strategy) :
    (State.init cfg strategy).Inv cfg strategy where
  segments := List.length_replicate
  numThreads := by simp [State.init]
  threads := by
    intro t ht
    obtain ⟨threadId, -, rfl⟩ := List.mem_map.mp ht
    refine ⟨Nat.mod_lt _ hseg, Nat.zero_le _, ?_, fun hs => ⟨rfl, ?_, ?_⟩, ?_, fun _ => hbatch,
      fun _ _ _ => rfl⟩
    · cases strategy <;> nofun
    · simp [Strategy.create, hs]
    · simp [Strategy.create, hs]
    · cases strategy <;> simp [Strategy.create]
  sum := by
    have hzero : ∀ f : Thread → Nat, (∀ threadId, f (strategy.create cfg threadId) = 0) →
        ((State.init cfg strategy).threads.map f).sum = 0 := by
      intro f hf
      simp [State.init, Function.comp_def, hf]
    rw [hzero Thread.localBuffer fun _ => rfl, hzero Thread.performed fun _ => rfl]
    simp [State.init]

theorem inv_step (hseg : 0 < cfg.segmentCount) (hbatch : 0 < cfg.batchSize)
    (h : s.Inv cfg strategy) (turn : Turn) : (step cfg strategy s turn).Inv cfg strategy := by
  unfold step
  cases ht : s.threads[turn.thread]? with
  | none => exact h
  | some t =>
    have hturn := turns_thread hseg hbatch h.segments
      (h.threads t (List.mem_of_getElem? ht)) turn.fails
    dsimp only
    generalize strategy.thread cfg s.counters t turn.fails = r at hturn ⊢
    have hlocal := Roster.sum_map_set ht r.2 Thread.localBuffer
    have hperf := Roster.sum_map_set ht r.2 Thread.performed
    have hsum := h.sum
    have hstep := hturn.sum
    refine ⟨hturn.length.trans h.segments, ?_, fun t' ht' => ?_, ?_⟩
    · exact List.length_set.trans h.numThreads
    · rcases Roster.mem_set ht' with rfl | hold
      · exact hturn.ok
      · exact h.threads t' hold
    · dsimp only
      omega

/-- When every thread has finished, each has performed all its operations
and has nothing left in its buffer. -/
theorem conserved_of_inv (h : s.Inv cfg strategy) : s.Conserved cfg where
  sum := h.sum
  finished := by
    intro hall
    have hdone : ∀ t ∈ s.threads, t.localBuffer = 0 ∧ t.performed = cfg.opsPerThread := by
      intro t ht
      have hok := h.threads t ht
      obtain ⟨hi, hzero⟩ := hok.finished (hall t ht)
      refine ⟨hzero, ?_⟩
      rw [hok.performed, hi, if_neg fun hb => Nat.lt_irrefl _ hb.2.2]
    have hlocal : s.threads.map Thread.localBuffer = List.replicate cfg.numThreads 0 :=
      List.eq_replicate_iff.mpr ⟨by rw [List.length_map, h.numThreads], fun b hb => by
        obtain ⟨t, ht, rfl⟩ := List.mem_map.mp hb
        exact (hdone t ht).1⟩
    have hperf : s.threads.map Thread.performed = List.replicate cfg.numThreads cfg.opsPerThread :=
      List.eq_replicate_iff.mpr ⟨by rw [List.length_map, h.numThreads], fun b hb => by
        obtain ⟨t, ht, rfl⟩ := List.mem_map.mp hb
        exact (hdone t ht).2⟩
    have hsum := h.sum
    rw [hlocal, hperf] at hsum
    simpa using hsum

/-- The counters and the local buffers have every increment. -/
theorem increments_conserved (hseg : 0 < cfg.segmentCount) (hbatch : 0 < cfg.batchSize)
    (strategy : Strategy)
    (turns : List Turn) : (run (step cfg strategy) (State.init cfg strategy) turns).Conserved cfg :=
  conserved_of_inv (run_invariant' (I := State.Inv cfg strategy)
    (fun _ turn h => inv_step hseg hbatch h turn) turns (inv_init hseg hbatch strategy))

/-- Two threads with three operations each and batches of two on one
segment; a compare-exchange fails and is tried again. -/
theorem increments_conserved_batches :
    (run (step ⟨2, 3, 1, 2, 10⟩ .batch) (State.init ⟨2, 3, 1, 2, 10⟩ .batch)
      [⟨0, false⟩, ⟨1, false⟩, ⟨0, false⟩, ⟨1, false⟩, ⟨0, false⟩, ⟨1, false⟩, ⟨0, false⟩,
        ⟨1, false⟩, ⟨1, false⟩, ⟨1, false⟩]).Conserved ⟨2, 3, 1, 2, 10⟩ :=
  increments_conserved (by decide) (by decide) .batch _

/-- One thread, one operation, batches of no size: the increment is
performed, and neither the counter nor the buffer has it. -/
theorem lost_emptyBatch :
    ¬ (run (step ⟨1, 1, 1, 0, 10⟩ .batch) (State.init ⟨1, 1, 1, 0, 10⟩ .batch)
      [⟨0, false⟩, ⟨0, false⟩, ⟨0, false⟩]).Conserved ⟨1, 1, 1, 0, 10⟩ := fun h =>
  absurd h.sum (by decide)

end Training.CasCounter
