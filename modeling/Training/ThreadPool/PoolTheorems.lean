/-
Training.ThreadPool.PoolTheorems — the ring, the order of the tasks and
the two ways to shut the pool down, in every interleaving.

`Threadpool.Inv` is the invariant: the queue between `head` and `tail`
has the tasks accepted and not dequeued, and a task dequeued and not
executed is in the hands of one worker. A worker that is out of the loop
has seen `shutdown`, and after a graceful one an empty queue, which stays
empty because nothing is accepted any more.
-/
import Training.Lib.Machine
import Training.Lib.Ring
import Training.Lib.Roster
import Training.ThreadPool.Pool

namespace Training.ThreadPool

open Training.Lib

universe u

variable {φ α : Type u} {pool : Threadpool φ α}

/-- The task a worker has taken and not called. -/
def Worker.held : Worker φ α → List (Task φ α)
  | .running task => [task]
  | _ => []

structure Threadpool.Inv (pool : Threadpool φ α) : Prop where
  head : pool.head % pool.queueSize = pool.head
  nonneg : 0 ≤ pool.count
  room : pool.count ≤ pool.queueSize
  tail : pool.tail = (pool.head + pool.count.toNat) % pool.queueSize
  fifo : pool.accepted =
    pool.dequeued ++ Ring.elems pool.queue pool.queueSize pool.head pool.count.toNat
  held : (pool.executed ++ pool.workers.flatMap Worker.held).Perm pool.dequeued
  left : .left ∈ pool.workers →
    pool.shutdown.isSome ∧ (pool.shutdown = some .grachfulShutdown → pool.count = 0)

theorem inv_threadpoolCreate (threadCount queueSize : Nat) (queue : Nat → Task φ α) :
    (threadpoolCreate threadCount queueSize queue).Inv where
  head := Nat.zero_mod _
  nonneg := Int.le_refl _
  room := Int.natCast_nonneg _
  tail := (Nat.zero_mod _).symm
  fifo := rfl
  held := by simp [threadpoolCreate, Worker.held, List.flatMap_replicate]
  left h := absurd (List.eq_of_mem_replicate h) (by simp)

/-! ## Steps -/

theorem inv_threadpoolAdd (h : pool.Inv) (func : Option φ) (arg : α) (signal : Int) :
    (threadpoolAdd pool func arg signal).2.Inv := by
  unfold threadpoolAdd
  split
  · exact h
  · split
    · exact h
    · split
      · exact h
      · rename_i func hfull hopen
        have hnonneg := h.nonneg
        have hroom : pool.count < pool.queueSize :=
          Int.lt_iff_le_and_ne.mpr ⟨h.room, fun heq => hfull (beq_iff_eq.mpr heq)⟩
        have hsucc : (pool.count + 1).toNat = pool.count.toNat + 1 := by omega
        refine ⟨h.head, ?_, hroom, ?_, ?_, h.held, fun hleft => ?_⟩
        · dsimp only
          omega
        · dsimp only
          rw [h.tail, hsucc, Nat.mod_add_mod, Nat.add_assoc]
        · dsimp only
          rw [h.tail, hsucc, Ring.elems_push (by omega), h.fifo, List.append_assoc]
        · exact absurd (h.left hleft).1 hopen

/-- A worker that has nothing in its hands is in another state. -/
theorem held_set {i : Nat} {w : Worker φ α} (hw : pool.workers[i]? = some w)
    (w' : Worker φ α) (hheld : w.held = []) {tasks : List (Task φ α)}
    (h : (tasks ++ pool.workers.flatMap Worker.held).Perm pool.dequeued) :
    (tasks ++ (pool.workers.set i w').flatMap Worker.held).Perm (pool.dequeued ++ w'.held) := by
  have hset := Roster.flatMap_set_perm hw w' Worker.held
  rw [hheld, List.nil_append] at hset
  calc (tasks ++ (pool.workers.set i w').flatMap Worker.held).Perm
          (tasks ++ (w'.held ++ pool.workers.flatMap Worker.held)) := hset.append_left _
    _ |>.Perm (w'.held ++ (tasks ++ pool.workers.flatMap Worker.held)) :=
      List.perm_append_comm_assoc ..
    _ |>.Perm (w'.held ++ pool.dequeued) := h.append_left _
    _ |>.Perm (pool.dequeued ++ w'.held) := List.perm_append_comm

theorem inv_threadpoolThreadfunc {i : Nat} {w : Worker φ α} (hw : pool.workers[i]? = some w)
    (hheld : w.held = []) (h : pool.Inv) : (threadpoolThreadfunc pool i).Inv := by
  have hleft (w' : Worker φ α) (hne : w' ≠ .left) :
      .left ∈ pool.workers.set i w' → .left ∈ pool.workers := fun hmem =>
    (Roster.mem_set hmem).resolve_left fun heq => hne heq.symm
  unfold threadpoolThreadfunc
  split
  · refine ⟨h.head, h.nonneg, h.room, h.tail, h.fifo, ?_,
      fun hmem => h.left (hleft _ (by simp) hmem)⟩
    simpa [Threadpool.setWorker, Worker.held] using held_set hw .waiting hheld h.held
  · split
    · rename_i hout
      refine ⟨h.head, h.nonneg, h.room, h.tail, h.fifo, ?_, fun _ => ?_⟩
      · simpa [Threadpool.setWorker, Worker.held] using held_set hw .left hheld h.held
      · rcases Bool.or_eq_true _ _ ▸ hout with himm | hgrace
        · have hmode := beq_iff_eq.mp himm
          exact ⟨by simp [Threadpool.setWorker, hmode], by simp [Threadpool.setWorker, hmode]⟩
        · obtain ⟨hmode, hzero⟩ := Bool.and_eq_true _ _ ▸ hgrace
          exact ⟨by simp [Threadpool.setWorker, beq_iff_eq.mp hmode], fun _ => beq_iff_eq.mp hzero⟩
    · rename_i hin hout
      -- the queue has a task: an empty one is for waiting or for leaving
      have hne : pool.count ≠ 0 := by
        intro hzero
        cases hmode : pool.shutdown with
        | none => simp [hzero, hmode] at hin
        | some mode => cases mode <;> simp [hzero, hmode] at hout
      have hnonneg := h.nonneg
      have hroom := h.room
      have hsucc : pool.count.toNat = (pool.count - 1).toNat + 1 := by omega
      refine ⟨Nat.mod_mod _ _, ?_, ?_, ?_, ?_, held_set hw _ hheld h.held, fun hmem => ?_⟩
      · dsimp only
        omega
      · simp only [Threadpool.setWorker]
        omega
      · simp only [Threadpool.setWorker, h.tail, hsucc, Nat.mod_add_mod]
        congr 1
        omega
      · simp only [Threadpool.setWorker]
        rw [h.fifo, hsucc, Ring.elems_pop, h.head, List.append_assoc]
        rfl
      · obtain ⟨hsome, hzero⟩ := h.left (hleft _ (by simp) hmem)
        refine ⟨hsome, fun hmode => ?_⟩
        have hcount := hzero hmode
        omega

theorem inv_execute {i : Nat} {task : Task φ α} (hw : pool.workers[i]? = some (.running task))
    (h : pool.Inv) : (pool.execute i task).Inv where
  head := h.head
  nonneg := h.nonneg
  room := h.room
  tail := h.tail
  fifo := h.fifo
  held := by
    have hset := Roster.flatMap_set_perm hw .locking Worker.held
    simp only [Worker.held, List.nil_append] at hset
    simp only [Threadpool.execute, Threadpool.setWorker, List.append_assoc]
    exact (hset.append_left _).trans h.held
  left hmem := h.left ((Roster.mem_set hmem).resolve_left (by simp))

theorem inv_turn (i : Nat) (h : pool.Inv) : (pool.turn i).Inv := by
  unfold Threadpool.turn
  split
  · rename_i hw
    exact inv_threadpoolThreadfunc hw rfl h
  · rename_i hw
    exact inv_threadpoolThreadfunc hw rfl h
  · rename_i hw
    exact inv_execute hw h
  · exact h
  · exact h

theorem inv_threadpoolDestroy (mode : ShowdownMode) (h : pool.Inv) :
    (threadpoolDestroy pool mode).Inv := by
  unfold threadpoolDestroy
  split
  · exact h
  · rename_i hopen
    refine ⟨h.head, h.nonneg, h.room, h.tail, h.fifo, h.held, fun hleft => ?_⟩
    exact absurd (h.left hleft).1 hopen

theorem inv_step (e : Event φ α) (h : pool.Inv) : (step pool e).Inv := by
  cases e with
  | add func arg signal => exact inv_threadpoolAdd h func arg signal
  | worker i => exact inv_turn i h
  | destroy mode => exact inv_threadpoolDestroy mode h

/-! ## After the shutdown -/

/-- `shutdown` stays what it is, nothing is accepted, and after an
immediate shutdown nothing is dequeued. -/
structure Threadpool.Closed (closed pool : Threadpool φ α) : Prop where
  shutdown : pool.shutdown = closed.shutdown
  accepted : pool.accepted = closed.accepted
  dequeued : closed.shutdown = some .immediateShutdown → pool.dequeued = closed.dequeued

theorem closed_threadpoolThreadfunc (i : Nat) :
    pool.Closed (threadpoolThreadfunc pool i) := by
  unfold threadpoolThreadfunc
  split
  · exact ⟨rfl, rfl, fun _ => rfl⟩
  · split
    · exact ⟨rfl, rfl, fun _ => rfl⟩
    · rename_i hout
      refine ⟨rfl, rfl, fun himm => absurd ?_ hout⟩
      simp [himm]

theorem closed_step (pool : Threadpool φ α) (e : Event φ α) (hclosed : pool.shutdown.isSome) :
    pool.Closed (step pool e) := by
  have hsame : pool.Closed pool := ⟨rfl, rfl, fun _ => rfl⟩
  cases e with
  | add func arg signal =>
    simp only [step, threadpoolAdd]
    split
    · exact hsame
    · split
      · exact hsame
      · exact hsame
  | worker i =>
    simp only [step, Threadpool.turn]
    split
    · exact closed_threadpoolThreadfunc i
    · exact closed_threadpoolThreadfunc i
    · exact ⟨rfl, rfl, fun _ => rfl⟩
    · exact hsame
    · exact hsame
  | destroy mode =>
    simp only [step, threadpoolDestroy, if_pos hclosed]
    exact hsame

theorem closed_run (events : List (Event φ α)) (hclosed : pool.shutdown.isSome) :
    pool.Closed (run step pool events) := by
  refine run_invariant' (fun later e h => ?_) events ⟨rfl, rfl, fun _ => rfl⟩
  have hstep := closed_step later e (by rw [h.shutdown]; exact hclosed)
  refine ⟨hstep.shutdown.trans h.shutdown, hstep.accepted.trans h.accepted, fun himm => ?_⟩
  exact (hstep.dequeued (h.shutdown.trans himm)).trans (h.dequeued himm)

/-! ## The pool -/

structure Threadpool.Sound (pool : Threadpool φ α) : Prop where
  count : 0 ≤ pool.count ∧ pool.count ≤ pool.queueSize
  tail : (pool.tail : Int) = (pool.head + pool.count) % pool.queueSize
  /-- tasks are dequeued in the order they are accepted in -/
  fifo : pool.dequeued <+: pool.accepted
  /-- each is executed at most once -/
  once : pool.executed.Subperm pool.dequeued
  graceful : pool.shutdown = some .grachfulShutdown → .left ∈ pool.workers →
    pool.dequeued = pool.accepted

theorem sound_of_inv (h : pool.Inv) : pool.Sound where
  count := ⟨h.nonneg, h.room⟩
  tail := by
    have hcast : (pool.count.toNat : Int) = pool.count := Int.toNat_of_nonneg h.nonneg
    rw [h.tail, Int.natCast_mod, Int.natCast_add, hcast]
  fifo := ⟨_, h.fifo.symm⟩
  once := (List.sublist_append_left _ _).subperm.trans h.held.subperm
  graceful hmode hleft := by
    rw [h.fifo, (h.left hleft).2 hmode, Int.toNat_zero, Ring.elems_zero, List.append_nil]

/-- In every state of every run the ring is in shape and the tasks in
order; a worker leaves a graceful shutdown when all tasks are dequeued;
and whatever comes after a shutdown, nothing is accepted, and after an
immediate one nothing is dequeued. -/
theorem pool_sound (threadCount queueSize : Nat) (queue : Nat → Task φ α)
    (events : List (Event φ α)) :
    (run step (threadpoolCreate threadCount queueSize queue) events).Sound ∧
      ∀ later, (run step (threadpoolCreate threadCount queueSize queue) events).shutdown.isSome →
        (run step (threadpoolCreate threadCount queueSize queue) events).Closed
          (run step (threadpoolCreate threadCount queueSize queue) (events ++ later)) := by
  have hinv := run_invariant' (fun _ e h => inv_step e h) events
    (inv_threadpoolCreate threadCount queueSize queue)
  refine ⟨sound_of_inv hinv, fun later hclosed => ?_⟩
  rw [run_append]
  exact closed_run later hclosed

/-- Two workers on a ring of two slots, a graceful shutdown with a task in
the queue. -/
example :
    (run step (threadpoolCreate 2 2 fun _ => (⟨0, 0⟩ : Task Nat Nat))
      [.worker 0, .add (some 1) 10 0, .add (some 2) 20 0, .add (some 3) 30 0, .worker 0,
        .destroy .grachfulShutdown, .worker 1, .worker 0, .worker 0, .worker 1]).executed.map
          Task.func = [1, 2] := by
  decide

end Training.ThreadPool
