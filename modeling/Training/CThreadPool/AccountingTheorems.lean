/-
Training.CThreadPool.AccountingTheorems — the counters of the tasks and
the task list, in every interleaving.

`Pool.Submits` says what a submission does to the pool, with and without
a new thread. `Pool.Accounted` is the invariant: `current_wait_queue_num`
is the length of the list, `current_pthread_task_num` counts the tasks in
the list and the ones running, and the list has what was submitted and
not taken. So the asserts of `ThreadPoolRoutine` hold after any wait.
-/
import Training.CThreadPool.Pool
import Training.Lib.Machine
import Training.Lib.Roster

namespace Training.CThreadPool

open Training.Lib

universe u

variable {φ α : Type u} {pool pool' : Pool φ α}

/-! ## Submitting -/

@[simp] theorem insertTail_eq (workers : List (Worker φ α)) (newworker : Worker φ α) :
    insertTail workers newworker = workers ++ [newworker] := by
  induction workers with
  | nil => rfl
  | cons member rest ih => rw [insertTail, ih, List.cons_append]

/-- `pool'` is `pool` with a task more, and with a thread more if
`creates`. -/
structure Pool.Submits (pool : Pool φ α) (newworker : Worker φ α) (creates : Bool)
    (pool' : Pool φ α) : Prop where
  queueHead : pool'.queueHead = pool.queueHead ++ [newworker]
  waitNum : pool'.currentWaitQueueNum = pool.currentWaitQueueNum + 1
  taskNum : pool'.currentPthreadTaskNum = pool.currentPthreadTaskNum + 1
  submitted : pool'.submitted = pool.submitted ++ [newworker]
  taken : pool'.taken = pool.taken
  routines : pool'.routines = pool.routines ++ if creates then [.locking] else []
  pthreadNum : pool'.currentPthreadNum = pool.currentPthreadNum + if creates then 1 else 0
  threadid : pool'.threadid =
    if creates then Function.update pool.threadid pool.currentPthreadNum pool.routines.length
    else pool.threadid
  maxNum : pool.maxThreadNum ≤ pool'.maxThreadNum
  freeNum : pool'.freePthreadNum = pool.freePthreadNum
  shutdown : pool'.shutdown = pool.shutdown
  aborted : pool'.aborted = pool.aborted
  joining : pool'.joining = pool.joining
  joined : pool'.joined = pool.joined
  freed : pool'.freed = pool.freed

theorem submits_limit (pool : Pool φ α) (newworker : Worker φ α) :
    pool.Submits newworker (pool.createsLimit pool.currentPthreadNum)
      (threadPoolAddWorkLimit pool newworker true).2 := by
  have hinsert : (pool.insert newworker).createsLimit pool.currentPthreadNum =
      pool.createsLimit pool.currentPthreadNum := rfl
  have hnum : (pool.insert newworker).currentPthreadNum = pool.currentPthreadNum := rfl
  simp only [threadPoolAddWorkLimit, addWork, hnum, hinsert]
  cases pool.createsLimit pool.currentPthreadNum with
  | false => constructor <;> simp [Pool.insert]
  | true => constructor <;> simp [Pool.insert, Pool.pthreadCreate]

theorem submits_unlimit (pool : Pool φ α) (newworker : Worker φ α) :
    pool.Submits newworker (pool.noneFree pool.currentPthreadNum)
      (threadPoolAddWorkUnlimit pool newworker true).2 := by
  have hinsert : (pool.insert newworker).noneFree pool.currentPthreadNum =
      pool.noneFree pool.currentPthreadNum := rfl
  have hnum : (pool.insert newworker).currentPthreadNum = pool.currentPthreadNum := rfl
  simp only [threadPoolAddWorkUnlimit, addWork, Bool.not_true, Bool.false_eq_true, if_false, hnum,
    hinsert]
  cases pool.noneFree pool.currentPthreadNum with
  | false => constructor <;> simp [Pool.insert]
  | true =>
    by_cases hmax : pool.maxThreadNum < pool.currentPthreadNum + 1
    · constructor <;> simp [Pool.insert, Pool.pthreadCreate, Pool.raiseMax, hmax]
      exact Int.le_of_lt hmax
    · constructor <;> simp [Pool.insert, Pool.pthreadCreate, Pool.raiseMax, hmax]

/-! ## The invariant -/

/-- The tasks that have been taken and are not finished. -/
def Pool.runningNum (pool : Pool φ α) : Nat := pool.routines.countP Routine.isRunning

structure Pool.Accounted (pool : Pool φ α) : Prop where
  /-- no assert has failed -/
  asserts : pool.aborted = false
  waitNum : pool.currentWaitQueueNum = pool.queueHead.length
  taskNum : pool.currentPthreadTaskNum = pool.queueHead.length + pool.runningNum
  /-- tasks are taken in the order of submission, each once -/
  order : pool.submitted = pool.taken ++ pool.queueHead

theorem accounted_new (h : New pool) : pool.Accounted := by
  cases h with
  | construct maxNum freeNum threadid =>
    constructor <;> simp [threadPoolConstruct, Pool.runningNum, List.countP_replicate,
      Routine.isRunning]
  | constructDefault threadid =>
    constructor <;> simp [threadPoolConstructDefault, threadPoolConstruct, Pool.runningNum]

theorem accounted_submits {newworker : Worker φ α} {creates : Bool}
    (hsub : pool.Submits newworker creates pool') (h : pool.Accounted) : pool'.Accounted where
  asserts := hsub.aborted.trans h.asserts
  waitNum := by
    rw [hsub.waitNum, hsub.queueHead, h.waitNum, List.length_append]
    rfl
  taskNum := by
    have hrun : pool'.runningNum = pool.runningNum := by
      unfold Pool.runningNum
      rw [hsub.routines, List.countP_append]
      cases creates <;> rfl
    rw [hsub.taskNum, hsub.queueHead, h.taskNum, hrun, List.length_append, List.length_singleton,
      Int.natCast_add]
    omega
  order := by rw [hsub.submitted, hsub.taken, hsub.queueHead, h.order, List.append_assoc]

/-- A thread that is not running goes on to a state that is not, either. -/
theorem accounted_setRoutine {t : Nat} {r : Routine φ α} (hr : pool.routines[t]? = some r)
    (r' : Routine φ α) (hrun : r.isRunning = r'.isRunning) (h : pool.Accounted) :
    (pool.setRoutine t r').Accounted where
  asserts := h.asserts
  waitNum := h.waitNum
  taskNum := by
    have hcount := Roster.countP_set hr r' Routine.isRunning
    have hsame : (pool.setRoutine t r').runningNum = pool.runningNum := by
      simp only [Pool.runningNum, Pool.setRoutine]
      rw [hrun] at hcount
      exact Nat.add_right_cancel hcount
    rw [hsame]
    exact h.taskNum
  order := h.order

/-- The first critical section: the asserts hold, because the wait ends
with a task or with the shutdown. -/
theorem take_cases (h : pool.Accounted) (t : Nat) :
    (pool.shutdown = false ∧ pool.take t = pool.setRoutine t .waiting) ∨
      (pool.shutdown = true ∧ pool.take t = pool.setRoutine t .exited) ∨
      ∃ worker rest, pool.shutdown = false ∧ pool.queueHead = worker :: rest ∧
        pool.take t = { pool.setRoutine t (.running worker) with
          currentWaitQueueNum := pool.currentWaitQueueNum - 1
          queueHead := rest
          taken := pool.taken ++ [worker] } := by
  unfold Pool.take
  cases hshutdown : pool.shutdown with
  | true => exact Or.inr (Or.inl ⟨rfl, by simp⟩)
  | false =>
    cases hqueue : pool.queueHead with
    | nil =>
      have hzero : pool.currentWaitQueueNum = 0 := by rw [h.waitNum, hqueue]; rfl
      exact Or.inl ⟨rfl, by simp [hzero]⟩
    | cons worker rest =>
      have hne : pool.currentWaitQueueNum ≠ 0 := by
        rw [h.waitNum, hqueue, List.length_cons]
        omega
      exact Or.inr (Or.inr ⟨worker, rest, rfl, rfl, by simp [hne]⟩)

theorem accounted_take {t : Nat} {r : Routine φ α} (hr : pool.routines[t]? = some r)
    (hrun : r.isRunning = false) (h : pool.Accounted) : (pool.take t).Accounted := by
  obtain ⟨-, heq⟩ | ⟨-, heq⟩ | ⟨worker, rest, -, hqueue, heq⟩ := take_cases h t
  · rw [heq]
    exact accounted_setRoutine hr _ hrun h
  · rw [heq]
    exact accounted_setRoutine hr _ hrun h
  · have hcount := Roster.countP_set hr (.running worker) Routine.isRunning
    rw [hrun] at hcount
    have htask := h.taskNum
    have hwaitNum := h.waitNum
    rw [hqueue, List.length_cons] at htask hwaitNum
    simp only [Pool.runningNum, Routine.isRunning, if_true, Bool.false_eq_true, if_false,
      Nat.add_zero] at htask hcount
    rw [heq]
    refine ⟨h.asserts, ?_, ?_, ?_⟩
    · dsimp only
      omega
    · simp only [Pool.runningNum, Pool.setRoutine, hcount]
      omega
    · simp only [Pool.setRoutine, h.order, hqueue, List.append_assoc, List.singleton_append]

theorem accounted_finish {t : Nat} {worker : Worker φ α}
    (hr : pool.routines[t]? = some (.running worker)) (h : pool.Accounted) :
    (pool.finish t).Accounted := by
  have hset (r' : Routine φ α) (hrun : r'.isRunning = false) :
      (pool.taskDone.setRoutine t r').Accounted := by
    have hcount := Roster.countP_set hr r' Routine.isRunning
    rw [hrun] at hcount
    simp only [Routine.isRunning, if_true, Bool.false_eq_true, if_false, Nat.add_zero] at hcount
    have htask := h.taskNum
    simp only [Pool.runningNum] at htask
    refine ⟨h.asserts, h.waitNum, ?_, h.order⟩
    simp only [Pool.runningNum, Pool.setRoutine, Pool.taskDone]
    omega
  unfold Pool.finish
  dsimp only
  split
  · exact hset .leaving rfl
  · exact hset .locking rfl

theorem accounted_threadPoolRoutine (t : Nat) (h : pool.Accounted) :
    (threadPoolRoutine pool t).Accounted := by
  unfold threadPoolRoutine
  split
  · rename_i hr
    exact accounted_take hr rfl h
  · rename_i hr
    exact accounted_take hr rfl h
  · rename_i hr
    exact accounted_finish hr h
  · rename_i hr
    have hset := accounted_setRoutine hr .exited rfl h
    exact ⟨hset.asserts, hset.waitNum, hset.taskNum, hset.order⟩
  · exact h
  · exact h

theorem accounted_join (h : pool.Accounted) :
    pool.join.freed = false → pool.join.Accounted := by
  unfold Pool.join
  split
  · exact fun _ => h
  · split
    · split
      · exact fun _ => ⟨h.asserts, h.waitNum, h.taskNum, h.order⟩
      · exact fun _ => h
    · exact fun hfreed => absurd hfreed (by simp)

theorem accounted_step (e : Event φ α) (h : pool.freed = false → pool.Accounted) :
    (step pool e).freed = false → (step pool e).Accounted := by
  unfold step
  split
  · exact h
  · rename_i hopen
    have hacc : pool.Accounted := h (by simp at hopen; exact hopen.2)
    cases e with
    | addWorkLimit newworker mem =>
      cases mem with
      | false => exact fun _ => hacc
      | true => exact fun _ => accounted_submits (submits_limit _ newworker) hacc
    | addWorkUnlimit newworker mem =>
      cases mem with
      | false => exact fun _ => hacc
      | true => exact fun _ => accounted_submits (submits_unlimit _ newworker) hacc
    | thread t => exact fun _ => accounted_threadPoolRoutine t hacc
    | destroy =>
      simp only [threadPoolDestroy]
      split
      · exact fun _ => hacc
      · exact fun _ => ⟨hacc.asserts, hacc.waitNum, hacc.taskNum, hacc.order⟩
    | join => exact accounted_join hacc

/-- In every state of every run until the pool is freed. -/
theorem work_accounted (hnew : New pool) (events : List (Event φ α)) :
    (run step pool events).freed = false → (run step pool events).Accounted :=
  run_invariant' (I := fun pool : Pool φ α => pool.freed = false → pool.Accounted)
    (fun _ e h => accounted_step e h) events fun _ => accounted_new hnew

/-- Two threads, a task running, one in the list, and a spurious wake-up. -/
theorem work_accounted_twoTasks :
    (run step (threadPoolConstruct 2 0 fun _ => 0 : Pool Nat Nat)
      [.thread 0, .thread 1, .addWorkLimit ⟨1, 10⟩ true, .thread 0, .thread 1,
        .addWorkUnlimit ⟨2, 20⟩ true]).Accounted :=
  work_accounted (.construct 2 0 _) _ (by decide)

end Training.CThreadPool
