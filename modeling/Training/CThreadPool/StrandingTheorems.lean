/-
Training.CThreadPool.StrandingTheorems — a thread for the tasks in the
list.

`ThreadPoolAddWork` creates a thread when none is free, and a routine
leaves its loop when too many are. Both read `current_pthread_num`, which
counts a routine that has left its loop until it has decremented the
counter, outside the lock. As long as the decisions are the ones the
threads still in the loop would give (`Pool.Accurate`), a pool with tasks
in its list has one of them (`notStranded_of_accurate`).
-/
import Training.CThreadPool.AccountingTheorems

namespace Training.CThreadPool

open Training.Lib

universe u

variable {φ α : Type u} {pool pool' : Pool φ α}

/-- The threads that have not left the loop. -/
def Pool.servingNum (pool : Pool φ α) : Nat := pool.routines.countP Routine.inLoop

/-- Somebody is there for the tasks in the list. -/
def Pool.NotStranded (pool : Pool φ α) : Prop :=
  pool.shutdown = false → pool.queueHead ≠ [] → ∃ r ∈ pool.routines, r.inLoop = true

/-- The decision to create a thread, or to leave the loop, is the one that
the number of threads in the loop gives. Without memory for the node none
is made. -/
def Pool.Accurate (pool : Pool φ α) : Event φ α → Prop
  | .addWorkLimit _ mem =>
      mem = true → pool.createsLimit pool.currentPthreadNum = pool.createsLimit pool.servingNum
  | .addWorkUnlimit _ mem =>
      mem = true → pool.noneFree pool.currentPthreadNum = pool.noneFree pool.servingNum
  | .thread t =>
      (pool.routines[t]?).any Routine.isRunning = true →
        pool.taskDone.surplus pool.currentPthreadNum = pool.taskDone.surplus pool.servingNum
  | .destroy => True
  | .join => True

instance (pool : Pool φ α) (e : Event φ α) : Decidable (pool.Accurate e) := by
  cases e <;> unfold Pool.Accurate <;> infer_instance

theorem running_le_serving (pool : Pool φ α) : pool.runningNum ≤ pool.servingNum :=
  List.countP_mono_left fun r _ hrun => by
    cases r with
    | running worker => rfl
    | _ => cases hrun

/-- What is kept until the shutdown. -/
structure Pool.Served (pool : Pool φ α) : Prop where
  accounted : pool.Accounted
  maxNum : 1 ≤ pool.maxThreadNum
  freeNum : 0 ≤ pool.freePthreadNum
  serving : pool.queueHead ≠ [] → 1 ≤ pool.servingNum
  joining : pool.joining = none
  freed : pool.freed = false

theorem notStranded_of_served (h : pool.Served) : pool.NotStranded := fun _ hqueue => by
  obtain ⟨r, hmem, hr⟩ := List.countP_pos_iff.mp (h.serving hqueue)
  exact ⟨r, hmem, hr⟩

theorem served_new (hmax : 1 ≤ pool.maxThreadNum) (hfree : 0 ≤ pool.freePthreadNum)
    (h : New pool) : pool.Served where
  accounted := accounted_new h
  maxNum := hmax
  freeNum := hfree
  serving := by cases h <;> exact fun hqueue => absurd rfl hqueue
  joining := by cases h <;> rfl
  freed := by cases h <;> rfl

/-! ## Steps -/

theorem serving_submits {newworker : Worker φ α} {creates : Bool}
    (hsub : pool.Submits newworker creates pool') :
    pool'.servingNum = pool.servingNum + if creates then 1 else 0 := by
  unfold Pool.servingNum
  rw [hsub.routines, List.countP_append]
  cases creates <;> rfl

/-- Nobody is in the loop, so nothing is in the list, no task is under
way, and there is room for a thread: it is created. -/
theorem served_submits {newworker : Worker φ α} {creates : Bool}
    (hsub : pool.Submits newworker creates pool') (h : pool.Served)
    (hcreates : pool.noneFree pool.servingNum = true → pool.servingNum < pool.maxThreadNum →
      creates = true) : pool'.Served where
  accounted := accounted_submits hsub h.accounted
  maxNum := Int.le_trans h.maxNum hsub.maxNum
  freeNum := by rw [hsub.freeNum]; exact h.freeNum
  serving _ := by
    rw [serving_submits hsub]
    rcases Nat.eq_zero_or_pos pool.servingNum with hzero | hpos
    · have hqueue : pool.queueHead = [] := by
        by_contra hqueue
        exact absurd (h.serving hqueue) (by omega)
      have hrun := running_le_serving pool
      have htask := h.accounted.taskNum
      have hmax := h.maxNum
      rw [hqueue] at htask
      rw [hcreates ?_ (by omega)]
      · exact Nat.le_add_left 1 _
      · simp only [Pool.noneFree, beq_iff_eq, List.length_nil] at htask ⊢
        omega
    · omega
  joining := hsub.joining.trans h.joining
  freed := hsub.freed.trans h.freed

/-- A thread that stays in the loop. -/
theorem serving_set {t : Nat} {r : Routine φ α} (hr : pool.routines[t]? = some r)
    (r' : Routine φ α) (hin : r.inLoop = r'.inLoop) :
    (pool.routines.set t r').countP Routine.inLoop = pool.servingNum := by
  have hcount := Roster.countP_set hr r' Routine.inLoop
  rw [hin] at hcount
  exact Nat.add_right_cancel hcount

theorem served_take {t : Nat} {r : Routine φ α} (hr : pool.routines[t]? = some r)
    (hrun : r.isRunning = false) (hin : r.inLoop = true) (hopen : pool.shutdown = false)
    (h : pool.Served) : (pool.take t).Served := by
  have hacc := accounted_take hr hrun h.accounted
  obtain ⟨-, heq⟩ | ⟨hclosed, -⟩ | ⟨worker, rest, -, hqueue, heq⟩ := take_cases h.accounted t
  · rw [heq] at hacc ⊢
    have hserving := serving_set hr .waiting hin
    exact ⟨hacc, h.maxNum, h.freeNum, fun hne => le_of_le_of_eq (h.serving hne) hserving.symm,
      h.joining, h.freed⟩
  · exact absurd (hopen.symm.trans hclosed) (by decide)
  · rw [heq] at hacc ⊢
    have hserving := serving_set hr (.running worker) hin
    refine ⟨hacc, h.maxNum, h.freeNum, fun _ => ?_, h.joining, h.freed⟩
    exact le_of_le_of_eq (h.serving (by simp [hqueue])) hserving.symm

/-- A thread that leaves the loop leaves one for each task in the list. -/
theorem served_finish {t : Nat} {worker : Worker φ α}
    (hr : pool.routines[t]? = some (.running worker))
    (hacc : pool.taskDone.surplus pool.currentPthreadNum = pool.taskDone.surplus pool.servingNum)
    (h : pool.Served) : (pool.finish t).Served := by
  have hfin := accounted_finish hr h.accounted
  unfold Pool.finish at hfin ⊢
  have hnum : pool.taskDone.currentPthreadNum = pool.currentPthreadNum := rfl
  dsimp only at hfin ⊢
  rw [hnum, hacc] at hfin ⊢
  split
  · rename_i hsurplus
    rw [if_pos hsurplus] at hfin
    refine ⟨hfin, h.maxNum, h.freeNum, fun hne => ?_, h.joining, h.freed⟩
    have hset := Roster.countP_set hr .leaving Routine.inLoop
    have hrun : 1 ≤ pool.runningNum :=
      List.countP_pos_iff.mpr ⟨_, List.mem_of_getElem? hr, rfl⟩
    have hlen : 1 ≤ pool.queueHead.length := List.length_pos_iff.mpr hne
    have htask := h.accounted.taskNum
    have hfree := h.freeNum
    have hfreeing := of_decide_eq_true hsurplus
    simp only [Routine.inLoop, if_true, Bool.false_eq_true, if_false, Nat.add_zero] at hset
    simp only [Pool.servingNum, Pool.setRoutine, Pool.taskDone] at hfreeing ⊢
    omega
  · rename_i hsurplus
    rw [if_neg hsurplus] at hfin
    have hserving := serving_set hr .locking rfl
    exact ⟨hfin, h.maxNum, h.freeNum, fun hne => le_of_le_of_eq (h.serving hne) hserving.symm,
      h.joining, h.freed⟩

theorem served_threadPoolRoutine {t : Nat} (hopen : pool.shutdown = false)
    (hacc : pool.Accurate (.thread t)) (h : pool.Served) : (threadPoolRoutine pool t).Served := by
  have hroutine := accounted_threadPoolRoutine t h.accounted
  unfold threadPoolRoutine at hroutine ⊢
  split
  · rename_i hr
    exact served_take hr rfl rfl hopen h
  · rename_i hr
    exact served_take hr rfl rfl hopen h
  · rename_i hr
    exact served_finish hr (hacc (by rw [hr]; rfl)) h
  · rename_i hr
    rw [hr] at hroutine
    have hserving := serving_set hr .exited rfl
    exact ⟨hroutine, h.maxNum, h.freeNum, fun hne => le_of_le_of_eq (h.serving hne) hserving.symm,
      h.joining, h.freed⟩
  · exact h
  · exact h

theorem shutdown_take (t : Nat) : (pool.take t).shutdown = pool.shutdown := by
  unfold Pool.take
  split
  · rfl
  · split
    · rfl
    · split
      · rfl
      · split <;> rfl

theorem shutdown_finish (t : Nat) : (pool.finish t).shutdown = pool.shutdown := by
  unfold Pool.finish
  dsimp only
  split <;> rfl

theorem shutdown_threadPoolRoutine (t : Nat) :
    (threadPoolRoutine pool t).shutdown = pool.shutdown := by
  unfold threadPoolRoutine
  split
  · exact shutdown_take t
  · exact shutdown_take t
  · exact shutdown_finish t
  · rfl
  · rfl
  · rfl

theorem served_step (e : Event φ α) (h : pool.shutdown = false → pool.Served)
    (hacc : pool.Accurate e) : (step pool e).shutdown = false → (step pool e).Served := by
  unfold step
  split
  · exact h
  · cases e with
    | addWorkLimit newworker mem =>
      cases mem with
      | false => exact h
      | true =>
        have hsub := submits_limit pool newworker
        intro hopen
        refine served_submits hsub (h (hsub.shutdown ▸ hopen)) fun hnone hroom => ?_
        rw [hacc rfl, Pool.createsLimit, hnone, decide_eq_true hroom, Bool.and_self]
    | addWorkUnlimit newworker mem =>
      cases mem with
      | false => exact h
      | true =>
        have hsub := submits_unlimit pool newworker
        intro hopen
        exact served_submits hsub (h (hsub.shutdown ▸ hopen)) fun hnone _ => (hacc rfl).trans hnone
    | thread t =>
      intro hopen
      have hbefore := (shutdown_threadPoolRoutine t).symm.trans hopen
      exact served_threadPoolRoutine hbefore hacc (h hbefore)
    | destroy =>
      simp only [threadPoolDestroy]
      split
      · exact h
      · exact fun hopen => absurd hopen (by simp)
    | join =>
      intro hopen
      have hbefore : pool.shutdown = false := by
        simp only [Pool.join] at hopen
        split at hopen
        · exact hopen
        · split at hopen
          · split at hopen <;> exact hopen
          · exact hopen
      have hserved := h hbefore
      simpa only [Pool.join, hserved.joining] using hserved

/-! ## Runs -/

/-- In every state of every run whose decisions are the ones of the
threads in the loop. -/
theorem notStranded_of_accurate {maxNum : Nat} {freeNum : Int} (hmax : 1 ≤ maxNum)
    (hfree : 0 ≤ freeNum) (threadid : Int → Nat) (events : List (Event φ α))
    (hacc : Along step Pool.Accurate (threadPoolConstruct maxNum freeNum threadid) events) :
    (run step (threadPoolConstruct maxNum freeNum threadid) events).NotStranded := by
  have hstart : (threadPoolConstruct maxNum freeNum threadid : Pool φ α).Served :=
    served_new (Int.ofNat_le.mpr hmax) hfree (.construct maxNum freeNum threadid)
  have hserved := run_invariant (I := fun pool : Pool φ α => pool.shutdown = false → pool.Served)
    (fun _ e h hc => served_step e h hc) hacc fun _ => hstart
  exact fun hopen hqueue => notStranded_of_served (hserved hopen) hopen hqueue

/-- A routine leaves the loop and decrements the counter before the next
task is submitted. -/
theorem notStranded_oneTask :
    (run step (threadPoolConstruct 1 0 fun _ => 0 : Pool Nat Nat)
      [.addWorkLimit ⟨1, 10⟩ true, .thread 0, .thread 0, .thread 0,
        .addWorkLimit ⟨2, 20⟩ true]).NotStranded :=
  notStranded_of_accurate (by decide) (by decide) _ _ (by decide)

/-- A task is submitted while the only routine is out of the loop and
still counted. -/
theorem stranded_task :
    ¬ (run step (threadPoolConstruct 1 0 fun _ => 0 : Pool Nat Nat)
      [.addWorkLimit ⟨1, 10⟩ true, .thread 0, .thread 0, .addWorkLimit ⟨2, 20⟩ true,
        .thread 0]).NotStranded := by
  intro h
  obtain ⟨r, hmem, hr⟩ := h (by decide) (List.cons_ne_nil _ _)
  have hnone : ∀ r ∈ (run step (threadPoolConstruct 1 0 fun _ => 0 : Pool Nat Nat)
      [.addWorkLimit ⟨1, 10⟩ true, .thread 0, .thread 0, .addWorkLimit ⟨2, 20⟩ true,
        .thread 0]).routines, r.inLoop = false := by decide
  rw [hnone r hmem] at hr
  cases hr

end Training.CThreadPool
