/-
Training.CThreadPool.Pool — the elastic thread pool,
`Warehouse/C/C-ThreadPool/pool.c`: `ThreadPoolAddWorkLimit`,
`ThreadPoolAddWorkUnlimit`, `ThreadPoolRoutine`, `ThreadPoolDestroy` and
the two constructors.

Translation notes.

* What runs between taking `queue_lock` and giving it back is one step.
  `current_pthread_num--` at the end of a routine, and a turn of the loop
  of `ThreadPoolDestroy`, are steps of their own, without the lock.
  Waking up from `pthread_cond_wait` is always possible, so a spurious
  wake-up is a step like any other, and what signals and broadcasts do is
  left out.
* A thread is named by its place in the order of creation; `threadid` is
  the table of these names, whose content is arbitrary where nothing has
  been written. `pthread_create` and `realloc` succeed, and `realloc`
  keeps the entries below the new size, which are the ones read.
* The task list is a list. The counters are `int`s and count threads, or
  tasks that are in the pool at a time: it takes 2^31 of them, and 64 GiB
  for their nodes, to overflow one, which is left out.
* A failed `assert` ends the process (`aborted`); after
  `ThreadPoolDestroy` has freed the pool (`freed`) nothing is modelled.
* `submitted` and `taken` log the tasks put into the list and taken off
  it, `joined` the arguments of `pthread_join`.
-/
import Mathlib.Logic.Function.Basic
import Mathlib.Tactic.Common

namespace Training.CThreadPool

universe u

/-- `worker_t`, a task: the function and its argument. -/
structure Worker (φ α : Type u) where
  process : φ
  arg : α

variable {φ α : Type u}

/-- A thread in `ThreadPoolRoutine`. -/
inductive Routine (φ α : Type u) where
  /-- at the `pthread_mutex_lock` of the loop -/
  | locking
  /-- in `pthread_cond_wait` -/
  | waiting
  /-- with the function called, or to be called -/
  | running (worker : Worker φ α)
  /-- out of the loop, before `current_pthread_num--` -/
  | leaving
  | exited

def Routine.inLoop : Routine φ α → Bool
  | .locking => true
  | .waiting => true
  | .running _ => true
  | .leaving => false
  | .exited => false

def Routine.isRunning : Routine φ α → Bool
  | .running _ => true
  | _ => false

def Routine.isExited : Routine φ α → Bool
  | .exited => true
  | _ => false

/-- `CThread_pool_t`, the threads and the logs. -/
structure Pool (φ α : Type u) where
  queueHead : List (Worker φ α)
  shutdown : Bool
  threadid : Int → Nat
  maxThreadNum : Int
  currentPthreadNum : Int
  currentPthreadTaskNum : Int
  currentWaitQueueNum : Int
  freePthreadNum : Int
  routines : List (Routine φ α)
  aborted : Bool
  /-- the index of the loop in `ThreadPoolDestroy` -/
  joining : Option Nat
  joined : List Nat
  freed : Bool
  submitted : List (Worker φ α)
  taken : List (Worker φ α)

/-- `ThreadPoolConstruct`; `threadid` is what `malloc` returned. -/
def threadPoolConstruct (maxNum : Nat) (freeNum : Int) (threadid : Int → Nat) : Pool φ α where
  queueHead := []
  shutdown := false
  threadid := fun k => if 0 ≤ k ∧ k < maxNum then k.toNat else threadid k
  maxThreadNum := maxNum
  currentPthreadNum := maxNum
  currentPthreadTaskNum := 0
  currentWaitQueueNum := 0
  freePthreadNum := freeNum
  routines := List.replicate maxNum .locking
  aborted := false
  joining := none
  joined := []
  freed := false
  submitted := []
  taken := []

def defaultMaxThreadNum : Int := 100

def defaultFreeThreadNum : Int := 10

/-- `ThreadPoolConstructDefault` creates no thread. -/
def threadPoolConstructDefault (threadid : Int → Nat) : Pool φ α :=
  { threadPoolConstruct 0 defaultFreeThreadNum threadid with maxThreadNum := defaultMaxThreadNum }

/-! ## Submitting -/

/-- The walk to the end of the list. -/
def insertTail : List (Worker φ α) → Worker φ α → List (Worker φ α)
  | [], newworker => [newworker]
  | member :: rest, newworker => member :: insertTail rest newworker

/-- The node at the end of the list. -/
def Pool.insert (pool : Pool φ α) (newworker : Worker φ α) : Pool φ α :=
  { pool with
    queueHead := insertTail pool.queueHead newworker
    currentWaitQueueNum := pool.currentWaitQueueNum + 1
    submitted := pool.submitted ++ [newworker] }

/-- A new thread, in the slot `current_pthread_num`. -/
def Pool.pthreadCreate (pool : Pool φ α) : Pool φ α :=
  { pool with
    threadid := Function.update pool.threadid pool.currentPthreadNum pool.routines.length
    routines := pool.routines ++ [.locking]
    currentPthreadNum := pool.currentPthreadNum + 1 }

/-- No thread is free, if `current_pthread_num` were `num`. -/
def Pool.noneFree (pool : Pool φ α) (num : Int) : Bool := num - pool.currentPthreadTaskNum == 0

/-- The two functions differ in when they create a thread, and in what
they do after it. `mem` says whether `malloc` returns the node. -/
def addWork (creates : Pool φ α → Bool) (created : Pool φ α → Pool φ α) (pool : Pool φ α)
    (newworker : Worker φ α) (mem : Bool) : Int × Pool φ α :=
  if !mem then (-1, pool)
  else
    let pool := pool.insert newworker
    let pool := if creates pool then created pool.pthreadCreate else pool
    (0, { pool with currentPthreadTaskNum := pool.currentPthreadTaskNum + 1 })

/-- Whether `ThreadPoolAddWorkLimit` creates a thread, if
`current_pthread_num` were `num`. -/
def Pool.createsLimit (pool : Pool φ α) (num : Int) : Bool :=
  pool.noneFree num && decide (num < pool.maxThreadNum)

def threadPoolAddWorkLimit : Pool φ α → Worker φ α → Bool → Int × Pool φ α :=
  addWork (fun pool => pool.createsLimit pool.currentPthreadNum) id

def Pool.raiseMax (pool : Pool φ α) : Pool φ α :=
  if pool.currentPthreadNum > pool.maxThreadNum then
    { pool with maxThreadNum := pool.currentPthreadNum }
  else pool

def threadPoolAddWorkUnlimit : Pool φ α → Worker φ α → Bool → Int × Pool φ α :=
  addWork (fun pool => pool.noneFree pool.currentPthreadNum) Pool.raiseMax

/-! ## Threads -/

def Pool.setRoutine (pool : Pool φ α) (t : Nat) (r : Routine φ α) : Pool φ α :=
  { pool with routines := pool.routines.set t r }

/-- The first critical section of the loop, from `pthread_mutex_lock` or
from the return of `pthread_cond_wait` on. -/
def Pool.take (pool : Pool φ α) (t : Nat) : Pool φ α :=
  if pool.currentWaitQueueNum == 0 && !pool.shutdown then pool.setRoutine t .waiting
  else if pool.shutdown then pool.setRoutine t .exited
  else if pool.currentWaitQueueNum == 0 then { pool with aborted := true }
  else
    match pool.queueHead with
    | [] => { pool with aborted := true }
    | worker :: rest =>
        { pool.setRoutine t (.running worker) with
          currentWaitQueueNum := pool.currentWaitQueueNum - 1
          queueHead := rest
          taken := pool.taken ++ [worker] }

/-- More threads than `free_pthread_num` are free, if
`current_pthread_num` were `num`. -/
def Pool.surplus (pool : Pool φ α) (num : Int) : Bool :=
  decide (num - pool.currentPthreadTaskNum > pool.freePthreadNum)

/-- A function has returned. -/
def Pool.taskDone (pool : Pool φ α) : Pool φ α :=
  { pool with currentPthreadTaskNum := pool.currentPthreadTaskNum - 1 }

/-- The second critical section of the loop, after the function. -/
def Pool.finish (pool : Pool φ α) (t : Nat) : Pool φ α :=
  let pool := pool.taskDone
  if pool.surplus pool.currentPthreadNum then pool.setRoutine t .leaving
  else pool.setRoutine t .locking

/-- Behind the loop. -/
def Pool.leave (pool : Pool φ α) (t : Nat) : Pool φ α :=
  { pool.setRoutine t .exited with currentPthreadNum := pool.currentPthreadNum - 1 }

/-- The next step of the thread `t` in `ThreadPoolRoutine`. -/
def threadPoolRoutine (pool : Pool φ α) (t : Nat) : Pool φ α :=
  match pool.routines[t]? with
  | some .locking => pool.take t
  | some .waiting => pool.take t
  | some (.running _) => pool.finish t
  | some .leaving => pool.leave t
  | some .exited => pool
  | none => pool

/-! ## Destroying -/

/-- `ThreadPoolDestroy`, up to its loop. -/
def threadPoolDestroy (pool : Pool φ α) : Int × Pool φ α :=
  if pool.shutdown then (-1, pool)
  else (0, { pool with shutdown := true, joining := some 0 })

/-- A turn of the loop of `ThreadPoolDestroy`, which waits for a thread
that has not exited, or what follows the loop. -/
def Pool.join (pool : Pool φ α) : Pool φ α :=
  match pool.joining with
  | none => pool
  | some i =>
      if i < pool.currentPthreadNum then
        if (pool.routines[pool.threadid i]?).any Routine.isExited then
          { pool with joining := some (i + 1), joined := pool.joined ++ [pool.threadid i] }
        else pool
      else { pool with queueHead := [], freed := true }

/-! ## Runs -/

inductive Event (φ α : Type u) where
  | addWorkLimit (newworker : Worker φ α) (mem : Bool)
  | addWorkUnlimit (newworker : Worker φ α) (mem : Bool)
  | thread (t : Nat)
  | destroy
  | join

def step (pool : Pool φ α) (e : Event φ α) : Pool φ α :=
  if pool.aborted || pool.freed then pool
  else
    match e with
    | .addWorkLimit newworker mem => (threadPoolAddWorkLimit pool newworker mem).2
    | .addWorkUnlimit newworker mem => (threadPoolAddWorkUnlimit pool newworker mem).2
    | .thread t => threadPoolRoutine pool t
    | .destroy => (threadPoolDestroy pool).2
    | .join => pool.join

/-- A pool that one of the constructors returns. -/
inductive New : Pool φ α → Prop where
  | construct (maxNum : Nat) (freeNum : Int) (threadid : Int → Nat) :
      New (threadPoolConstruct maxNum freeNum threadid)
  | constructDefault (threadid : Int → Nat) : New (threadPoolConstructDefault threadid)

end Training.CThreadPool
