/-
Training.ThreadPool.Pool — the thread pool with one mutex,
`C/01_thread_pool/thread_pool.c`: `threadpool_threadfunc`,
`threadpool_add` and `threadpool_destroy`.

Translation notes.

* What runs between taking the lock and giving it back is one step: an
  `add` of a submitter, the part of `destroy` that sets `shutdown`, and a
  turn of a worker from the lock, or from the return of
  `pthread_cond_wait`, to the next release of the lock. Waking up is
  always possible, so a spurious wake-up is a step like any other, and
  what signals and broadcasts do is left out.
* The queue that `malloc` returns has any contents. `head` and `tail` are
  remainders, and natural numbers here.
* `shutdown` is 0 or a mode. `threadpool_destroy` looks at it before it
  takes the lock; no other call of `threadpool_destroy` is under way.
* `accepted`, `dequeued` and `executed` log the tasks put into the queue,
  taken off it and called. The code never reads them.
-/
import Mathlib.Logic.Function.Basic
import Mathlib.Tactic.Common

namespace Training.ThreadPool

universe u

/-- `threadpool_showdown_t` -/
inductive ShowdownMode where
  | immediateShutdown
  | grachfulShutdown
  deriving DecidableEq, Repr

/-- `threadpool_task_t` -/
structure Task (φ α : Type u) where
  func : φ
  arg : α

variable {φ α : Type u}

inductive Worker (φ α : Type u) where
  /-- at `pthread_mutex_lock` -/
  | locking
  /-- in `pthread_cond_wait` -/
  | waiting
  | running (task : Task φ α)
  /-- out of the loop -/
  | left

structure Threadpool (φ α : Type u) where
  queue : Nat → Task φ α
  queueSize : Nat
  head : Nat
  tail : Nat
  count : Int
  shutdown : Option ShowdownMode
  started : Int
  workers : List (Worker φ α)
  accepted : List (Task φ α)
  dequeued : List (Task φ α)
  executed : List (Task φ α)

/-- `threadpool_create` -/
def threadpoolCreate (threadCount queueSize : Nat) (queue : Nat → Task φ α) :
    Threadpool φ α where
  queue := queue
  queueSize := queueSize
  head := 0
  tail := 0
  count := 0
  shutdown := none
  started := threadCount
  workers := List.replicate threadCount .locking
  accepted := []
  dequeued := []
  executed := []

def Threadpool.setWorker (pool : Threadpool φ α) (i : Nat) (w : Worker φ α) : Threadpool φ α :=
  { pool with workers := pool.workers.set i w }

def einval : Int := 22

/-- `threadpool_add`; `signal` is what `pthread_cond_signal` returns. -/
def threadpoolAdd (pool : Threadpool φ α) (func : Option φ) (arg : α) (signal : Int) :
    Int × Threadpool φ α :=
  match func with
  | none => (-einval, pool)
  | some func =>
      if pool.count == pool.queueSize then (-1, pool)
      else if pool.shutdown.isSome then (-1, pool)
      else
        let pool := { pool with
          queue := Function.update pool.queue pool.tail ⟨func, arg⟩
          tail := (pool.tail + 1) % pool.queueSize
          count := pool.count + 1
          accepted := pool.accepted ++ [⟨func, arg⟩] }
        (if signal != 0 then -1 else 0, pool)

/-- The loop of `threadpool_threadfunc`, with the lock. -/
def threadpoolThreadfunc (pool : Threadpool φ α) (i : Nat) : Threadpool φ α :=
  if pool.count == 0 && pool.shutdown.isNone then pool.setWorker i .waiting
  else if pool.shutdown == some .immediateShutdown ||
      (pool.shutdown == some .grachfulShutdown && pool.count == 0) then
    { pool.setWorker i .left with started := pool.started - 1 }
  else
    let task := pool.queue pool.head
    { pool.setWorker i (.running task) with
      head := (pool.head + 1) % pool.queueSize
      count := pool.count - 1
      dequeued := pool.dequeued ++ [task] }

/-- The task is called, without the lock. -/
def Threadpool.execute (pool : Threadpool φ α) (i : Nat) (task : Task φ α) : Threadpool φ α :=
  { pool.setWorker i .locking with executed := pool.executed ++ [task] }

/-- A turn of the worker `i`. -/
def Threadpool.turn (pool : Threadpool φ α) (i : Nat) : Threadpool φ α :=
  match pool.workers[i]? with
  | some .locking => threadpoolThreadfunc pool i
  | some .waiting => threadpoolThreadfunc pool i
  | some (.running task) => pool.execute i task
  | some .left => pool
  | none => pool

/-- `threadpool_destroy`, up to the joins. -/
def threadpoolDestroy (pool : Threadpool φ α) (showdownMode : ShowdownMode) : Threadpool φ α :=
  if pool.shutdown.isSome then pool else { pool with shutdown := some showdownMode }

inductive Event (φ α : Type u) where
  | add (func : Option φ) (arg : α) (signal : Int)
  | worker (i : Nat)
  | destroy (showdownMode : ShowdownMode)

def step (pool : Threadpool φ α) : Event φ α → Threadpool φ α
  | .add func arg signal => (threadpoolAdd pool func arg signal).2
  | .worker i => pool.turn i
  | .destroy showdownMode => threadpoolDestroy pool showdownMode

end Training.ThreadPool
