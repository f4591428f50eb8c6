/-
Training.CasCounter.Counter — counters in segments, updated by
compare-exchange, `C/12_lock/01_optimistic_pessimistic_lock.c`:
`segmented_cas_thread`, `optimized_segmented_thread`,
`ultra_high_concurrency_thread` and `batch_update_thread`.

Translation notes.

* A step is one access of a thread to a counter, a load or a
  compare-exchange, with what the thread computes on its own data up to
  the next one; the loop of `batch_update_thread` over its local buffer
  has a step for each turn. A compare-exchange may fail, whatever the
  counter holds.
* Each test runs one of the functions in all its threads, on one array.
* `NUM_THREADS`, `OPS_PER_THREAD`, `SEGMENT_COUNT`, `BATCH_SIZE` and
  `MAX_SPIN_RETRY` are parameters, and the integers are not bounded.
  `sched_yield` and the pause instruction do nothing to the data.
* `performed` counts the increments a thread has made, in a counter or in
  its local buffer. The code never reads it.
-/
import Mathlib.Algebra.Ring.Nat
import Mathlib.Tactic.Common
import Training.Lib.Machine

namespace Training.CasCounter

structure Config where
  numThreads : Nat
  opsPerThread : Nat
  segmentCount : Nat
  batchSize : Nat
  maxSpinRetry : Nat

inductive Pc
  /-- at the head of the `for` loop of `batch_update_thread` -/
  | next
  /-- before the load of `expected` -/
  | load
  /-- before the compare-exchange -/
  | cas (expected : Nat)
  | finished
deriving DecidableEq, Repr

structure Thread where
  /-- turns of the `for` loop that are done -/
  i : Nat
  segmentIndex : Nat
  spinCount : Nat
  localBuffer : Nat
  /-- the argument of `update_global_counter_with_cas` -/
  valueToAdd : Nat
  lastIndex : Nat
  pc : Pc
  performed : Nat
deriving DecidableEq, Repr

/-! ## One increment at a time -/

/-- The loop of the functions that increment a counter of their segment;
`retry` is what they do after a compare-exchange that failed. -/
def incrementThread (cfg : Config) (retry : Thread → Thread) (counters : List Nat) (t : Thread)
    (fails : Bool) : List Nat × Thread :=
  match t.pc with
  | .load =>
      if t.i < cfg.opsPerThread then
        (counters, { t with pc := .cas (counters.getD t.segmentIndex 0) })
      else (counters, { t with pc := .finished })
  | .cas expected =>
      if counters.getD t.segmentIndex 0 = expected ∧ fails = false then
        (counters.set t.segmentIndex (expected + 1),
          { t with i := t.i + 1, spinCount := 0, pc := .load, performed := t.performed + 1 })
      else (counters, { retry t with pc := .load })
  | .next => (counters, t)
  | .finished => (counters, t)

def segmentedCasThread (cfg : Config) : List Nat → Thread → Bool → List Nat × Thread :=
  incrementThread cfg id

def optimizedSegmentedThread (cfg : Config) : List Nat → Thread → Bool → List Nat × Thread :=
  incrementThread cfg fun t =>
    { t with spinCount := if t.spinCount + 1 > cfg.maxSpinRetry then 0 else t.spinCount + 1 }

/-- The thread moves on to the next segment. -/
def ultraHighConcurrencyThread (cfg : Config) : List Nat → Thread → Bool → List Nat × Thread :=
  incrementThread cfg fun t =>
    if t.spinCount + 1 > cfg.maxSpinRetry then
      { t with segmentIndex := (t.segmentIndex + 1) % cfg.segmentCount, spinCount := 0 }
    else { t with spinCount := t.spinCount + 1 }

/-! ## Batches -/

/-- The call of `update_global_counter_with_cas`, up to its first load. -/
def updateGlobalCounterWithCas (cfg : Config) (t : Thread) (valueToAdd : Nat) : Thread :=
  { t with
    segmentIndex := t.lastIndex % cfg.segmentCount
    lastIndex := t.lastIndex + 1
    valueToAdd
    pc := .load }

def batchUpdateThread (cfg : Config) (counters : List Nat) (t : Thread) (fails : Bool) :
    List Nat × Thread :=
  match t.pc with
  | .next =>
      if t.i < cfg.opsPerThread then
        let t := { t with localBuffer := t.localBuffer + 1, performed := t.performed + 1 }
        if t.localBuffer ≥ cfg.batchSize then
          (counters, updateGlobalCounterWithCas cfg t cfg.batchSize)
        else (counters, { t with i := t.i + 1 })
      else if t.localBuffer > 0 then
        (counters, updateGlobalCounterWithCas cfg t t.localBuffer)
      else (counters, { t with pc := .finished })
  | .load => (counters, { t with pc := .cas (counters.getD t.segmentIndex 0) })
  | .cas expected =>
      if counters.getD t.segmentIndex 0 = expected ∧ fails = false then
        let counters := counters.set t.segmentIndex (expected + t.valueToAdd)
        -- back in the loop, or at the end of the function
        if t.i < cfg.opsPerThread then
          (counters, { t with localBuffer := 0, i := t.i + 1, pc := .next })
        else (counters, { t with localBuffer := 0, pc := .finished })
      else (counters, { t with pc := .load })
  | .finished => (counters, t)

/-! ## The tests -/

inductive Strategy
  | segmented
  | optimized
  | ultra
  | batch
deriving DecidableEq, Repr

def Strategy.thread (cfg : Config) : Strategy → List Nat → Thread → Bool → List Nat × Thread
  | .segmented => segmentedCasThread cfg
  | .optimized => optimizedSegmentedThread cfg
  | .ultra => ultraHighConcurrencyThread cfg
  | .batch => batchUpdateThread cfg

/-- The thread `threadId` at its start. -/
def Strategy.create (cfg : Config) (strategy : Strategy) (threadId : Nat) : Thread where
  i := 0
  segmentIndex := threadId % cfg.segmentCount
  spinCount := 0
  localBuffer := 0
  valueToAdd := 0
  lastIndex := 0
  pc := if strategy = .batch then .next else .load
  performed := 0

structure State where
  counters : List Nat
  threads : List Thread
deriving DecidableEq, Repr

def State.init (cfg : Config) (strategy : Strategy) : State where
  counters := List.replicate cfg.segmentCount 0
  threads := (List.range cfg.numThreads).map (strategy.create cfg)

/-- The thread that goes next, and whether its compare-exchange fails. -/
structure Turn where
  thread : Nat
  fails : Bool

def step (cfg : Config) (strategy : Strategy) (s : State) (turn : Turn) : State :=
  match s.threads[turn.thread]? with
  | none => s
  | some t =>
      let r := strategy.thread cfg s.counters t turn.fails
      ⟨r.1, s.threads.set turn.thread r.2⟩

/-- No increment is lost, and when all threads have finished the counters
have them all. -/
structure State.Conserved (cfg : Config) (s : State) : Prop where
  sum : s.counters.sum + (s.threads.map Thread.localBuffer).sum =
    (s.threads.map Thread.performed).sum
  finished : (∀ t ∈ s.threads, t.pc = .finished) →
    s.counters.sum = cfg.numThreads * cfg.opsPerThread

end Training.CasCounter
