/-
Training.MutexQueue.Queue — the queue with a mutex and its producers and
consumers, `C/09_lockfree_queue/mutex_queue.c`.

Translation notes.

* What runs between taking the lock and giving it back is one step: the
  rest of `mutex_en_queue`, and `mutex_de_queue` from the lock, or from
  the return of `pthread_cond_wait`, to the next release of the lock.
  Waking up is always possible, so a spurious wake-up is a step like any
  other, and signal and broadcast are left out.
* The tests of the two loops read `total_enqueue` and `shutdown` without
  the lock, in a step of their own.
* The nodes are addresses, and `queue->head` is the node 0. `calloc`
  returns an address that is not in use, or `NULL`. `live` has the nodes
  that have been allocated and not freed.
* The `size_t` counters do not wrap around: they stay below the total.
* `enqueued` and `dequeued` log the values put into the queue and taken
  out of it. The code never reads them.
-/
import Mathlib.Logic.Function.Basic
import Mathlib.Tactic.Common

namespace Training.MutexQueue

/-- `queue_ctr_t` -/
structure QueueCtr where
  count : Nat
  totalEnqueue : Nat
  shutdown : Bool

/-- `&queue->head` -/
def headNode : Nat := 0

/-- `mutex_queue_t` and the nodes. -/
structure Queue where
  queueCtr : QueueCtr
  next : Nat → Nat
  prev : Nat → Nat
  data : Nat → Int
  live : List Nat
  enqueued : List Int
  dequeued : List Int

/-- `init_mutex_queue`; the nodes of the heap have any contents. -/
def initMutexQueue (next prev : Nat → Nat) (data : Nat → Int) : Queue where
  queueCtr := ⟨0, 0, false⟩
  next := Function.update next headNode headNode
  prev := Function.update prev headNode headNode
  data := Function.update data headNode (-1)
  live := []
  enqueued := []
  dequeued := []

/-- `calloc` and `node->data = val` -/
def Queue.newNode (q : Queue) (node : Nat) (val : Int) : Queue :=
  { q with
    next := Function.update q.next node 0
    prev := Function.update q.prev node 0
    data := Function.update q.data node val
    live := node :: q.live }

/-- `free (node)` -/
def Queue.free (q : Queue) (node : Nat) : Queue := { q with live := q.live.erase node }

/-- The node is put behind the head. -/
def Queue.link (q : Queue) (node : Nat) : Queue :=
  let prev := Function.update q.prev (q.next headNode) node
  let next := Function.update q.next node (q.next headNode)
  let prev := Function.update prev node headNode
  let next := Function.update next headNode node
  { q with next, prev }

/-- The node is taken out of the ring. -/
def Queue.unlink (q : Queue) (node : Nat) : Queue :=
  let next := Function.update q.next (q.prev node) (q.next node)
  let prev := Function.update q.prev (next node) (q.prev node)
  { q with next, prev }

/-- `mutex_en_queue`, with the lock. -/
def mutexEnQueue (totalQueueNodes : Nat) (q : Queue) (node : Nat) : Queue :=
  if q.queueCtr.totalEnqueue ≥ totalQueueNodes then q.free node
  else
    { q.link node with
      queueCtr := { q.queueCtr with
        count := q.queueCtr.count + 1, totalEnqueue := q.queueCtr.totalEnqueue + 1 }
      enqueued := q.enqueued ++ [q.data node] }

/-- What a turn of `mutex_de_queue` ends with. -/
inductive Dequeue
  | waits
  | returns (node : Option Nat)
deriving DecidableEq, Repr

/-- `mutex_de_queue`, with the lock. -/
def mutexDeQueue (totalQueueNodes : Nat) (q : Queue) : Queue × Dequeue :=
  if q.queueCtr.count = 0 ∧ q.queueCtr.shutdown = false then (q, .waits)
  else if q.prev headNode = headNode then (q, .returns none)
  else
    let node := q.prev headNode
    let ctr : QueueCtr := { q.queueCtr with count := q.queueCtr.count - 1 }
    let ctr : QueueCtr :=
      if ctr.totalEnqueue = totalQueueNodes ∧ ctr.count = 0 then { ctr with shutdown := true }
      else ctr
    ({ q.unlink node with queueCtr := ctr, dequeued := q.dequeued ++ [q.data node] },
      .returns (some node))

/-! ## Threads -/

/-- A thread in `mutex_queue_produce_func`. -/
inductive Producer
  /-- at the test of the loop -/
  | testing
  /-- before `calloc` -/
  | allocating
  /-- at `pthread_mutex_lock` -/
  | locking (node : Nat)
  | left
deriving DecidableEq, Repr

/-- A thread in `mutex_queue_consume_func`. -/
inductive Consumer
  | testing
  /-- at `pthread_mutex_lock`, or in `pthread_cond_wait` -/
  | locking
  /-- before `free (node)` -/
  | holding (node : Nat)
  | left
deriving DecidableEq, Repr

structure State where
  queue : Queue
  producers : List Producer
  consumers : List Consumer

inductive Event
  /-- `val` is the result of `random ()`, `node` the one of `calloc`. -/
  | producer (i : Nat) (val : Int) (node : Option Nat)
  | consumer (i : Nat)

/-- `mutex_queue_produce_func` -/
def mutexQueueProduceFunc (totalQueueNodes : Nat) (q : Queue) (val : Int) (node : Option Nat) :
    Producer → Queue × Producer
  | .testing =>
      if q.queueCtr.totalEnqueue < totalQueueNodes then (q, .allocating) else (q, .left)
  | .allocating =>
      match node with
      | none => (q, .testing)
      | some node => (q.newNode node val, .locking node)
  | .locking node => (mutexEnQueue totalQueueNodes q node, .testing)
  | .left => (q, .left)

/-- `mutex_queue_consume_func` -/
def mutexQueueConsumeFunc (totalQueueNodes : Nat) (q : Queue) : Consumer → Queue × Consumer
  | .testing =>
      if q.queueCtr.shutdown = false ∧ totalQueueNodes ≠ 0 then (q, .locking) else (q, .left)
  | .locking =>
      match mutexDeQueue totalQueueNodes q with
      | (q, .waits) => (q, .locking)
      | (q, .returns none) => (q, .testing)
      | (q, .returns (some node)) => (q, .holding node)
  | .holding node => (q.free node, .testing)
  | .left => (q, .left)

def step (totalQueueNodes : Nat) (s : State) : Event → State
  | .producer i val node =>
      match s.producers[i]? with
      | none => s
      | some p =>
          let r := mutexQueueProduceFunc totalQueueNodes s.queue val node p
          { s with queue := r.1, producers := s.producers.set i r.2 }
  | .consumer i =>
      match s.consumers[i]? with
      | none => s
      | some c =>
          let r := mutexQueueConsumeFunc totalQueueNodes s.queue c
          { s with queue := r.1, consumers := s.consumers.set i r.2 }

/-- The threads are started on an empty queue. -/
def State.init (produceThreads consumeThreads : Nat) (next prev : Nat → Nat) (data : Nat → Int) :
    State where
  queue := initMutexQueue next prev data
  producers := List.replicate produceThreads .testing
  consumers := List.replicate consumeThreads .testing

/-- `calloc` returns a node that is not in use. -/
def State.Granted (s : State) : Event → Prop
  | .producer _ _ node => ∀ n ∈ node, n ≠ headNode ∧ n ∉ s.queue.live
  | .consumer _ => True

end Training.MutexQueue
