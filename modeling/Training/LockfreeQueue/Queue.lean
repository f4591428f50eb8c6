/-
Training.LockfreeQueue.Queue — the queue without a lock and its producers
and consumers, `C/09_lockfree_queue/lockfree_queue.c`.

Translation notes.

* A step is one access of a thread to memory that others see: a load, a
  compare-exchange, the read of `next->data` and of `prev_tail->next`. A
  compare-exchange may fail, whatever it finds. `malloc` and the writes
  to the new node are one step, and so are `free` and the return.
* The steps are sequentially consistent, whatever `memory_order` says.
* The nodes are addresses, 0 is `NULL`, and `malloc` returns any address
  or `NULL`. What a freed node holds stays. That `malloc` returns no
  address it has returned before (`State.Granted`) is for the theorems to
  ask for, or to put into their condition.
* The program ends at an access through `NULL` (`crashed`).
* `lockfree_de_queue` that finds no node returns `NULL`, which is no value.
* `total_enqueue` and `shutdown` are written nowhere in the file, so the
  loops of the threads go on for ever.
* `allocated`, `started`, `linked`, `completed`, `dequeued`, `returned`
  and `freed` log what has been done. The code never reads them.
-/
import Mathlib.Logic.Function.Basic
import Mathlib.Tactic.Common

namespace Training.LockfreeQueue

/-- A call of `lockfree_en_queue` by a producer, and the node of the call. -/
structure Enqueue where
  producer : Nat
  node : Nat
  val : Int
deriving DecidableEq, Repr

/-- What a call of `lockfree_de_queue` has read: it moves the head from
`prevHead` to `next`. -/
structure Dequeue where
  prevHead : Nat
  next : Nat
  data : Int
deriving DecidableEq, Repr

/-- `lockfree_queue_t` and the nodes. -/
structure Queue where
  head : Nat
  tail : Nat
  next : Nat → Nat
  data : Nat → Int
  crashed : Bool
  allocated : List Nat
  started : List Enqueue
  /-- the calls that have put their node in, and behind which node -/
  linked : List (Nat × Enqueue)
  completed : List Enqueue
  /-- the calls that have moved the head -/
  dequeued : List Dequeue
  returned : List Dequeue
  freed : List Nat

/-- `init_lockfree_queue`; the nodes of the heap have any contents. -/
def initLockfreeQueue (node : Nat) (next : Nat → Nat) (data : Nat → Int) : Queue where
  head := node
  tail := node
  next := Function.update next node 0
  data := Function.update data node (-1)
  crashed := false
  allocated := [node]
  started := []
  linked := []
  completed := []
  dequeued := []
  returned := []
  freed := []

/-! ## Accesses -/

def Queue.crash (q : Queue) : Queue := { q with crashed := true }

/-- `malloc`, `node->data = val` and `node->next = NULL` -/
def Queue.newNode (q : Queue) (e : Enqueue) : Queue :=
  { q with
    next := Function.update q.next e.node 0
    data := Function.update q.data e.node e.val
    allocated := q.allocated ++ [e.node]
    started := q.started ++ [e] }

/-- `prev_tail->next` is replaced by the node. -/
def Queue.link (q : Queue) (prevTail : Nat) (e : Enqueue) : Queue :=
  { q with
    next := Function.update q.next prevTail e.node
    linked := q.linked ++ [(prevTail, e)] }

/-- The compare-exchange of `queue->tail`. -/
def Queue.swing (q : Queue) (prevTail node : Nat) (fails : Bool) : Queue :=
  if q.tail = prevTail ∧ fails = false then { q with tail := node } else q

def Queue.complete (q : Queue) (e : Enqueue) : Queue := { q with completed := q.completed ++ [e] }

/-- `queue->head` is replaced by `next`. -/
def Queue.moveHead (q : Queue) (d : Dequeue) : Queue :=
  { q with head := d.next, dequeued := q.dequeued ++ [d] }

/-- `free (prev_head)` and `return data` -/
def Queue.free (q : Queue) (d : Dequeue) : Queue :=
  { q with freed := q.freed ++ [d.prevHead], returned := q.returned ++ [d] }

/-! ## Threads -/

/-- A thread in `lockfree_queue_produce_func`. -/
inductive Producer
  /-- before `malloc` -/
  | idle
  /-- before the load of `queue->tail` -/
  | loading (e : Enqueue)
  /-- before the load of `prev_tail->next` -/
  | reading (e : Enqueue) (prevTail : Nat)
  /-- before the compare-exchange of `prev_tail->next` -/
  | linking (e : Enqueue) (prevTail expectedNode : Nat)
  /-- before the read of `prev_tail->next` that follows its failure -/
  | rereading (e : Enqueue) (prevTail : Nat)
  /-- before the compare-exchange of `queue->tail` in the loop -/
  | helping (e : Enqueue) (prevTail next : Nat)
  /-- before the compare-exchange of `queue->tail` behind the loop -/
  | swinging (e : Enqueue) (prevTail : Nat)
deriving DecidableEq, Repr

/-- A thread in `lockfree_queue_consume_func`. -/
inductive Consumer
  /-- before the load of `queue->head` -/
  | loading
  /-- before the load of `prev_head->next` -/
  | reading (prevHead : Nat)
  /-- before the read of `next->data` -/
  | fetching (prevHead next : Nat)
  /-- before the compare-exchange of `queue->head` -/
  | moving (d : Dequeue)
  /-- before `free (prev_head)` -/
  | freeing (d : Dequeue)
deriving DecidableEq, Repr

/-- A step of `lockfree_en_queue` in the producer `i`. -/
def lockfreeEnQueue (i : Nat) (val : Int) (node : Option Nat) (fails : Bool) (q : Queue) :
    Producer → Queue × Producer
  | .idle =>
      match node with
      | none => (q.crash, .idle)
      | some node => (q.newNode ⟨i, node, val⟩, .loading ⟨i, node, val⟩)
  | .loading e => (q, .reading e q.tail)
  | .reading e prevTail =>
      if prevTail = 0 then (q.crash, .reading e prevTail)
      else (q, .linking e prevTail (q.next prevTail))
  | .linking e prevTail expectedNode =>
      if q.next prevTail = expectedNode ∧ fails = false then
        (q.link prevTail e, .swinging e prevTail)
      else (q, .rereading e prevTail)
  | .rereading e prevTail => (q, .helping e prevTail (q.next prevTail))
  | .helping e prevTail next => (q.swing prevTail next fails, .loading e)
  | .swinging e prevTail => ((q.swing prevTail e.node fails).complete e, .idle)

/-- A step of `lockfree_de_queue`. -/
def lockfreeDeQueue (fails : Bool) (q : Queue) : Consumer → Queue × Consumer
  | .loading => (q, .reading q.head)
  | .reading prevHead =>
      if q.next prevHead = 0 then (q, .loading) else (q, .fetching prevHead (q.next prevHead))
  | .fetching prevHead next => (q, .moving ⟨prevHead, next, q.data next⟩)
  | .moving d =>
      if q.head = d.prevHead ∧ fails = false then (q.moveHead d, .freeing d) else (q, .loading)
  | .freeing d => (q.free d, .loading)

structure State where
  queue : Queue
  producers : List Producer
  consumers : List Consumer

inductive Event
  /-- `val` is the result of `random ()`, `node` the one of `malloc`, and
  `fails` says that a compare-exchange fails spuriously. -/
  | producer (i : Nat) (val : Int) (node : Option Nat) (fails : Bool)
  | consumer (i : Nat) (fails : Bool)

def step (s : State) (e : Event) : State :=
  if s.queue.crashed then s
  else
    match e with
    | .producer i val node fails =>
        match s.producers[i]? with
        | none => s
        | some p =>
            let r := lockfreeEnQueue i val node fails s.queue p
            { s with queue := r.1, producers := s.producers.set i r.2 }
    | .consumer i fails =>
        match s.consumers[i]? with
        | none => s
        | some c =>
            let r := lockfreeDeQueue fails s.queue c
            { s with queue := r.1, consumers := s.consumers.set i r.2 }

/-- The threads are started on an empty queue. -/
def State.init (produceThreads consumeThreads node : Nat) (next : Nat → Nat) (data : Nat → Int) :
    State where
  queue := initLockfreeQueue node next data
  producers := List.replicate produceThreads .idle
  consumers := List.replicate consumeThreads .loading

/-- `malloc` returns a node that it has not returned before. -/
def State.Granted (s : State) : Event → Prop
  | .producer _ _ node _ => ∀ n ∈ node, n ≠ 0 ∧ n ∉ s.queue.allocated
  | .consumer .. => True

instance (s : State) (e : Event) : Decidable (s.Granted e) := by
  cases e <;> dsimp only [State.Granted] <;> infer_instance

end Training.LockfreeQueue
