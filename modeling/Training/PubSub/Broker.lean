/-
Training.PubSub.Broker — topics, subscribers and the message queue,
`C/08_design_patter/01_publish_subscription/test_main.c`.

Translation notes.

* What runs under one of the two mutexes is one step: `subscribe`,
  `queue_push`, `queue_pop`, and the dispatch of a message, callbacks
  included. A step that waits for room or for a message does nothing.
* A name is a string of any length. `g_topics` is a global array, so its
  names are zeros at first; the `Message` of `publish` is on the stack and
  has any contents.
* The subscribers are numbered in the order in which they are accepted.
  Their names are not read by anything.
* `accepted`, `published`, `handled` and `invoked` log what has happened:
  the subscribers, the messages put into the queue, how many of them the
  consumer has dispatched, and which subscriber was called with which of
  them. The code never reads them.
-/
import Mathlib.Logic.Function.Basic
import Training.Lib.CStrings

namespace Training.PubSub

open Training.Lib

def maxSubscribers : Nat := 10
def maxTopics : Nat := 5
def maxMsgLen : Nat := 256
def queueCapacity : Nat := 20

/-- `sizeof` of the names. -/
def nameSize : Nat := 32

/-- A string that a caller passes. -/
abbrev Str := { s : List UInt8 // 0 ∉ s }

structure Message where
  content : Nat → UInt8
  topicName : Nat → UInt8

structure Topic where
  name : Nat → UInt8
  subscribers : List Nat

structure MessageQueue where
  buffer : Nat → Message
  into : Nat
  out : Nat
  size : Nat

/-- A subscriber, the name it was accepted for, and how many messages had
been published before. -/
structure Acceptance where
  name : Str
  since : Nat

structure Publication where
  name : Str
  message : Message

structure State where
  queue : MessageQueue
  topics : List Topic
  /-- the message that `consumer_thread` has taken -/
  msg : Option Message
  accepted : List Acceptance
  published : List Publication
  handled : Nat
  invoked : List (Nat × Nat)

/-- `strcmp` with the name of a topic says that they are equal. -/
def Topic.named (topic : Topic) (name : List UInt8) : Bool := cString nameSize topic.name = name

/-- The topic, and the topics with it. -/
def getOrCreateTopic (topics : List Topic) (topicName : Str) : Option (List Topic × Nat) :=
  match topics.findIdx? fun t => t.named topicName with
  | some i => some (topics, i)
  | none =>
      if topics.length ≥ maxTopics then none
      else
        let name := strncpy (fun _ => 0) topicName (nameSize - 1)
        some (topics ++ [{ name, subscribers := [] }], topics.length)

def Topic.add (topic : Topic) (subscriber : Nat) : Topic :=
  { topic with subscribers := topic.subscribers ++ [subscriber] }

def subscribe (s : State) (topicName : Str) : State :=
  match getOrCreateTopic s.topics topicName with
  | none => s
  | some (topics, i) =>
      match topics[i]? with
      | none => s
      | some topic =>
          if topic.subscribers.length ≥ maxSubscribers then { s with topics }
          else
            { s with
              topics := topics.set i (topic.add s.accepted.length)
              accepted := s.accepted ++ [{ name := topicName, since := s.published.length }] }

def queuePush (q : MessageQueue) (msg : Message) : MessageQueue :=
  { buffer := Function.update q.buffer q.into msg
    into := (q.into + 1) % queueCapacity
    out := q.out
    size := q.size + 1 }

def queuePop (q : MessageQueue) : MessageQueue × Message :=
  ({ q with out := (q.out + 1) % queueCapacity, size := q.size - 1 }, q.buffer q.out)

/-- `publish`, `msg` being the contents of the stack. -/
def publish (s : State) (topicName content : Str) (msg : Message) : State :=
  let msg : Message :=
    { topicName := strncpy msg.topicName topicName (nameSize - 1)
      content := strncpy msg.content content (maxMsgLen - 1) }
  if s.queue.size = queueCapacity then s
  else
    { s with
      queue := queuePush s.queue msg
      published := s.published ++ [{ name := topicName, message := msg }] }

/-- The loop of `consumer_thread` over the topics: the subscribers of the first one with the name. -/
def receivers (topics : List Topic) (msg : Message) : List Nat :=
  match topics.find? fun t => t.named (cString nameSize msg.topicName) with
  | none => []
  | some t => t.subscribers

/-- The turns of `consumer_thread`. -/
def consumerThread (s : State) : State :=
  match s.msg with
  | none =>
      if s.queue.size = 0 then s
      else { s with queue := (queuePop s.queue).1, msg := some (queuePop s.queue).2 }
  | some msg =>
      { s with
        msg := none
        handled := s.handled + 1
        invoked := s.invoked ++ (receivers s.topics msg).map fun i => (i, s.handled) }

inductive Event
  | subscribe (topicName : Str)
  | publish (topicName content : Str) (stack : Message)
  | consume

def step (s : State) : Event → State
  | .subscribe topicName => subscribe s topicName
  | .publish topicName content stack => publish s topicName content stack
  | .consume => consumerThread s

/-- `queue_init`, and the globals. -/
def State.init (buffer : Nat → Message) : State where
  queue := { buffer, into := 0, out := 0, size := 0 }
  topics := []
  msg := none
  accepted := []
  published := []
  handled := 0
  invoked := []

end Training.PubSub
