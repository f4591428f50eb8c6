/-
Training.LockfreeQueue.ReclamationTheorems — where no freed node is used.

A dequeue frees the node that it has moved the head from, at once. That
is safe where nobody is about to use the node, where the head does not
move from the node that the tail is at, and where `malloc` does not give
the node out again, which a thread that still compares with it would take
for the old one (`State.Reclaims`): then no thread is about to read or
write a freed node, and the tail is not behind the head
(`safe_of_reclaims`). The head and the tail go along links that have
been made, whether or not they are still there, so this does not need the
queue to be a list. Otherwise a dequeue reads a node that another one has
freed (`read_of_freed`).
-/
import Training.LockfreeQueue.NodeTheorems

namespace Training.LockfreeQueue

open Training.Lib

variable {q q' : Queue} {s : State} {dummy n p : Nat} {e : Enqueue} {d : Dequeue}

/-- The node whose field a producer reads or writes in its next step. -/
def Producer.accesses : Producer → List Nat
  | .reading _ prevTail => [prevTail]
  | .linking _ prevTail _ => [prevTail]
  | .rereading _ prevTail => [prevTail]
  | _ => []

def Consumer.accesses : Consumer → List Nat
  | .reading prevHead => [prevHead]
  | .fetching _ next => [next]
  | _ => []

/-- The nodes whose fields are accessed in the next steps. -/
def State.accesses (s : State) : List Nat :=
  s.producers.flatMap Producer.accesses ++ s.consumers.flatMap Consumer.accesses

/-- The nodes that the head has left. -/
def Queue.left (q : Queue) : List Nat := q.dequeued.map Dequeue.prevHead

/-- No node is freed twice or used after that, and the head has not moved
past the tail. -/
structure State.Safe (s : State) : Prop where
  accesses : ∀ n ∈ s.accesses, n ∉ s.queue.freed
  freed : s.queue.freed.Nodup
  tail : s.queue.tail ∉ s.queue.left

/-- The nodes that a consumer is about to use; the one behind `prevHead` comes
after it. -/
def Consumer.uses (q : Queue) : Consumer → List Nat
  | .reading prevHead => [prevHead, q.next prevHead]
  | .fetching _ next => [next]
  | _ => []

def State.uses (s : State) : List Nat :=
  s.producers.flatMap Producer.accesses ++ s.consumers.flatMap (Consumer.uses s.queue)

/-- What `malloc` promises: it returns no node that has not been freed. -/
def State.Mallocs (s : State) : Event → Prop
  | .producer i _ node _ =>
      s.producers[i]? = some .idle →
        ∀ n ∈ node, n ≠ 0 ∧ (n ∈ s.queue.allocated → n ∈ s.queue.freed)
  | .consumer .. => True

/-- A node that is freed is not about to be used, and the head does not move
from the node the tail is at. -/
def Consumer.Reclaims (s : State) (fails : Bool) : Consumer → Prop
  | .moving d => s.queue.head = d.prevHead ∧ fails = false → s.queue.tail ≠ d.prevHead
  | .freeing d => d.prevHead ∉ s.uses
  | _ => True

/-- And `malloc` does not give a freed node out again. -/
def State.Reclaims (s : State) : Event → Prop
  | .producer i _ node _ => s.producers[i]? = some .idle → ∀ n ∈ node, n ∉ s.queue.freed
  | .consumer i fails => ∀ c ∈ s.consumers[i]?, c.Reclaims s fails

/-- Only a producer before `malloc` looks at its result. -/
theorem step_node {i : Nat} (hidle : s.producers[i]? ≠ some .idle) (val : Int) (node : Option Nat)
    (fails : Bool) :
    step s (.producer i val node fails) = step s (.producer i val none fails) := by
  unfold step
  split
  · rfl
  · dsimp only
    cases hi : s.producers[i]? with
    | none => rfl
    | some p =>
      cases p with
      | idle => exact absurd hi hidle
      | _ => rfl

theorem inv_of_reclaims (h : s.Inv dummy) {event : Event} (hm : s.Mallocs event)
    (hr : s.Reclaims event) : (step s event).Inv dummy := by
  cases event with
  | producer i val node fails =>
    by_cases hidle : s.producers[i]? = some .idle
    · refine inv_step h fun n hn => ?_
      obtain ⟨hnull, hfreed⟩ := hm hidle n hn
      exact ⟨hnull, fun hmem => hr hidle n hn (hfreed hmem)⟩
    · rw [step_node hidle]
      exact inv_step h nofun
  | consumer i fails => exact inv_step h trivial

/-! ## The way of the head -/

/-- The head has come along the links that have been made, and the tail is
not behind it. -/
structure Queue.Apart (q : Queue) : Prop where
  nodup : q.left.Nodup
  head : q.head ∉ q.left
  tail : q.tail ∉ q.left
  edge : ∀ p n, (p, n) ∈ q.edges → n ∈ q.left ∨ n = q.head → p ∈ q.left

/-- A link leads out of the nodes that the head has left only from one of
them. -/
theorem Queue.Apart.not_left (h : q.Apart) (hedge : (p, n) ∈ q.edges) (hp : p ∉ q.left) :
    n ∉ q.left :=
  fun hn => hp (h.edge p n hedge (Or.inl hn))

theorem apart_swing (h : q.Apart) (hn : n ∉ q.left ∨ p ∈ q.left) (fails : Bool) :
    (q.swing p n fails).Apart := by
  unfold Queue.swing
  split
  · rename_i hswap
    have hp : p ∉ q.left := hswap.1 ▸ h.tail
    exact ⟨h.nodup, h.head, hn.resolve_right hp, h.edge⟩
  · exact h

theorem apart_link (h : q.Apart) (hq : q.Inv dummy) (hnot : e.node ∉ q.nodes)
    (he : e ∈ q.started) : (q.link p e).Apart := by
  refine ⟨h.nodup, h.head, h.tail, fun a n hedge hn => ?_⟩
  obtain ⟨e', hlinked, rfl⟩ := mem_edges.mp hedge
  rcases List.mem_append.mp hlinked with hl | hl
  · exact h.edge a e'.node (mem_edges.mpr ⟨e', hl, rfl⟩) hn
  · obtain ⟨-, rfl⟩ := Prod.mk.inj (List.mem_singleton.mp hl)
    -- the node is new, and the head has only been at nodes of the queue
    have hknown : e'.node ∈ dummy :: q.nodes := by
      rcases hn with hleft | hhead
      · obtain ⟨d, hd, heq⟩ := List.mem_map.mp hleft
        rw [← heq]
        exact (hq.edge_source (hq.dequeued d hd).1).1
      · exact hhead ▸ hq.head
    rcases List.mem_cons.mp hknown with heq | hmem
    · exact absurd heq (hq.started_ne_dummy he)
    · exact absurd hmem hnot

theorem apart_moveHead (h : q.Apart) (hq : q.Inv dummy) (hhead : q.head = d.prevHead)
    (hedge : (d.prevHead, d.next) ∈ q.edges) (htail : q.tail ≠ d.prevHead) :
    (q.moveHead d).Apart := by
  have hleft : (q.moveHead d).left = q.left ++ [d.prevHead] := List.map_append
  have hprev : d.prevHead ∉ q.left := hhead ▸ h.head
  have hmem : ∀ n, n ∈ (q.moveHead d).left ↔ n ∈ q.left ∨ n = d.prevHead := by
    intro n
    rw [hleft, List.mem_append, List.mem_singleton]
  refine ⟨?_, ?_, ?_, fun p n hpn hn => ?_⟩
  · rw [hleft]
    refine List.nodup_append.mpr ⟨h.nodup, List.nodup_singleton _, fun a ha b hb => ?_⟩
    rw [List.mem_singleton.mp hb]
    rintro rfl
    exact hprev ha
  · rw [hmem]
    rintro (hn | hn)
    · exact h.not_left hedge hprev hn
    · exact (hq.edge_source hedge).2 hn.symm
  · rw [hmem]
    exact not_or.mpr ⟨h.tail, htail⟩
  · rw [hmem] at hn ⊢
    rcases hn with (hn | hn) | hn
    · exact Or.inl (h.edge p n hpn (Or.inl hn))
    · exact Or.inl (h.edge p n hpn (Or.inr (hn.trans hhead.symm)))
    · -- one link leads to the new head
      change n = d.next at hn
      subst hn
      exact Or.inr (hq.edge_unique hpn hedge)

/-! ## Threads -/

/-- No thread is about to use a node that has been freed. -/
structure State.Apart (s : State) : Prop where
  queue : s.queue.Apart
  uses : ∀ n ∈ s.uses, n ∉ s.queue.freed

/-- The nodes freed are ones that the head has left, each once. -/
theorem State.Inv.freed_perm (h : s.Inv dummy) :
    (s.queue.freed ++ (s.consumers.flatMap Consumer.held).map Dequeue.prevHead).Perm
      s.queue.left := by
  rw [h.queue.freed, ← List.map_append]
  exact h.held.map _

theorem State.Inv.freed_left (h : s.Inv dummy) (hn : n ∈ s.queue.freed) : n ∈ s.queue.left :=
  h.freed_perm.subset (List.mem_append_left _ hn)

theorem State.Inv.left_known (h : s.Inv dummy) (hn : n ∈ s.queue.left) :
    n ∈ dummy :: s.queue.nodes := by
  obtain ⟨d, hd, rfl⟩ := List.mem_map.mp hn
  exact (h.queue.edge_source (h.queue.dequeued d hd).1).1

/-- What follows a node that is not left is not freed. -/
theorem State.Inv.next_not_freed (h : s.Inv dummy) (ha : s.queue.Apart)
    (hn : n ∈ dummy :: s.queue.nodes) (hleft : n ∉ s.queue.left) :
    s.queue.next n ∉ s.queue.freed := by
  intro hfreed
  have hmem := h.freed_left hfreed
  have hne := h.queue.ne_null (h.left_known hmem)
  exact ha.not_left (h.queue.next n hn hne) hleft hmem

theorem mem_uses : n ∈ s.uses ↔
    (∃ p ∈ s.producers, n ∈ p.accesses) ∨ ∃ c ∈ s.consumers, n ∈ c.uses s.queue := by
  simp [State.uses]

theorem apart_setProducer (h : s.Apart) {i : Nat} {p : Producer} (hq : q'.Apart)
    (hfreed : q'.freed = s.queue.freed)
    (hnext : ∀ n, q'.next n = s.queue.next n ∨ q'.next n ∉ s.queue.freed)
    (hp : ∀ n ∈ p.accesses, n ∉ s.queue.freed) :
    State.Apart { s with queue := q', producers := s.producers.set i p } := by
  refine ⟨hq, fun n huse => ?_⟩
  dsimp only
  rw [hfreed]
  rcases mem_uses.mp huse with ⟨p', hp', hn⟩ | ⟨c, hc, hn⟩
  · rcases Roster.mem_set hp' with rfl | hp'
    · exact hp n hn
    · exact h.uses n (mem_uses.mpr (Or.inl ⟨p', hp', hn⟩))
  · have hold := fun n hn => h.uses n (mem_uses.mpr (Or.inr ⟨c, hc, hn⟩))
    cases c with
    | reading prevHead =>
      change n ∈ [prevHead, q'.next prevHead] at hn
      rcases List.mem_cons.mp hn with rfl | hn
      · exact hold n List.mem_cons_self
      · rw [List.mem_singleton.mp hn]
        rcases hnext prevHead with heq | hnot
        · rw [heq]
          exact hold _ (List.mem_cons_of_mem _ (List.mem_singleton_self _))
        · exact hnot
    | fetching prevHead next => exact hold n hn
    | loading => exact hold n hn
    | moving d => exact hold n hn
    | freeing d => exact hold n hn

theorem apart_setConsumer (h : s.Apart) {i : Nat} {c : Consumer} (hq : q'.Apart)
    (hfreed : q'.freed = s.queue.freed) (hnext : q'.next = s.queue.next)
    (hc : ∀ n ∈ c.uses s.queue, n ∉ s.queue.freed) :
    State.Apart { s with queue := q', consumers := s.consumers.set i c } := by
  refine ⟨hq, fun n huse => ?_⟩
  dsimp only
  rw [hfreed]
  have huses : ∀ c : Consumer, c.uses q' = c.uses s.queue := by
    intro c
    cases c <;> simp [Consumer.uses, hnext]
  rcases mem_uses.mp huse with ⟨p, hp, hn⟩ | ⟨c', hc', hn⟩
  · exact h.uses n (mem_uses.mpr (Or.inl ⟨p, hp, hn⟩))
  · dsimp only at hn
    rw [huses] at hn
    rcases Roster.mem_set hc' with rfl | hc'
    · exact hc n hn
    · exact h.uses n (mem_uses.mpr (Or.inr ⟨c', hc', hn⟩))

/-! ## Steps -/

theorem swing_fields (p n : Nat) (fails : Bool) :
    (q.swing p n fails).freed = q.freed ∧ (q.swing p n fails).next = q.next := by
  unfold Queue.swing
  split <;> exact ⟨rfl, rfl⟩

theorem apart_lockfreeEnQueue (h : s.Inv dummy) (ha : s.Apart) {i : Nat} {val : Int}
    {node : Option Nat} {fails : Bool} {p : Producer} (hi : s.producers[i]? = some p) :
    State.Apart { s with
      queue := (lockfreeEnQueue i val node fails s.queue p).1
      producers := s.producers.set i (lockfreeEnQueue i val node fails s.queue p).2 } := by
  have hmem := List.mem_of_getElem? hi
  have hok := h.producers p hmem
  have hold : ∀ n ∈ p.accesses, n ∉ s.queue.freed := fun n hn =>
    ha.uses n (mem_uses.mpr (Or.inl ⟨p, hmem, hn⟩))
  -- a turn that leaves the nodes alone
  have hsame : ∀ {q' : Queue} (p' : Producer), q'.Apart → q'.freed = s.queue.freed →
      q'.next = s.queue.next → (∀ n ∈ p'.accesses, n ∉ s.queue.freed) →
      State.Apart { s with queue := q', producers := s.producers.set i p' } :=
    fun p' hq hfreed hnext hp' =>
      apart_setProducer ha hq hfreed (fun n => Or.inl (congrFun hnext n)) hp'
  have hcrash : s.queue.crash.Apart :=
    ⟨ha.queue.nodup, ha.queue.head, ha.queue.tail, ha.queue.edge⟩
  have hnull : 0 ∉ s.queue.left := fun hn => h.queue.ne_null (h.left_known hn) rfl
  cases p with
  | idle =>
    cases node with
    | none => exact hsame .idle hcrash rfl rfl nofun
    | some node =>
      have hq : (s.queue.newNode ⟨i, node, val⟩).Apart :=
        ⟨ha.queue.nodup, ha.queue.head, ha.queue.tail, ha.queue.edge⟩
      refine apart_setProducer ha hq rfl (fun n => ?_) nofun
      by_cases hn : n = node
      · subst hn
        have hzero : (s.queue.newNode ⟨i, n, val⟩).next n = 0 := Function.update_self ..
        refine Or.inr fun hfreed => hnull (h.freed_left ?_)
        exact hzero ▸ hfreed
      · exact Or.inl (Function.update_of_ne hn _ _)
  | loading e =>
    refine hsame (.reading e s.queue.tail) ha.queue rfl rfl fun n hn => ?_
    rw [List.mem_singleton.mp hn]
    exact fun hfreed => ha.queue.tail (h.freed_left hfreed)
  | reading e prevTail =>
    unfold lockfreeEnQueue
    dsimp only
    split
    · exact hsame (.reading e prevTail) hcrash rfl rfl hold
    · exact hsame (.linking e prevTail _) ha.queue rfl rfl hold
  | linking e prevTail expectedNode =>
    unfold lockfreeEnQueue
    dsimp only
    split
    · have he : e ∈ s.pending i := by
        rw [State.Inv.pending_eq i hi]
        exact List.mem_singleton_self e
      obtain ⟨-, hstarted, hnode⟩ := h.of_pending he
      refine apart_setProducer ha (apart_link ha.queue h.queue hnode hstarted) rfl (fun n => ?_)
        nofun
      by_cases hn : n = prevTail
      · subst hn
        have hself : (s.queue.link n e).next n = e.node := Function.update_self ..
        rw [hself]
        refine Or.inr fun hfreed => ?_
        rcases List.mem_cons.mp (h.left_known (h.freed_left hfreed)) with heq | hin
        · exact h.queue.started_ne_dummy hstarted heq
        · exact hnode hin
      · exact Or.inl (Function.update_of_ne hn _ _)
    · exact hsame (.rereading e prevTail) ha.queue rfl rfl hold
  | rereading e prevTail => exact hsame (.helping e prevTail _) ha.queue rfl rfl nofun
  | helping e prevTail next =>
    obtain ⟨hfreed, hnext⟩ := swing_fields (q := s.queue) prevTail next fails
    refine hsame (.loading e) (apart_swing ha.queue ?_ fails) hfreed hnext nofun
    rcases hok with rfl | hedge
    · exact Or.inl hnull
    · by_cases hleft : next ∈ s.queue.left
      · exact Or.inr (ha.queue.edge prevTail next hedge (Or.inl hleft))
      · exact Or.inl hleft
  | swinging e prevTail =>
    obtain ⟨hfreed, hnext⟩ := swing_fields (q := s.queue) prevTail e.node fails
    have hedge := mem_edges.mpr ⟨e, hok, rfl⟩
    have hswing : (s.queue.swing prevTail e.node fails).Apart := by
      refine apart_swing ha.queue ?_ fails
      by_cases hleft : e.node ∈ s.queue.left
      · exact Or.inr (ha.queue.edge prevTail e.node hedge (Or.inl hleft))
      · exact Or.inl hleft
    exact hsame .idle ⟨hswing.nodup, hswing.head, hswing.tail, hswing.edge⟩ hfreed hnext nofun

theorem apart_lockfreeDeQueue (h : s.Inv dummy) (ha : s.Apart) {i : Nat} {fails : Bool}
    (hr : s.Reclaims (.consumer i fails)) {c : Consumer} (hi : s.consumers[i]? = some c) :
    State.Apart { s with
      queue := (lockfreeDeQueue fails s.queue c).1
      consumers := s.consumers.set i (lockfreeDeQueue fails s.queue c).2 } := by
  have hmem := List.mem_of_getElem? hi
  have hok := h.consumers c hmem
  have hold : ∀ n ∈ c.uses s.queue, n ∉ s.queue.freed := fun n hn =>
    ha.uses n (mem_uses.mpr (Or.inr ⟨c, hmem, hn⟩))
  cases c with
  | loading =>
    refine apart_setConsumer ha ha.queue rfl rfl fun n hn => ?_
    change n ∈ [s.queue.head, s.queue.next s.queue.head] at hn
    rcases List.mem_cons.mp hn with rfl | hn
    · exact fun hfreed => ha.queue.head (h.freed_left hfreed)
    · rw [List.mem_singleton.mp hn]
      exact h.next_not_freed ha.queue h.queue.head ha.queue.head
  | reading prevHead =>
    unfold lockfreeDeQueue
    dsimp only
    split
    · exact apart_setConsumer ha ha.queue rfl rfl nofun
    · exact apart_setConsumer ha ha.queue rfl rfl fun n hn => hold n (List.mem_cons_of_mem _ hn)
  | fetching prevHead next => exact apart_setConsumer ha ha.queue rfl rfl nofun
  | moving d =>
    unfold lockfreeDeQueue
    dsimp only
    split
    · rename_i hswap
      have htail : s.queue.tail ≠ d.prevHead := hr _ hi hswap
      exact apart_setConsumer ha (apart_moveHead ha.queue h.queue hswap.1 hok.1 htail) rfl rfl nofun
    · exact apart_setConsumer ha ha.queue rfl rfl nofun
  | freeing d =>
    have hunused : d.prevHead ∉ s.uses := hr _ hi
    refine ⟨⟨ha.queue.nodup, ha.queue.head, ha.queue.tail, ha.queue.edge⟩, fun n hn hfreed => ?_⟩
    have hn' : n ∈ s.uses := by
      rcases mem_uses.mp hn with ⟨p, hp, hn⟩ | ⟨c, hc, hn⟩
      · exact mem_uses.mpr (Or.inl ⟨p, hp, hn⟩)
      · rcases Roster.mem_set hc with rfl | hc
        · cases hn
        · exact mem_uses.mpr (Or.inr ⟨c, hc, hn⟩)
    rcases List.mem_append.mp hfreed with hfreed | hfreed
    · exact ha.uses n hn' hfreed
    · exact hunused (List.mem_singleton.mp hfreed ▸ hn')

theorem apart_step (h : s.Inv dummy) (ha : s.Apart) {event : Event} (hr : s.Reclaims event) :
    (step s event).Apart := by
  unfold step
  split
  · exact ha
  cases event with
  | producer i val node fails =>
    dsimp only
    cases hi : s.producers[i]? with
    | none => exact ha
    | some p => exact apart_lockfreeEnQueue h ha hi
  | consumer i fails =>
    dsimp only
    cases hi : s.consumers[i]? with
    | none => exact ha
    | some c => exact apart_lockfreeDeQueue h ha hr hi

theorem apart_init (produceThreads consumeThreads : Nat) (next : Nat → Nat) (data : Nat → Int) :
    (State.init produceThreads consumeThreads dummy next data).Apart :=
  ⟨⟨List.nodup_nil, List.not_mem_nil, List.not_mem_nil, nofun⟩, fun _ _ => List.not_mem_nil⟩

/-! ## Every state -/

theorem safe_of_apart (h : s.Inv dummy) (ha : s.Apart) : s.Safe := by
  refine ⟨fun n hn => ?_, ?_, ha.queue.tail⟩
  · refine ha.uses n (mem_uses.mpr ?_)
    rcases List.mem_append.mp hn with hn | hn
    · exact Or.inl (List.mem_flatMap.mp hn)
    · obtain ⟨c, hc, hn⟩ := List.mem_flatMap.mp hn
      refine Or.inr ⟨c, hc, ?_⟩
      cases c with
      | reading prevHead => exact List.mem_cons.mpr (Or.inl (List.mem_singleton.mp hn))
      | fetching prevHead next => exact hn
      | loading => cases hn
      | moving d => cases hn
      | freeing d => cases hn
  · have hnodup := h.freed_perm.nodup_iff.mpr ha.queue.nodup
    exact (List.nodup_append.mp hnodup).1

/-- In every run in which nobody is about to use what is freed, `malloc` gives
no freed node out again and the head does not leave the node that the tail
is at, no freed node is used, none is freed twice and the tail is not behind
the head, in any state. -/
theorem safe_of_reclaims (produceThreads consumeThreads : Nat) (hdummy : dummy ≠ 0)
    (next : Nat → Nat) (data : Nat → Int) {events : List Event}
    (hmalloc : Along step State.Mallocs
      (State.init produceThreads consumeThreads dummy next data) events)
    (hreclaims : Along step State.Reclaims
      (State.init produceThreads consumeThreads dummy next data) events) :
    Throughout step State.Safe (State.init produceThreads consumeThreads dummy next data)
      events := by
  refine throughout_of_step (I := fun s => s.Inv dummy ∧ s.Apart) (fun s event h hstep => ?_)
    (fun s h => safe_of_apart h.1 h.2) (hmalloc.and hreclaims)
    ⟨inv_init produceThreads consumeThreads hdummy next data,
      apart_init produceThreads consumeThreads next data⟩
  exact ⟨inv_of_reclaims h.1 hstep.1 hstep.2, apart_step h.1 h.2 hstep.2⟩

instance (s : State) : ∀ event, Decidable (s.Mallocs event)
  | .producer _ _ node _ =>
      inferInstanceAs (Decidable (_ = some Producer.idle → ∀ n ∈ node, n ≠ 0 ∧ (_ → _)))
  | .consumer .. => inferInstanceAs (Decidable True)

instance (s : State) (fails : Bool) (c : Consumer) : Decidable (c.Reclaims s fails) := by
  cases c <;> dsimp only [Consumer.Reclaims] <;> infer_instance

instance (s : State) : ∀ event, Decidable (s.Reclaims event)
  | .producer _ _ node _ =>
      inferInstanceAs (Decidable (_ = some Producer.idle → ∀ n ∈ node, n ∉ _))
  | .consumer i fails => inferInstanceAs (Decidable (∀ c ∈ s.consumers[i]?, c.Reclaims s fails))

/-- An enqueue that has completed, and the dequeue of its value. -/
theorem safe_of_reclaims_one :
    Throughout step State.Safe (State.init 1 1 1 (fun _ => 0) fun _ => 0)
      [.producer 0 5 (some 2) false, .producer 0 0 none false, .producer 0 0 none false,
        .producer 0 0 none false, .producer 0 0 none false, .consumer 0 false, .consumer 0 false,
        .consumer 0 false, .consumer 0 false, .consumer 0 false] :=
  safe_of_reclaims 1 1 (by decide) (fun _ => 0) (fun _ => 0) (by decide) (by decide)

/-- Two consumers load the head, and one of them dequeues the value. -/
def freedRun : List Event :=
  [.producer 0 5 (some 2) false, .producer 0 0 none false, .producer 0 0 none false,
    .producer 0 0 none false, .producer 0 0 none false, .consumer 0 false, .consumer 1 false,
    .consumer 1 false, .consumer 1 false, .consumer 1 false, .consumer 1 false]

/-- The other one is about to read `prev_head->next` of the freed dummy. -/
theorem read_of_freed :
    Along step State.Granted (State.init 1 2 1 (fun _ => 0) fun _ => 0) freedRun ∧
      ¬Throughout step State.Safe (State.init 1 2 1 (fun _ => 0) fun _ => 0) freedRun := by
  refine ⟨by decide, fun h => ?_⟩
  have hsafe := h.last
  exact hsafe.accesses 1 (by decide) (by decide)

end Training.LockfreeQueue
