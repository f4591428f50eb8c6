/-
Training.LockfreeQueue.NodeTheorems — the nodes of the queue and what the
threads know of them.

A node is started once, linked behind a node of the queue once, and only
then found by other threads. What a thread has read stays true as the
queue goes on (`Queue.Goes`): the nodes that are linked, the links that
have been made (`Queue.edges`) and the data of the nodes. The links that
have been made need not be the ones that are there (`prev_tail->next` may
be replaced when it is not `NULL`), so nothing here says that the queue
is a list. Every step keeps this (`inv_step`).
-/
import Mathlib.Data.List.Nodup
import Training.Lib.Machine
import Training.Lib.Roster
import Training.LockfreeQueue.Queue

namespace Training.LockfreeQueue

open Training.Lib

variable {q q' : Queue} {s : State} {dummy n p : Nat} {e : Enqueue} {d : Dequeue}

/-- The nodes that have been linked, in the order in which they were. -/
def Queue.nodes (q : Queue) : List Nat := q.linked.map fun l => l.2.node

/-- The links that have been made. -/
def Queue.edges (q : Queue) : List (Nat × Nat) := q.linked.map fun l => (l.1, l.2.node)

/-- The log and the memory agree. -/
structure Queue.Inv (dummy : Nat) (q : Queue) : Prop where
  allocated : q.allocated = dummy :: q.started.map Enqueue.node
  nodup : q.allocated.Nodup
  null : 0 ∉ q.allocated
  linked : ∀ l ∈ q.linked, l.2 ∈ q.started ∧ l.1 ∈ dummy :: q.nodes ∧ l.1 ≠ l.2.node
  nodes : q.nodes.Nodup
  next : ∀ n ∈ dummy :: q.nodes, q.next n ≠ 0 → (n, q.next n) ∈ q.edges
  fresh : ∀ e ∈ q.started, e.node ∉ q.nodes → q.next e.node = 0
  data : ∀ e ∈ q.started, q.data e.node = e.val
  head : q.head ∈ dummy :: q.nodes
  tail : q.tail = 0 ∨ q.tail ∈ dummy :: q.nodes
  completed : ∀ e ∈ q.completed, e ∈ q.linked.map Prod.snd
  dequeued : ∀ d ∈ q.dequeued, (d.prevHead, d.next) ∈ q.edges ∧ q.data d.next = d.data
  freed : q.freed = q.returned.map Dequeue.prevHead

/-! ## Nodes and links -/

theorem mem_edges : (p, n) ∈ q.edges ↔ ∃ e, (p, e) ∈ q.linked ∧ e.node = n := by
  constructor
  · intro h
    obtain ⟨⟨p', e⟩, hl, heq⟩ := List.mem_map.mp h
    obtain ⟨rfl, rfl⟩ := Prod.mk.inj heq
    exact ⟨e, hl, rfl⟩
  · rintro ⟨e, hl, rfl⟩
    exact List.mem_map.mpr ⟨(p, e), hl, rfl⟩

theorem mem_nodes_of_edge (h : (p, n) ∈ q.edges) : n ∈ q.nodes := by
  obtain ⟨e, hl, rfl⟩ := mem_edges.mp h
  exact List.mem_map.mpr ⟨(p, e), hl, rfl⟩

theorem Queue.Inv.edge_source (h : q.Inv dummy) (he : (p, n) ∈ q.edges) :
    p ∈ dummy :: q.nodes ∧ p ≠ n := by
  obtain ⟨e, hl, rfl⟩ := mem_edges.mp he
  exact (h.linked _ hl).2

/-- A node has been linked once. -/
theorem Queue.Inv.edge_unique (h : q.Inv dummy) {p' : Nat} (he : (p, n) ∈ q.edges)
    (he' : (p', n) ∈ q.edges) : p = p' := by
  obtain ⟨e, hl, rfl⟩ := mem_edges.mp he
  obtain ⟨e', hl', hnode⟩ := mem_edges.mp he'
  have hinj := List.inj_on_of_nodup_map h.nodes hl' hl hnode
  exact (Prod.mk.inj hinj).1.symm

theorem Queue.Inv.mem_allocated (h : q.Inv dummy) (hn : n ∈ dummy :: q.nodes) :
    n ∈ q.allocated := by
  rw [h.allocated]
  rcases List.mem_cons.mp hn with rfl | hn
  · exact List.mem_cons_self
  · obtain ⟨l, hl, rfl⟩ := List.mem_map.mp hn
    exact List.mem_cons_of_mem _ (List.mem_map_of_mem (h.linked l hl).1)

theorem Queue.Inv.ne_null (h : q.Inv dummy) (hn : n ∈ dummy :: q.nodes) : n ≠ 0 := by
  rintro rfl
  exact h.null (h.mem_allocated hn)

theorem Queue.Inv.started_inj (h : q.Inv dummy) {e' : Enqueue} (he : e ∈ q.started)
    (he' : e' ∈ q.started) (hnode : e.node = e'.node) : e = e' := by
  have hnodup := h.nodup
  rw [h.allocated] at hnodup
  exact List.inj_on_of_nodup_map (List.nodup_cons.mp hnodup).2 he he' hnode

theorem Queue.Inv.started_ne_dummy (h : q.Inv dummy) (he : e ∈ q.started) : e.node ≠ dummy := by
  have hnodup := h.nodup
  rw [h.allocated] at hnodup
  intro heq
  exact (List.nodup_cons.mp hnodup).1 (heq ▸ List.mem_map_of_mem he)

/-- The dummy and the nodes of the queue, each once. -/
theorem Queue.Inv.nodup_nodes (h : q.Inv dummy) : (dummy :: q.nodes).Nodup := by
  refine List.nodup_cons.mpr ⟨fun hmem => ?_, h.nodes⟩
  obtain ⟨l, hl, heq⟩ := List.mem_map.mp hmem
  exact h.started_ne_dummy (h.linked l hl).1 heq

/-- A call whose node is linked has linked it. -/
theorem Queue.Inv.mem_linked (h : q.Inv dummy) (he : e ∈ q.started) (hn : e.node ∈ q.nodes) :
    e ∈ q.linked.map Prod.snd := by
  obtain ⟨l, hl, heq⟩ := List.mem_map.mp hn
  have hle := h.started_inj (h.linked l hl).1 he heq
  exact List.mem_map.mpr ⟨l, hl, hle⟩

/-! ## The queue goes on -/

/-- Nothing that a thread may rely on is taken back. -/
structure Queue.Goes (q q' : Queue) : Prop where
  linked : ∀ l ∈ q.linked, l ∈ q'.linked
  data : ∀ n ∈ q.nodes, q'.data n = q.data n

theorem Queue.Goes.nodes (h : q.Goes q') (hn : n ∈ q.nodes) : n ∈ q'.nodes := by
  obtain ⟨l, hl, rfl⟩ := List.mem_map.mp hn
  exact List.mem_map.mpr ⟨l, h.linked l hl, rfl⟩

theorem Queue.Goes.known (h : q.Goes q') (hn : n ∈ dummy :: q.nodes) : n ∈ dummy :: q'.nodes := by
  rcases List.mem_cons.mp hn with rfl | hn
  · exact List.mem_cons_self
  · exact List.mem_cons_of_mem _ (h.nodes hn)

theorem Queue.Goes.edge (h : q.Goes q') (he : (p, n) ∈ q.edges) : (p, n) ∈ q'.edges := by
  obtain ⟨e, hl, rfl⟩ := mem_edges.mp he
  exact mem_edges.mpr ⟨e, h.linked _ hl, rfl⟩

/-- The steps that make no node and no link. -/
theorem goes_of_eq (hl : q'.linked = q.linked) (hd : q'.data = q.data) : q.Goes q' :=
  ⟨fun _ hmem => hl ▸ hmem, fun n _ => congrFun hd n⟩

theorem goes_swing (prevTail node : Nat) (fails : Bool) : q.Goes (q.swing prevTail node fails) := by
  unfold Queue.swing
  split
  · exact goes_of_eq rfl rfl
  · exact goes_of_eq rfl rfl

theorem goes_newNode (h : q.Inv dummy) (hfresh : e.node ∉ q.allocated) : q.Goes (q.newNode e) := by
  refine ⟨fun _ hmem => hmem, fun n hn => Function.update_of_ne ?_ _ _⟩
  rintro rfl
  exact hfresh (h.mem_allocated (List.mem_cons_of_mem _ hn))

theorem goes_link (prevTail : Nat) (e : Enqueue) : q.Goes (q.link prevTail e) :=
  ⟨fun _ hmem => List.mem_append_left _ hmem, fun _ _ => rfl⟩

/-! ## What the steps do to the queue -/

theorem inv_initLockfreeQueue (hdummy : dummy ≠ 0) (next : Nat → Nat) (data : Nat → Int) :
    (initLockfreeQueue dummy next data).Inv dummy where
  allocated := rfl
  nodup := List.nodup_singleton dummy
  null := fun hmem => hdummy (List.mem_singleton.mp hmem).symm
  linked := nofun
  nodes := List.nodup_nil
  next := by
    intro n hn hne
    rw [List.mem_singleton.mp hn] at hne
    exact absurd (Function.update_self ..) hne
  fresh := nofun
  data := nofun
  head := List.mem_cons_self
  tail := Or.inr List.mem_cons_self
  completed := nofun
  dequeued := nofun
  freed := rfl

theorem inv_newNode (h : q.Inv dummy) (hnull : e.node ≠ 0) (hfresh : e.node ∉ q.allocated) :
    (q.newNode e).Inv dummy := by
  have hne : ∀ n ∈ q.allocated, n ≠ e.node := by
    rintro n hn rfl
    exact hfresh hn
  have hstarted : ∀ e' ∈ q.started, e'.node ≠ e.node := by
    intro e' he'
    refine hne _ ?_
    rw [h.allocated]
    exact List.mem_cons_of_mem _ (List.mem_map_of_mem he')
  refine { h with allocated := ?_, nodup := ?_, null := ?_, linked := ?_, next := ?_, fresh := ?_,
                  data := ?_, dequeued := ?_ }
  · simp [Queue.newNode, h.allocated]
  · exact List.nodup_append.mpr ⟨h.nodup, List.nodup_singleton _, fun a ha b hb => by
      rw [List.mem_singleton.mp hb]
      exact hne a ha⟩
  · intro hmem
    rcases List.mem_append.mp hmem with hmem | hmem
    · exact h.null hmem
    · exact hnull (List.mem_singleton.mp hmem).symm
  · intro l hl
    exact ⟨List.mem_append_left _ (h.linked l hl).1, (h.linked l hl).2⟩
  · intro n hn hnext
    have hold : (q.newNode e).next n = q.next n :=
      Function.update_of_ne (hne n (h.mem_allocated hn)) _ _
    rw [hold] at hnext ⊢
    exact h.next n hn hnext
  · intro e' he' hnot
    rcases List.mem_append.mp he' with he' | he'
    · exact (Function.update_of_ne (hstarted e' he') _ _).trans (h.fresh e' he' hnot)
    · rw [List.mem_singleton.mp he']
      exact Function.update_self ..
  · intro e' he'
    rcases List.mem_append.mp he' with he' | he'
    · exact (Function.update_of_ne (hstarted e' he') _ _).trans (h.data e' he')
    · rw [List.mem_singleton.mp he']
      exact Function.update_self ..
  · intro d hd
    obtain ⟨hedge, hdata⟩ := h.dequeued d hd
    refine ⟨hedge, (Function.update_of_ne ?_ _ _).trans hdata⟩
    exact hne _ (h.mem_allocated (List.mem_cons_of_mem _ (mem_nodes_of_edge hedge)))

theorem inv_link (h : q.Inv dummy) (he : e ∈ q.started) (hnot : e.node ∉ q.nodes)
    (hp : p ∈ dummy :: q.nodes) : (q.link p e).Inv dummy := by
  have hgoes := goes_link (q := q) p e
  have hpe : p ≠ e.node := by
    rintro rfl
    rcases List.mem_cons.mp hp with heq | hmem
    · exact h.started_ne_dummy he heq
    · exact hnot hmem
  have hnodes : (q.link p e).nodes = q.nodes ++ [e.node] := List.map_append
  refine { h with linked := ?_, nodes := ?_, next := ?_, fresh := ?_, head := ?_, tail := ?_,
                  completed := ?_, dequeued := ?_ }
  · intro l hl
    rcases List.mem_append.mp hl with hl | hl
    · obtain ⟨hstarted, hknown, hne⟩ := h.linked l hl
      exact ⟨hstarted, hgoes.known hknown, hne⟩
    · rw [List.mem_singleton.mp hl]
      exact ⟨he, hgoes.known hp, hpe⟩
  · rw [hnodes]
    refine List.nodup_append.mpr ⟨h.nodes, List.nodup_singleton _, fun a ha b hb => ?_⟩
    rw [List.mem_singleton.mp hb]
    rintro rfl
    exact hnot ha
  · intro n hn hnext
    by_cases hnp : n = p
    · subst hnp
      have hself : (q.link n e).next n = e.node := Function.update_self ..
      rw [hself]
      exact mem_edges.mpr ⟨e, List.mem_append_right _ (List.mem_singleton_self _), rfl⟩
    · have hold : (q.link p e).next n = q.next n := Function.update_of_ne hnp _ _
      rw [hold] at hnext ⊢
      rw [hnodes, ← List.cons_append] at hn
      rcases List.mem_append.mp hn with hn | hn
      · exact hgoes.edge (h.next n hn hnext)
      · rw [List.mem_singleton.mp hn] at hnext
        exact absurd (h.fresh e he hnot) hnext
  · intro e' he' hnot'
    rw [hnodes] at hnot'
    have hold : e'.node ∉ q.nodes := fun hmem => hnot' (List.mem_append_left _ hmem)
    refine (Function.update_of_ne ?_ _ _).trans (h.fresh e' he' hold)
    rintro rfl
    rcases List.mem_cons.mp hp with heq | hmem
    · exact h.started_ne_dummy he' heq
    · exact hold hmem
  · exact hgoes.known h.head
  · exact h.tail.imp_right hgoes.known
  · intro e' he'
    obtain ⟨l, hl, hle⟩ := List.mem_map.mp (h.completed e' he')
    exact List.mem_map.mpr ⟨l, List.mem_append_left _ hl, hle⟩
  · intro d hd
    exact ⟨hgoes.edge (h.dequeued d hd).1, (h.dequeued d hd).2⟩

theorem inv_swing (h : q.Inv dummy) (hn : n = 0 ∨ n ∈ dummy :: q.nodes) (p : Nat) (fails : Bool) :
    (q.swing p n fails).Inv dummy := by
  unfold Queue.swing
  split
  · exact { h with tail := hn }
  · exact h

theorem inv_complete (h : q.Inv dummy) (he : e ∈ q.linked.map Prod.snd) :
    (q.complete e).Inv dummy := by
  refine { h with completed := fun e' he' => ?_ }
  rcases List.mem_append.mp he' with he' | he'
  · exact h.completed e' he'
  · exact List.mem_singleton.mp he' ▸ he

theorem inv_moveHead (h : q.Inv dummy) (hedge : (d.prevHead, d.next) ∈ q.edges)
    (hdata : q.data d.next = d.data) : (q.moveHead d).Inv dummy := by
  refine { h with head := List.mem_cons_of_mem _ (mem_nodes_of_edge hedge)
                  dequeued := fun d' hd' => ?_ }
  rcases List.mem_append.mp hd' with hd' | hd'
  · exact h.dequeued d' hd'
  · rw [List.mem_singleton.mp hd']
    exact ⟨hedge, hdata⟩

theorem inv_free (h : q.Inv dummy) : (q.free d).Inv dummy := by
  refine { h with freed := ?_ }
  simp [Queue.free, h.freed]

/-! ## Threads -/

/-- The call that a producer is in and that has not linked its node. -/
def Producer.pending : Producer → List Enqueue
  | .idle => []
  | .loading e => [e]
  | .reading e _ => [e]
  | .linking e _ _ => [e]
  | .rereading e _ => [e]
  | .helping e _ _ => [e]
  | .swinging _ _ => []

/-- The call that a consumer has to end with `free` and `return`. -/
def Consumer.held : Consumer → List Dequeue
  | .freeing d => [d]
  | _ => []

/-- What a producer has read. -/
def Producer.Ok (dummy : Nat) (q : Queue) : Producer → Prop
  | .idle => True
  | .loading _ => True
  | .reading _ prevTail => prevTail = 0 ∨ prevTail ∈ dummy :: q.nodes
  | .linking _ prevTail _ => prevTail ∈ dummy :: q.nodes
  | .rereading _ prevTail => prevTail ∈ dummy :: q.nodes
  | .helping _ prevTail next => next = 0 ∨ (prevTail, next) ∈ q.edges
  | .swinging e prevTail => (prevTail, e) ∈ q.linked

/-- What a consumer has read. -/
def Consumer.Ok (dummy : Nat) (q : Queue) : Consumer → Prop
  | .loading => True
  | .reading prevHead => prevHead ∈ dummy :: q.nodes
  | .fetching prevHead next => (prevHead, next) ∈ q.edges
  | .moving d => (d.prevHead, d.next) ∈ q.edges ∧ q.data d.next = d.data
  | .freeing _ => True

theorem Producer.Ok.goes {p : Producer} (h : p.Ok dummy q) (hgoes : q.Goes q') :
    p.Ok dummy q' := by
  cases p with
  | idle => trivial
  | loading e => trivial
  | reading e prevTail => exact Or.imp_right hgoes.known h
  | linking e prevTail expectedNode => exact hgoes.known h
  | rereading e prevTail => exact hgoes.known h
  | helping e prevTail next => exact Or.imp_right hgoes.edge h
  | swinging e prevTail => exact hgoes.linked _ h

theorem Consumer.Ok.goes {c : Consumer} (h : c.Ok dummy q) (hgoes : q.Goes q') :
    c.Ok dummy q' := by
  cases c with
  | loading => trivial
  | reading prevHead => exact hgoes.known h
  | fetching prevHead next => exact hgoes.edge h
  | moving d => exact ⟨hgoes.edge h.1, (hgoes.data _ (mem_nodes_of_edge h.1)).trans h.2⟩
  | freeing d => trivial

/-- The call that the producer `i` is in. -/
def State.pending (s : State) (i : Nat) : List Enqueue :=
  (s.producers[i]?).elim [] Producer.pending

/-- The calls that have linked their nodes, and what the threads are in. -/
structure State.Inv (dummy : Nat) (s : State) : Prop where
  queue : s.queue.Inv dummy
  producers : ∀ p ∈ s.producers, p.Ok dummy s.queue
  consumers : ∀ c ∈ s.consumers, c.Ok dummy s.queue
  order : ∀ i, s.queue.started.filter (·.producer = i) =
    (s.queue.linked.map Prod.snd).filter (·.producer = i) ++ s.pending i
  held : (s.queue.returned ++ s.consumers.flatMap Consumer.held).Perm s.queue.dequeued

theorem State.Inv.pending_eq (i : Nat) {p : Producer} (hi : s.producers[i]? = some p) :
    s.pending i = p.pending := by
  simp [State.pending, hi]

/-- The call of a producer is its own and has not linked its node. -/
theorem State.Inv.of_pending (h : s.Inv dummy) {i : Nat} (he : e ∈ s.pending i) :
    e.producer = i ∧ e ∈ s.queue.started ∧ e.node ∉ s.queue.nodes := by
  have hmem : e ∈ s.queue.started.filter (·.producer = i) := by
    rw [h.order i]
    exact List.mem_append_right _ he
  obtain ⟨hstarted, hproducer⟩ := List.mem_filter.mp hmem
  refine ⟨of_decide_eq_true hproducer, hstarted, fun hnode => ?_⟩
  -- the log would have the call twice
  have hlinked : e ∈ (s.queue.linked.map Prod.snd).filter (·.producer = i) :=
    List.mem_filter.mpr ⟨h.queue.mem_linked hstarted hnode, hproducer⟩
  have hnodup := h.queue.nodup
  rw [h.queue.allocated] at hnodup
  have hfilter := (List.Nodup.of_map _ (List.nodup_cons.mp hnodup).2).filter (·.producer = i)
  rw [h.order i] at hfilter
  exact List.disjoint_of_nodup_append hfilter hlinked he

/-! ## Steps -/

/-- A producer moves calls on: `started` it has begun, `linked` it has put
in. -/
theorem inv_setProducer (h : s.Inv dummy) (started linked : List Enqueue) {i : Nat}
    {p p' : Producer} (hi : s.producers[i]? = some p) (hq : q'.Inv dummy)
    (hgoes : s.queue.Goes q') (hok : p'.Ok dummy q')
    (hs : q'.started = s.queue.started ++ started)
    (hl : q'.linked.map Prod.snd = s.queue.linked.map Prod.snd ++ linked)
    (hown : ∀ e ∈ started ++ linked, e.producer = i)
    (hpending : p.pending ++ started = linked ++ p'.pending)
    (hr : q'.returned = s.queue.returned) (hd : q'.dequeued = s.queue.dequeued) :
    State.Inv dummy { s with queue := q', producers := s.producers.set i p' } where
  queue := hq
  producers := by
    intro x hx
    rcases Roster.mem_set hx with rfl | hx
    · exact hok
    · exact (h.producers x hx).goes hgoes
  consumers := fun c hc => (h.consumers c hc).goes hgoes
  order := by
    intro j
    dsimp only
    rw [hs, hl, List.filter_append, List.filter_append, h.order j, List.append_assoc,
      List.append_assoc]
    refine congrArg _ ?_
    obtain ⟨hlt, -⟩ := List.getElem?_eq_some_iff.mp hi
    by_cases hj : j = i
    · subst hj
      have hall : ∀ xs : List Enqueue, (∀ e ∈ xs, e ∈ started ++ linked) →
          xs.filter (·.producer = j) = xs := by
        intro xs hxs
        exact List.filter_eq_self.mpr fun e he => decide_eq_true (hown e (hxs e he))
      rw [hall started fun e => List.mem_append_left _, hall linked fun e => List.mem_append_right _,
        State.Inv.pending_eq j hi, hpending]
      simp [State.pending, hlt]
    · have hnone : ∀ xs : List Enqueue, (∀ e ∈ xs, e ∈ started ++ linked) →
          xs.filter (·.producer = j) = [] := by
        intro xs hxs
        refine List.filter_eq_nil_iff.mpr fun e he heq => hj ?_
        exact (of_decide_eq_true heq).symm.trans (hown e (hxs e he))
      rw [hnone started fun e => List.mem_append_left _,
        hnone linked fun e => List.mem_append_right _]
      simp [State.pending, List.getElem?_set_ne (Ne.symm hj)]
  held := by
    dsimp only
    rw [hr, hd]
    exact h.held

/-- A turn of a producer that makes no node and no link. -/
theorem inv_setProducer_same (h : s.Inv dummy) {i : Nat} {p p' : Producer}
    (hi : s.producers[i]? = some p) (hq : q'.Inv dummy) (hgoes : s.queue.Goes q')
    (hok : p'.Ok dummy q') (hs : q'.started = s.queue.started) (hl : q'.linked = s.queue.linked)
    (hpending : p'.pending = p.pending) (hr : q'.returned = s.queue.returned)
    (hd : q'.dequeued = s.queue.dequeued) :
    State.Inv dummy { s with queue := q', producers := s.producers.set i p' } :=
  inv_setProducer h [] [] hi hq hgoes hok (by simpa using hs) (by simp [hl]) nofun
    (by simpa using hpending.symm) hr hd

theorem swing_logs (p n : Nat) (fails : Bool) :
    (q.swing p n fails).started = q.started ∧ (q.swing p n fails).linked = q.linked ∧
      (q.swing p n fails).returned = q.returned ∧ (q.swing p n fails).dequeued = q.dequeued := by
  unfold Queue.swing
  split <;> exact ⟨rfl, rfl, rfl, rfl⟩

theorem inv_lockfreeEnQueue (h : s.Inv dummy) {i : Nat} {val : Int} {node : Option Nat}
    {fails : Bool} (hg : s.Granted (.producer i val node fails)) {p : Producer}
    (hi : s.producers[i]? = some p) :
    State.Inv dummy { s with
      queue := (lockfreeEnQueue i val node fails s.queue p).1
      producers := s.producers.set i (lockfreeEnQueue i val node fails s.queue p).2 } := by
  have hok := h.producers p (List.mem_of_getElem? hi)
  have hgoes : s.queue.Goes s.queue := goes_of_eq rfl rfl
  -- a turn that leaves the queue alone
  have hsame : ∀ p' : Producer, p'.Ok dummy s.queue → p'.pending = p.pending →
      State.Inv dummy { s with producers := s.producers.set i p' } := fun p' hok' hpending =>
    inv_setProducer_same h hi h.queue hgoes hok' rfl rfl hpending rfl rfl
  have hcrash : State.Inv dummy { s with
      queue := s.queue.crash, producers := s.producers.set i p } := by
    have hq : s.queue.crash.Inv dummy := { h.queue with }
    exact inv_setProducer_same h hi hq (goes_of_eq rfl rfl) hok rfl rfl rfl rfl rfl
  cases p with
  | idle =>
    cases node with
    | none => exact hcrash
    | some node =>
      obtain ⟨hnull, hfresh⟩ := hg node rfl
      have hq : (s.queue.newNode ⟨i, node, val⟩).Inv dummy := inv_newNode h.queue hnull hfresh
      exact inv_setProducer h [⟨i, node, val⟩] [] hi hq (goes_newNode h.queue hfresh) trivial rfl
        (List.append_nil _).symm (by simp) rfl rfl rfl
  | loading e => exact hsame (.reading e s.queue.tail) h.queue.tail rfl
  | reading e prevTail =>
    unfold lockfreeEnQueue
    dsimp only
    split
    · exact hcrash
    · rename_i hnull
      exact hsame (.linking e prevTail _) (hok.resolve_left hnull) rfl
  | linking e prevTail expectedNode =>
    unfold lockfreeEnQueue
    dsimp only
    split
    · have he : e ∈ s.pending i := by
        rw [State.Inv.pending_eq i hi]
        exact List.mem_singleton_self e
      obtain ⟨hproducer, hstarted, hnode⟩ := h.of_pending he
      refine inv_setProducer h [] [e] hi (inv_link h.queue hstarted hnode hok)
        (goes_link prevTail e) ?_ (List.append_nil _).symm List.map_append ?_ rfl rfl rfl
      · exact List.mem_append_right _ (List.mem_singleton_self _)
      · intro e' he'
        rw [List.mem_singleton.mp he']
        exact hproducer
    · exact hsame (.rereading e prevTail) hok rfl
  | rereading e prevTail =>
    refine hsame (.helping e prevTail _) ?_ rfl
    by_cases hnull : s.queue.next prevTail = 0
    · exact Or.inl hnull
    · exact Or.inr (h.queue.next prevTail hok hnull)
  | helping e prevTail next =>
    obtain ⟨hs, hl, hr, hd⟩ := swing_logs (q := s.queue) prevTail next fails
    have hknown := Or.imp_right (fun hedge => List.mem_cons_of_mem dummy (mem_nodes_of_edge hedge)) hok
    exact inv_setProducer_same h hi (inv_swing h.queue hknown prevTail fails)
      (goes_swing prevTail next fails) trivial hs hl rfl hr hd
  | swinging e prevTail =>
    obtain ⟨hs, hl, hr, hd⟩ := swing_logs (q := s.queue) prevTail e.node fails
    have hedge := mem_edges.mpr ⟨e, hok, rfl⟩
    have hswing := inv_swing h.queue
      (Or.inr (List.mem_cons_of_mem _ (mem_nodes_of_edge hedge))) prevTail fails
    have hlinked : e ∈ (s.queue.swing prevTail e.node fails).linked.map Prod.snd := by
      rw [hl]
      exact List.mem_map_of_mem (f := Prod.snd) hok
    have hgoes : s.queue.Goes ((s.queue.swing prevTail e.node fails).complete e) :=
      ⟨(goes_swing prevTail e.node fails).linked, (goes_swing prevTail e.node fails).data⟩
    exact inv_setProducer_same h hi (inv_complete hswing hlinked) hgoes trivial hs hl rfl hr hd

theorem inv_lockfreeDeQueue (h : s.Inv dummy) {i : Nat} {fails : Bool} {c : Consumer}
    (hi : s.consumers[i]? = some c) :
    State.Inv dummy { s with
      queue := (lockfreeDeQueue fails s.queue c).1
      consumers := s.consumers.set i (lockfreeDeQueue fails s.queue c).2 } := by
  have hok := h.consumers c (List.mem_of_getElem? hi)
  have hheld := fun c' => Roster.flatMap_set_perm hi c' Consumer.held
  have hset : ∀ {q' : Queue} {c' : Consumer}, q'.Inv dummy → s.queue.Goes q' →
      q'.started = s.queue.started → q'.linked = s.queue.linked → c'.Ok dummy q' →
      (q'.returned ++ (s.consumers.set i c').flatMap Consumer.held).Perm q'.dequeued →
      State.Inv dummy { s with queue := q', consumers := s.consumers.set i c' } := by
    intro q' c' hq hgoes hs hl hok' hperm
    refine ⟨hq, fun p hp => (h.producers p hp).goes hgoes, fun x hx => ?_, fun j => ?_, hperm⟩
    · rcases Roster.mem_set hx with rfl | hx
      · exact hok'
      · exact (h.consumers x hx).goes hgoes
    · dsimp only
      rw [hs, hl]
      exact h.order j
  -- a turn that leaves the queue alone
  have hsame : ∀ c' : Consumer, c'.Ok dummy s.queue → c'.held = c.held →
      State.Inv dummy { s with consumers := s.consumers.set i c' } := by
    intro c' hok' hc'
    refine hset h.queue (goes_of_eq rfl rfl) rfl rfl hok' ((List.Perm.append_left _ ?_).trans h.held)
    have hperm := hheld c'
    rw [hc'] at hperm
    exact (List.perm_append_left_iff _).mp hperm
  cases c with
  | loading => exact hsame (.reading s.queue.head) h.queue.head rfl
  | reading prevHead =>
    unfold lockfreeDeQueue
    dsimp only
    split
    · exact hsame .loading trivial rfl
    · rename_i hnull
      exact hsame (.fetching prevHead _) (h.queue.next prevHead hok hnull) rfl
  | fetching prevHead next =>
    exact hsame (.moving ⟨prevHead, next, s.queue.data next⟩) ⟨hok, rfl⟩ rfl
  | moving d =>
    unfold lockfreeDeQueue
    dsimp only
    split
    · refine hset (inv_moveHead h.queue hok.1 hok.2) (goes_of_eq rfl rfl) rfl rfl trivial ?_
      have hperm : (s.consumers.set i (.freeing d)).flatMap Consumer.held |>.Perm
          (d :: s.consumers.flatMap Consumer.held) := hheld (.freeing d)
      calc (s.queue.returned ++ (s.consumers.set i (.freeing d)).flatMap Consumer.held).Perm
            (s.queue.returned ++ d :: s.consumers.flatMap Consumer.held) := hperm.append_left _
        _ |>.Perm (d :: (s.queue.returned ++ s.consumers.flatMap Consumer.held)) :=
            List.perm_middle
        _ |>.Perm (d :: s.queue.dequeued) := h.held.cons d
        _ |>.Perm (s.queue.dequeued ++ [d]) := (List.perm_append_singleton d _).symm
    · exact hsame .loading trivial rfl
  | freeing d =>
    refine hset (inv_free h.queue) (goes_of_eq rfl rfl) rfl rfl trivial ?_
    have hperm : (d :: (s.consumers.set i .loading).flatMap Consumer.held).Perm
        (s.consumers.flatMap Consumer.held) := hheld .loading
    calc (s.queue.returned ++ [d] ++ (s.consumers.set i .loading).flatMap Consumer.held).Perm
          (s.queue.returned ++ (d :: (s.consumers.set i .loading).flatMap Consumer.held)) :=
            List.Perm.of_eq (List.append_assoc ..)
      _ |>.Perm (s.queue.returned ++ s.consumers.flatMap Consumer.held) := hperm.append_left _
      _ |>.Perm s.queue.dequeued := h.held

theorem inv_step (h : s.Inv dummy) {event : Event} (hg : s.Granted event) :
    (step s event).Inv dummy := by
  unfold step
  split
  · exact h
  cases event with
  | producer i val node fails =>
    dsimp only
    cases hi : s.producers[i]? with
    | none => exact h
    | some p => exact inv_lockfreeEnQueue h hg hi
  | consumer i fails =>
    dsimp only
    cases hi : s.consumers[i]? with
    | none => exact h
    | some c => exact inv_lockfreeDeQueue h hi

theorem inv_init (produceThreads consumeThreads : Nat) (hdummy : dummy ≠ 0) (next : Nat → Nat)
    (data : Nat → Int) : (State.init produceThreads consumeThreads dummy next data).Inv dummy where
  queue := inv_initLockfreeQueue hdummy next data
  producers := fun p hp => List.eq_of_mem_replicate hp ▸ trivial
  consumers := fun c hc => List.eq_of_mem_replicate hc ▸ trivial
  order := by
    intro i
    have hpending : (State.init produceThreads consumeThreads dummy next data).pending i = [] := by
      simp only [State.pending, State.init, List.getElem?_replicate]
      split <;> rfl
    rw [hpending]
    rfl
  held := by
    have hheld : (List.replicate consumeThreads Consumer.loading).flatMap Consumer.held = [] :=
      List.flatMap_eq_nil_iff.mpr fun c hc => List.eq_of_mem_replicate hc ▸ rfl
    simp only [State.init, hheld]
    exact List.Perm.refl _

end Training.LockfreeQueue
