/-
Training.LockfreeQueue.QueueTheorems — where the queue is a queue.

The compare-exchange of `prev_tail->next` expects what the field held a
moment ago, so it may replace the node of another producer. As long as
the link that it replaces is `NULL` (`State.LinksNull`), the links that
have been made are the ones that are there, the nodes are one list in the
order in which they were linked, and the head has moved along it
(`Queue.Chain`). Then no value is lost, returned twice or out of order
(`fifo_of_linksNull`). Otherwise an enqueue that has completed is lost
(`lost_enqueue`).
-/
import Mathlib.Data.List.Infix
import Training.Lib.Links
import Training.LockfreeQueue.NodeTheorems

namespace Training.LockfreeQueue

open Training.Lib Training.Lib.Links

variable {q q' : Queue} {s : State} {dummy p : Nat} {e : Enqueue} {d : Dequeue} {xs : List Nat}

/-- A compare-exchange of `prev_tail->next` that does not fail replaces
`NULL`. -/
def Producer.LinksNull (q : Queue) (fails : Bool) : Producer → Prop
  | .linking _ prevTail expectedNode =>
      q.next prevTail = expectedNode ∧ fails = false → expectedNode = 0
  | _ => True

def State.LinksNull (s : State) : Event → Prop
  | .producer i _ _ fails => ∀ p ∈ s.producers[i]?, p.LinksNull s.queue fails
  | .consumer .. => True

/-- What the users of the queue may rely on; `xs` are the nodes that can be
reached from the head. -/
structure State.SoundWith (s : State) (xs : List Nat) : Prop where
  reachable : Linked s.queue.next (s.queue.next s.queue.head) xs
  /-- no node is dequeued twice, or dequeued and still there -/
  nodup : (s.queue.dequeued.map Dequeue.next ++ xs).Nodup
  present : ∀ e ∈ s.queue.completed, e.node ∈ s.queue.dequeued.map Dequeue.next ++ xs
  /-- a node that has been dequeued is returned by its dequeue, and by no other -/
  returned : (s.queue.returned ++ s.consumers.flatMap Consumer.held).Perm s.queue.dequeued
  /-- the calls whose nodes have been dequeued, with their values -/
  fifo : ∃ es : List Enqueue,
    es.map (fun e => (e.node, e.val)) = s.queue.dequeued.map (fun d => (d.next, d.data)) ∧
    (∀ e ∈ es, e ∈ s.queue.started) ∧
    ∀ i, es.filter (·.producer = i) <+: s.queue.started.filter (·.producer = i)

def State.Sound (s : State) : Prop := ∃ xs, s.SoundWith xs

/-! ## The nodes are a list -/

/-- The nodes are linked in their order, the head has moved along the first
of them, and `xs` are the others. -/
structure Queue.Chain (dummy : Nat) (q : Queue) (xs : List Nat) : Prop where
  linked : Linked q.next (q.next dummy) q.nodes
  split : q.nodes = q.dequeued.map Dequeue.next ++ xs
  head : (dummy :: q.dequeued.map Dequeue.next).getLast (List.cons_ne_nil _ _) = q.head
  current : ∀ p n, (p, n) ∈ q.edges → q.next p = n

/-- The nodes behind the head. -/
theorem Queue.Chain.behind_head (h : q.Chain dummy xs) : Linked q.next (q.next q.head) xs := by
  refine h.linked.behind (c := (dummy :: q.dequeued.map Dequeue.next).dropLast) ?_
  have hsplit := List.dropLast_append_getLast (List.cons_ne_nil dummy (q.dequeued.map Dequeue.next))
  rw [h.head] at hsplit
  calc dummy :: q.nodes = (dummy :: q.dequeued.map Dequeue.next) ++ xs := by
        rw [h.split, List.cons_append]
    _ = (dummy :: q.dequeued.map Dequeue.next).dropLast ++ [q.head] ++ xs := by rw [hsplit]
    _ = (dummy :: q.dequeued.map Dequeue.next).dropLast ++ q.head :: xs := by
        rw [List.append_assoc, List.singleton_append]

/-- The node whose link is `NULL` is the last one. -/
theorem Queue.Chain.eq_last (h : q.Chain dummy xs) (hp : p ∈ dummy :: q.nodes)
    (hnull : q.next p = 0) : (dummy :: q.nodes).getLast (List.cons_ne_nil _ _) = p := by
  obtain ⟨before, behind, heq⟩ := List.append_of_mem hp
  have hbehind := h.linked.behind heq
  rw [hnull] at hbehind
  have hnil := hbehind.eq_nil
  subst hnil
  simp [heq]

theorem chain_congr (h : q.Chain dummy xs) (hnext : ∀ n ∈ dummy :: q.nodes, q'.next n = q.next n)
    (hq : q.Inv dummy) (hl : q'.linked = q.linked) (hd : q'.dequeued = q.dequeued)
    (hhead : q'.head = q.head) : q'.Chain dummy xs := by
  have hnodes : q'.nodes = q.nodes := by rw [Queue.nodes, hl, Queue.nodes]
  refine ⟨?_, ?_, ?_, fun p n hedge => ?_⟩
  · rw [hnodes, hnext dummy List.mem_cons_self]
    exact h.linked.congr fun n hn => hnext n (List.mem_cons_of_mem _ hn)
  · rw [hnodes, hd]
    exact h.split
  · simp only [hd, hhead]
    exact h.head
  · rw [Queue.edges, hl] at hedge
    rw [hnext p (hq.edge_source hedge).1]
    exact h.current p n hedge

theorem chain_link (h : q.Chain dummy xs) (hq : q.Inv dummy) (he : e ∈ q.started)
    (hnot : e.node ∉ q.nodes) (hp : p ∈ dummy :: q.nodes) (hnull : q.next p = 0) :
    (q.link p e).Chain dummy (xs ++ [e.node]) := by
  have hlast := h.eq_last hp hnull
  have hnodes : (q.link p e).nodes = q.nodes ++ [e.node] := List.map_append
  have hself : (q.link p e).next p = e.node := Function.update_self ..
  have hother : ∀ n, n ≠ p → (q.link p e).next n = q.next n := fun n hn =>
    Function.update_of_ne hn _ _
  have hne : e.node ≠ p := by
    rintro rfl
    rcases List.mem_cons.mp hp with heq | hmem
    · exact hq.started_ne_dummy he heq
    · exact hnot hmem
  have hnode : e.node ≠ 0 := by
    intro heq
    refine hq.null ?_
    rw [hq.allocated, ← heq]
    exact List.mem_cons_of_mem _ (List.mem_map_of_mem he)
  refine ⟨?_, ?_, h.head, fun a n hedge => ?_⟩
  · have hlinked := h.linked
    rw [← List.append_nil q.nodes] at hlinked
    rw [hnodes]
    refine hlinked.insert ?_ hnode ?_ ?_ fun y _ hy => ?_
    · rw [List.append_nil]
      exact hq.nodup_nodes
    · rw [hlast, hself]
    · rw [hlast, hnull, hother _ hne]
      exact hq.fresh e he hnot
    · rw [hlast] at hy
      exact hother y hy
  · rw [hnodes, h.split, List.append_assoc]
    rfl
  · rcases mem_edges.mp hedge with ⟨e', hlinked, rfl⟩
    rcases List.mem_append.mp hlinked with hl | hl
    · -- the link that is replaced was none of the links made
      have hold : (a, e'.node) ∈ q.edges := mem_edges.mpr ⟨e', hl, rfl⟩
      have hcurrent := h.current a e'.node hold
      have hap : a ≠ p := by
        rintro rfl
        rw [hnull] at hcurrent
        exact hq.ne_null (List.mem_cons_of_mem _ (mem_nodes_of_edge hold)) hcurrent.symm
      exact (hother a hap).trans hcurrent
    · obtain ⟨rfl, rfl⟩ := Prod.mk.inj (List.mem_singleton.mp hl)
      exact hself

theorem chain_moveHead (h : q.Chain dummy xs) (hq : q.Inv dummy) (hhead : q.head = d.prevHead)
    (hedge : (d.prevHead, d.next) ∈ q.edges) : ∃ ys, (q.moveHead d).Chain dummy ys := by
  have hnext : q.next q.head = d.next := by
    rw [hhead]
    exact h.current _ _ hedge
  have hne := hq.ne_null (List.mem_cons_of_mem dummy (mem_nodes_of_edge hedge))
  have hbehind := h.behind_head
  rw [hnext] at hbehind
  obtain ⟨ys, rfl, -⟩ := hbehind.exists_cons hne
  refine ⟨ys, h.linked, ?_, ?_, h.current⟩
  · show q.nodes = (q.dequeued ++ [d]).map Dequeue.next ++ ys
    rw [h.split, List.map_append, List.append_assoc]
    rfl
  · simp [Queue.moveHead]

/-! ## Steps -/

theorem chain_swing (h : q.Chain dummy xs) (p n : Nat) (fails : Bool) :
    (q.swing p n fails).Chain dummy xs := by
  unfold Queue.swing
  split
  · exact ⟨h.linked, h.split, h.head, h.current⟩
  · exact h

theorem chain_lockfreeEnQueue (h : s.Inv dummy) (hc : s.queue.Chain dummy xs) {i : Nat} {val : Int}
    {node : Option Nat} {fails : Bool} (hg : s.Granted (.producer i val node fails))
    (hnull : s.LinksNull (.producer i val node fails)) {p : Producer}
    (hi : s.producers[i]? = some p) :
    ∃ xs, (lockfreeEnQueue i val node fails s.queue p).1.Chain dummy xs := by
  have hok := h.producers p (List.mem_of_getElem? hi)
  have hcrash : s.queue.crash.Chain dummy xs := ⟨hc.linked, hc.split, hc.head, hc.current⟩
  cases p with
  | idle =>
    cases node with
    | none => exact ⟨xs, hcrash⟩
    | some node =>
      obtain ⟨-, hfresh⟩ := hg node rfl
      refine ⟨xs, chain_congr hc (fun n hn => Function.update_of_ne ?_ _ _) h.queue rfl rfl rfl⟩
      rintro rfl
      exact hfresh (h.queue.mem_allocated hn)
  | loading e => exact ⟨xs, hc⟩
  | reading e prevTail =>
    unfold lockfreeEnQueue
    dsimp only
    split
    · exact ⟨xs, hcrash⟩
    · exact ⟨xs, hc⟩
  | linking e prevTail expectedNode =>
    unfold lockfreeEnQueue
    dsimp only
    split
    · rename_i hswap
      have he : e ∈ s.pending i := by
        rw [State.Inv.pending_eq i hi]
        exact List.mem_singleton_self e
      obtain ⟨-, hstarted, hnode⟩ := h.of_pending he
      have hzero : expectedNode = 0 := hnull _ hi hswap
      exact ⟨_, chain_link hc h.queue hstarted hnode hok (hswap.1.trans hzero)⟩
    · exact ⟨xs, hc⟩
  | rereading e prevTail => exact ⟨xs, hc⟩
  | helping e prevTail next => exact ⟨xs, chain_swing hc prevTail next fails⟩
  | swinging e prevTail =>
    have hswing := chain_swing hc prevTail e.node fails
    exact ⟨xs, hswing.linked, hswing.split, hswing.head, hswing.current⟩

theorem chain_lockfreeDeQueue (h : s.Inv dummy) (hc : s.queue.Chain dummy xs) {i : Nat}
    {fails : Bool} {c : Consumer} (hi : s.consumers[i]? = some c) :
    ∃ xs, (lockfreeDeQueue fails s.queue c).1.Chain dummy xs := by
  have hok := h.consumers c (List.mem_of_getElem? hi)
  cases c with
  | loading => exact ⟨xs, hc⟩
  | reading prevHead =>
    unfold lockfreeDeQueue
    dsimp only
    split <;> exact ⟨xs, hc⟩
  | fetching prevHead next => exact ⟨xs, hc⟩
  | moving d =>
    unfold lockfreeDeQueue
    dsimp only
    split
    · rename_i hswap
      exact chain_moveHead hc h.queue hswap.1 hok.1
    · exact ⟨xs, hc⟩
  | freeing d => exact ⟨xs, hc.linked, hc.split, hc.head, hc.current⟩

theorem chain_step (h : s.Inv dummy) (hc : s.queue.Chain dummy xs) {event : Event}
    (hg : s.Granted event) (hnull : s.LinksNull event) :
    ∃ xs, (step s event).queue.Chain dummy xs := by
  unfold step
  split
  · exact ⟨xs, hc⟩
  cases event with
  | producer i val node fails =>
    dsimp only
    cases hi : s.producers[i]? with
    | none => exact ⟨xs, hc⟩
    | some p => exact chain_lockfreeEnQueue h hc hg hnull hi
  | consumer i fails =>
    dsimp only
    cases hi : s.consumers[i]? with
    | none => exact ⟨xs, hc⟩
    | some c => exact chain_lockfreeDeQueue h hc hi

theorem chain_initLockfreeQueue (dummy : Nat) (next : Nat → Nat) (data : Nat → Int) :
    (initLockfreeQueue dummy next data).Chain dummy [] where
  linked := Function.update_self ..
  split := rfl
  head := rfl
  current := nofun

/-! ## The queue in every state -/

/-- The calls whose nodes have been dequeued are the first that linked
theirs. -/
theorem fifo_of_chain (h : s.Inv dummy) (hc : s.queue.Chain dummy xs) :
    ∃ es : List Enqueue,
      es.map (fun e => (e.node, e.val)) = s.queue.dequeued.map (fun d => (d.next, d.data)) ∧
      (∀ e ∈ es, e ∈ s.queue.started) ∧
      ∀ i, es.filter (·.producer = i) <+: s.queue.started.filter (·.producer = i) := by
  have htake := List.take_prefix s.queue.dequeued.length (s.queue.linked.map Prod.snd)
  generalize hes : (s.queue.linked.map Prod.snd).take s.queue.dequeued.length = es at htake
  have hstarted : ∀ e ∈ es, e ∈ s.queue.started := by
    intro e he
    obtain ⟨l, hl, rfl⟩ := List.mem_map.mp (htake.subset he)
    exact (h.queue.linked l hl).1
  refine ⟨es, ?_, hstarted, fun i => ?_⟩
  · have hnodes : es.map Enqueue.node = s.queue.dequeued.map Dequeue.next := by
      calc es.map Enqueue.node = s.queue.nodes.take s.queue.dequeued.length := by
            rw [← hes, List.map_take, List.map_map]
            rfl
        _ = s.queue.dequeued.map Dequeue.next := by
            rw [hc.split, List.take_left' (List.length_map _)]
    calc es.map (fun e => (e.node, e.val))
          = es.map (fun e => (e.node, s.queue.data e.node)) :=
            List.map_congr_left fun e he => by rw [h.queue.data e (hstarted e he)]
      _ = (es.map Enqueue.node).map (fun n => (n, s.queue.data n)) := by
            rw [List.map_map]
            rfl
      _ = s.queue.dequeued.map (fun d => (d.next, s.queue.data d.next)) := by
            rw [hnodes, List.map_map]
            rfl
      _ = s.queue.dequeued.map (fun d => (d.next, d.data)) :=
            List.map_congr_left fun d hd => by rw [(h.queue.dequeued d hd).2]
  · rw [h.order i]
    exact (htake.filter _).trans (List.prefix_append _ _)

theorem sound_of_chain (h : s.Inv dummy) (hc : s.queue.Chain dummy xs) : s.Sound := by
  refine ⟨xs, hc.behind_head, ?_, fun e he => ?_, h.held, fifo_of_chain h hc⟩
  · rw [← hc.split]
    exact h.queue.nodes
  · rw [← hc.split]
    obtain ⟨l, hl, rfl⟩ := List.mem_map.mp (h.queue.completed e he)
    exact List.mem_map.mpr ⟨l, hl, rfl⟩

/-- In every run in which a link is only written over `NULL`, the values are
dequeued in the order in which they were linked, each once, in every
state. -/
theorem fifo_of_linksNull (produceThreads consumeThreads : Nat) (hdummy : dummy ≠ 0)
    (next : Nat → Nat) (data : Nat → Int) {events : List Event}
    (hmalloc : Along step State.Granted
      (State.init produceThreads consumeThreads dummy next data) events)
    (hlinks : Along step State.LinksNull
      (State.init produceThreads consumeThreads dummy next data) events) :
    Throughout step State.Sound (State.init produceThreads consumeThreads dummy next data)
      events := by
  refine throughout_of_step (I := fun s => s.Inv dummy ∧ ∃ xs, s.queue.Chain dummy xs)
    (fun s event h hstep => ?_) (fun s h => ?_) (hmalloc.and hlinks)
    ⟨inv_init produceThreads consumeThreads hdummy next data, [],
      chain_initLockfreeQueue dummy next data⟩
  · obtain ⟨hinv, xs, hc⟩ := h
    exact ⟨inv_step hinv hstep.1, chain_step hinv hc hstep.1 hstep.2⟩
  · obtain ⟨hinv, xs, hc⟩ := h
    exact sound_of_chain hinv hc

instance (q : Queue) (fails : Bool) (p : Producer) : Decidable (p.LinksNull q fails) := by
  cases p <;> dsimp only [Producer.LinksNull] <;> infer_instance

instance (s : State) : ∀ event, Decidable (s.LinksNull event)
  | .producer i _ _ fails =>
      inferInstanceAs (Decidable (∀ p ∈ s.producers[i]?, p.LinksNull s.queue fails))
  | .consumer .. => inferInstanceAs (Decidable True)

/-- The second of two producers finds the node of the first one behind the
dummy, helps the tail on and links its node behind it. -/
theorem fifo_of_linksNull_help :
    Throughout step State.Sound (State.init 2 1 1 (fun _ => 0) fun _ => 0)
      [.producer 0 5 (some 2) false, .producer 1 6 (some 3) false, .producer 0 0 none false,
        .producer 0 0 none false, .producer 1 0 none false, .producer 1 0 none false,
        .producer 0 0 none false, .producer 1 0 none false, .producer 1 0 none false,
        .producer 1 0 none false, .producer 0 0 none false, .producer 1 0 none false,
        .producer 1 0 none false, .producer 1 0 none true, .producer 1 0 none false,
        .consumer 0 false, .consumer 0 false, .consumer 0 false, .consumer 0 false,
        .consumer 0 false] :=
  fifo_of_linksNull 2 1 (by decide) (fun _ => 0) (fun _ => 0) (by decide) (by decide)

/-- The second producer reads the link of the dummy after the first one has
put its node there, and replaces it. -/
def lostRun : List Event :=
  [.producer 0 5 (some 2) false, .producer 0 0 none false, .producer 0 0 none false,
    .producer 0 0 none false, .producer 1 6 (some 3) false, .producer 1 0 none false,
    .producer 1 0 none false, .producer 1 0 none false, .producer 0 0 none false]

/-- The first call has completed; from the head, only the node of the second
one is reached. -/
theorem lost_enqueue :
    Along step State.Granted (State.init 2 1 1 (fun _ => 0) fun _ => 0) lostRun ∧
      ¬Throughout step State.Sound (State.init 2 1 1 (fun _ => 0) fun _ => 0) lostRun := by
  refine ⟨by decide, fun h => ?_⟩
  obtain ⟨xs, hsound⟩ := h.last
  have hreach : Linked (run step (State.init 2 1 1 (fun _ => 0) fun _ => 0) lostRun).queue.next
      ((run step (State.init 2 1 1 (fun _ => 0) fun _ => 0) lostRun).queue.next 1) [3] :=
    ⟨by decide, by decide, linked_nil.mpr (by decide)⟩
  have hxs : xs = [3] := hsound.reachable.unique hreach
  subst hxs
  have hpresent := hsound.present ⟨0, 2, 5⟩ (by decide)
  exact absurd hpresent (by decide)

end Training.LockfreeQueue
