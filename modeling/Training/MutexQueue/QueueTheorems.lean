/-
Training.MutexQueue.QueueTheorems — the queue is a queue, and ends once.

The nodes from the head on are a ring (`Queue.Ring`), the newest first,
and the nodes allocated are the ones of the ring and the ones threads
hold, each once. From that the values taken out are the first ones put in
(`State.Inv`), and since `shutdown` is set with the counters of that
moment, it is the end of the stream for every thread (`stream_sound`).
-/
import Training.Lib.Doubly
import Training.Lib.Machine
import Training.Lib.Roster
import Training.MutexQueue.Queue

namespace Training.MutexQueue

open Training.Lib Training.Lib.Doubly

variable {q : Queue} {xs : List Nat} {n totalQueueNodes : Nat} {s : State}

/-- The nodes of the queue, from the head on. -/
structure Queue.Ring (q : Queue) (xs : List Nat) : Prop where
  between : Between q.next q.prev headNode headNode xs
  nodup : xs.Nodup
  head : headNode ∉ xs

/-! ## The ring -/

theorem Queue.Ring.firsts (h : q.Ring xs) : (headNode :: xs).Nodup :=
  List.nodup_cons.mpr ⟨h.head, h.nodup⟩

theorem Queue.Ring.seconds (h : q.Ring xs) : (xs ++ [headNode]).Nodup :=
  (List.perm_append_singleton headNode xs).nodup_iff.mpr h.firsts

theorem ring_init (next prev : Nat → Nat) (data : Nat → Int) :
    (initMutexQueue next prev data).Ring [] :=
  ⟨⟨by simp [initMutexQueue], by simp [initMutexQueue]⟩, List.nodup_nil, List.not_mem_nil⟩

/-- A node that is not in the ring is written. -/
theorem ring_newNode (h : q.Ring xs) (hn : n ≠ headNode) (hxs : n ∉ xs) (val : Int) :
    (q.newNode n val).Ring xs := by
  refine ⟨h.between.congr (fun y hy => ?_) fun y hy => ?_, h.nodup, h.head⟩
  · refine Function.update_of_ne ?_ _ _
    rintro rfl
    rcases List.mem_cons.mp hy with hy | hy
    · exact hn hy
    · exact hxs hy
  · refine Function.update_of_ne ?_ _ _
    rintro rfl
    rcases List.mem_append.mp hy with hy | hy
    · exact hxs hy
    · exact hn (List.mem_singleton.mp hy)

theorem ring_link (h : q.Ring xs) (hn : n ≠ headNode) (hxs : n ∉ xs) : (q.link n).Ring (n :: xs) := by
  refine ⟨h.between.insert h.seconds ?_ ?_ ?_ (fun y hy => ?_) fun y hy => ?_,
    List.nodup_cons.mpr ⟨hxs, h.nodup⟩, ?_⟩
  · simp [Queue.link]
  · simp [Queue.link, Function.update_of_ne hn]
  · simp [Queue.link]
  · have hyn : y ≠ n := fun heq => hxs (heq ▸ hy)
    have hyh : y ≠ headNode := fun heq => h.head (heq ▸ hy)
    simp [Queue.link, Function.update_of_ne hyn, Function.update_of_ne hyh]
  · have hyn : y ≠ n := by
      rintro rfl
      rcases List.mem_append.mp hy with hy | hy
      · exact hxs hy
      · exact hn (List.mem_singleton.mp hy)
    simp only [Queue.link, Function.update_of_ne hyn, Function.update_apply]
  · intro hmem
    rcases List.mem_cons.mp hmem with heq | hmem
    · exact hn heq.symm
    · exact h.head hmem

/-- The node in front of the head is the last one. -/
theorem ring_last (h : q.Ring xs) :
    q.prev headNode = headNode ∧ xs = [] ∨
      q.prev headNode ≠ headNode ∧ ∃ ys, xs = ys ++ [q.prev headNode] := by
  have hlast := h.between.prev_right
  rcases List.eq_nil_or_concat xs with rfl | ⟨ys, y, rfl⟩
  · exact Or.inl ⟨hlast, rfl⟩
  · have hy : q.prev headNode = y := by
      rw [hlast]
      simp
    refine Or.inr ⟨fun heq => h.head ?_, ys, by rw [hy, List.concat_eq_append]⟩
    rw [← heq, hy]
    simp

theorem ring_unlink (h : q.Ring (xs ++ [n])) : (q.unlink n).Ring xs := by
  have hmem : n ∈ xs ++ [n] := by simp
  have hperm := List.perm_append_singleton n xs
  obtain ⟨hn, hnodup⟩ := List.nodup_cons.mp (hperm.nodup_iff.mp h.nodup)
  have hremove : Between (q.unlink n).next (q.unlink n).prev headNode headNode
      ((xs ++ [n]).erase n) := by
    have hne : n ≠ q.prev n := (h.between.prev_ne h.firsts hmem).symm
    refine h.between.remove hmem h.firsts h.seconds (fun y _ => ?_) fun y _ => ?_
    · simp only [Queue.unlink, Function.update_apply]
    · simp only [Queue.unlink, Function.update_apply, if_neg hne]
  rw [List.erase_append_right _ hn, List.erase_cons_head, List.append_nil] at hremove
  exact ⟨hremove, hnodup, fun hmem => h.head (List.mem_append_left _ hmem)⟩

/-! ## The queue and its threads -/

def Producer.held : Producer → List Nat
  | .locking node => [node]
  | _ => []

def Consumer.held : Consumer → List Nat
  | .holding node => [node]
  | _ => []

/-- The nodes that are allocated and not in the ring. -/
def State.held (s : State) : List Nat :=
  s.producers.flatMap Producer.held ++ s.consumers.flatMap Consumer.held

/-- The ring and the counters. -/
structure Queue.Inv (totalQueueNodes : Nat) (q : Queue) (xs : List Nat) : Prop where
  ring : q.Ring xs
  count : q.queueCtr.count = xs.length
  totalEnqueue : q.queueCtr.totalEnqueue = q.enqueued.length
  total : q.queueCtr.totalEnqueue ≤ totalQueueNodes
  fifo : q.enqueued = q.dequeued ++ xs.reverse.map q.data
  shutdown : q.queueCtr.shutdown = true → q.queueCtr.totalEnqueue = totalQueueNodes ∧ xs = []

structure State.Inv (totalQueueNodes : Nat) (s : State) (xs : List Nat) : Prop where
  queue : s.queue.Inv totalQueueNodes xs
  live : s.queue.live.Perm (xs ++ s.held)
  nodup : s.queue.live.Nodup
  head : headNode ∉ s.queue.live
  left : .left ∈ s.consumers → s.queue.queueCtr.totalEnqueue = totalQueueNodes ∧ xs = []

theorem Queue.Inv.total_eq (h : q.Inv totalQueueNodes xs) :
    q.queueCtr.totalEnqueue = q.dequeued.length + q.queueCtr.count := by
  rw [h.totalEnqueue, h.fifo, h.count]
  simp

theorem inv_newNode (h : q.Inv totalQueueNodes xs) (hn : n ≠ headNode) (hxs : n ∉ xs) (val : Int) :
    (q.newNode n val).Inv totalQueueNodes xs where
  ring := ring_newNode h.ring hn hxs val
  count := h.count
  totalEnqueue := h.totalEnqueue
  total := h.total
  fifo := by
    have hdata : xs.reverse.map (q.newNode n val).data = xs.reverse.map q.data := by
      refine List.map_congr_left fun y hy => Function.update_of_ne ?_ _ _
      rintro rfl
      exact hxs (List.mem_reverse.mp hy)
    rw [hdata]
    exact h.fifo
  shutdown := h.shutdown

/-- `mutex_en_queue` frees the node, or it is the newest one. -/
theorem mutexEnQueue_spec (h : q.Inv totalQueueNodes xs) (hn : n ≠ headNode) (hxs : n ∉ xs) :
    mutexEnQueue totalQueueNodes q n = q.free n ∨
      q.queueCtr.totalEnqueue < totalQueueNodes ∧
        (mutexEnQueue totalQueueNodes q n).Inv totalQueueNodes (n :: xs) ∧
        (mutexEnQueue totalQueueNodes q n).live = q.live := by
  unfold mutexEnQueue
  split
  · exact Or.inl rfl
  · rename_i hlt
    have hlt := Nat.lt_of_not_le hlt
    have hring := ring_link h.ring hn hxs
    refine Or.inr ⟨hlt, ⟨⟨hring.between, hring.nodup, hring.head⟩, ?_, ?_, hlt, ?_, ?_⟩, rfl⟩
    · exact congrArg (· + 1) h.count
    · dsimp only
      rw [List.length_append, h.totalEnqueue, List.length_singleton]
    · dsimp only
      rw [List.reverse_cons, List.map_append, ← List.append_assoc, h.fifo]
      rfl
    · intro hshut
      exact absurd (h.shutdown hshut).1 (Nat.ne_of_lt hlt)

/-- `mutex_de_queue` waits, returns at the end of the stream, or takes the
oldest node. -/
theorem mutexDeQueue_spec (h : q.Inv totalQueueNodes xs) :
    mutexDeQueue totalQueueNodes q = (q, .waits) ∨
      mutexDeQueue totalQueueNodes q = (q, .returns none) ∨
      ∃ n ys, xs = ys ++ [n] ∧ (mutexDeQueue totalQueueNodes q).2 = .returns (some n) ∧
        (mutexDeQueue totalQueueNodes q).1.Inv totalQueueNodes ys ∧
        (mutexDeQueue totalQueueNodes q).1.live = q.live := by
  unfold mutexDeQueue
  split
  · exact Or.inl rfl
  · rcases ring_last h.ring with ⟨hnil, -⟩ | ⟨hne, ys, hys⟩
    · rw [if_pos hnil]
      exact Or.inr (Or.inl rfl)
    · rw [if_neg hne]
      have hring := ring_unlink (hys ▸ h.ring)
      have hcount : q.queueCtr.count - 1 = ys.length := by
        rw [h.count, hys]
        simp
      refine Or.inr (Or.inr ⟨q.prev headNode, ys, hys, rfl, ?_, rfl⟩)
      refine ⟨⟨hring.between, hring.nodup, hring.head⟩, ?_, ?_, ?_, ?_, ?_⟩
      · dsimp only
        split <;> exact hcount
      · dsimp only
        split <;> exact h.totalEnqueue
      · dsimp only
        split <;> exact h.total
      · have hfifo := h.fifo
        rw [hys, List.reverse_append, List.reverse_singleton, List.singleton_append,
          List.map_cons] at hfifo
        show q.enqueued = q.dequeued ++ [q.data (q.prev headNode)] ++ ys.reverse.map q.data
        rw [hfifo, List.append_assoc]
        rfl
      · dsimp only
        split
        · rename_i hend
          exact fun _ => ⟨hend.1, List.length_eq_zero_iff.mp (hcount.symm.trans hend.2)⟩
        · intro hshut
          rw [(h.shutdown hshut).2] at hys
          simp at hys

/-! ## The turns of a producer -/

theorem inv_free (h : q.Inv totalQueueNodes xs) (n : Nat) : (q.free n).Inv totalQueueNodes xs :=
  ⟨⟨h.ring.between, h.ring.nodup, h.ring.head⟩, h.count, h.totalEnqueue, h.total, h.fifo,
    h.shutdown⟩

/-- A turn that leaves the queue alone. -/
theorem inv_setProducer {i : Nat} {p p' : Producer} (h : s.Inv totalQueueNodes xs)
    (hi : s.producers[i]? = some p) (hheld : p'.held = p.held) :
    State.Inv totalQueueNodes { s with producers := s.producers.set i p' } xs := by
  refine ⟨h.queue, h.live.trans (List.Perm.append_left _ (List.Perm.append_right _ ?_)), h.nodup,
    h.head, h.left⟩
  have hperm := Roster.flatMap_set_perm hi p' Producer.held
  rw [hheld] at hperm
  exact (List.perm_append_left_iff _).mp hperm.symm

theorem inv_allocated {i : Nat} (h : s.Inv totalQueueNodes xs)
    (hi : s.producers[i]? = some .allocating) (hn : n ≠ headNode) (hfresh : n ∉ s.queue.live)
    (val : Int) :
    State.Inv totalQueueNodes
      { s with queue := s.queue.newNode n val, producers := s.producers.set i (.locking n) } xs := by
  have hxs : n ∉ xs := fun hmem => hfresh (h.live.mem_iff.mpr (List.mem_append_left _ hmem))
  refine ⟨inv_newNode h.queue hn hxs val, ?_, List.nodup_cons.mpr ⟨hfresh, h.nodup⟩, ?_, h.left⟩
  · refine List.perm_iff_count.mpr fun a => ?_
    have hlive := h.live.count_eq a
    have hset := (Roster.flatMap_set_perm hi (.locking n) Producer.held).count_eq a
    simp only [State.held, Queue.newNode, Producer.held, List.count_append, List.count_cons,
      List.count_nil] at hlive hset ⊢
    omega
  · intro hmem
    rcases List.mem_cons.mp hmem with heq | hmem
    · exact hn heq.symm
    · exact h.head hmem

theorem inv_enqueued {i : Nat} (h : s.Inv totalQueueNodes xs)
    (hi : s.producers[i]? = some (.locking n)) :
    ∃ xs', State.Inv totalQueueNodes { s with
      queue := mutexEnQueue totalQueueNodes s.queue n
      producers := s.producers.set i .testing } xs' := by
  have hmem : n ∈ s.producers.flatMap Producer.held :=
    List.mem_flatMap.mpr ⟨.locking n, List.mem_of_getElem? hi, List.mem_singleton_self n⟩
  have hlive : n ∈ s.queue.live := h.live.mem_iff.mpr
    (List.mem_append_right _ (List.mem_append_left _ hmem))
  have hn : n ≠ headNode := fun heq => h.head (heq ▸ hlive)
  have hxs : n ∉ xs := by
    intro hin
    have hdisj := List.disjoint_of_nodup_append (h.live.nodup_iff.mp h.nodup)
    exact hdisj hin (List.mem_append_left _ hmem)
  have hset := fun a => (Roster.flatMap_set_perm hi .testing Producer.held).count_eq a
  rcases mutexEnQueue_spec h.queue hn hxs with hfree | ⟨hlt, hinv, hsamelive⟩
  · rw [hfree]
    refine ⟨xs, inv_free h.queue n, List.perm_iff_count.mpr fun a => ?_, h.nodup.erase n,
      fun hmem => h.head (List.mem_of_mem_erase hmem), h.left⟩
    have hperm := h.live.count_eq a
    have hset := hset a
    simp only [State.held, Queue.free, Producer.held, List.count_append, List.count_cons,
      List.count_nil, List.count_erase] at hperm hset ⊢
    omega
  · refine ⟨n :: xs, hinv, List.perm_iff_count.mpr fun a => ?_, hsamelive ▸ h.nodup,
      hsamelive ▸ h.head, fun hleft => absurd (h.left hleft).1 (Nat.ne_of_lt hlt)⟩
    have hperm := h.live.count_eq a
    have hset := hset a
    simp only [State.held, hsamelive, Producer.held, List.count_append, List.count_cons,
      List.count_nil, List.cons_append] at hperm hset ⊢
    omega

theorem inv_producer (h : s.Inv totalQueueNodes xs) {i : Nat} {val : Int} {node : Option Nat}
    (hg : s.Granted (.producer i val node)) :
    ∃ xs', (step totalQueueNodes s (.producer i val node)).Inv totalQueueNodes xs' := by
  unfold step
  dsimp only
  cases hi : s.producers[i]? with
  | none => exact ⟨xs, h⟩
  | some p =>
    dsimp only
    cases p with
    | testing =>
      unfold mutexQueueProduceFunc
      dsimp only
      split
      · exact ⟨xs, inv_setProducer h hi rfl⟩
      · exact ⟨xs, inv_setProducer h hi rfl⟩
    | left => exact ⟨xs, inv_setProducer h hi rfl⟩
    | allocating =>
      cases node with
      | none => exact ⟨xs, inv_setProducer h hi rfl⟩
      | some n =>
        obtain ⟨hn, hfresh⟩ := hg n rfl
        exact ⟨xs, inv_allocated h hi hn hfresh val⟩
    | locking n => exact inv_enqueued h hi

/-! ## The turns of a consumer -/

/-- A turn that leaves the queue alone. -/
theorem inv_setConsumer {i : Nat} {c c' : Consumer} (h : s.Inv totalQueueNodes xs)
    (hi : s.consumers[i]? = some c) (hheld : c'.held = c.held)
    (hend : c' = .left → s.queue.queueCtr.totalEnqueue = totalQueueNodes ∧ xs = []) :
    State.Inv totalQueueNodes { s with consumers := s.consumers.set i c' } xs := by
  refine ⟨h.queue, h.live.trans (List.Perm.append_left _ (List.Perm.append_left _ ?_)), h.nodup,
    h.head, fun hleft => ?_⟩
  · have hperm := Roster.flatMap_set_perm hi c' Consumer.held
    rw [hheld] at hperm
    exact (List.perm_append_left_iff _).mp hperm.symm
  · rcases Roster.mem_set hleft with heq | hold
    · exact hend heq.symm
    · exact h.left hold

/-- The loop ends at the end of the stream, or with nothing to be produced. -/
theorem end_of_test (h : q.Inv totalQueueNodes xs)
    (hend : ¬(q.queueCtr.shutdown = false ∧ totalQueueNodes ≠ 0)) :
    q.queueCtr.totalEnqueue = totalQueueNodes ∧ xs = [] := by
  cases hshut : q.queueCtr.shutdown with
  | true => exact h.shutdown hshut
  | false =>
    have hzero : totalQueueNodes = 0 := by
      by_contra hne
      exact hend ⟨hshut, hne⟩
    have htotal := h.total
    have hlen := h.total_eq
    have hcount := h.count
    exact ⟨by omega, List.length_eq_zero_iff.mp (by omega)⟩

theorem inv_dequeued {i : Nat} {ys : List Nat} (h : s.Inv totalQueueNodes xs)
    (hi : s.consumers[i]? = some .locking) (hxs : xs = ys ++ [n])
    (hinv : q.Inv totalQueueNodes ys) (hlive : q.live = s.queue.live) :
    State.Inv totalQueueNodes
      { s with queue := q, consumers := s.consumers.set i (.holding n) } ys := by
  refine ⟨hinv, List.perm_iff_count.mpr fun a => ?_, hlive ▸ h.nodup, hlive ▸ h.head,
    fun hleft => ?_⟩
  · have hperm := h.live.count_eq a
    have hset := (Roster.flatMap_set_perm hi (.holding n) Consumer.held).count_eq a
    simp only [State.held, hlive, hxs, Consumer.held, List.count_append, List.count_cons,
      List.count_nil] at hperm hset ⊢
    omega
  · rcases Roster.mem_set hleft with heq | hold
    · cases heq
    · have hnil := (h.left hold).2
      rw [hxs] at hnil
      simp at hnil

theorem inv_freed {i : Nat} (h : s.Inv totalQueueNodes xs)
    (hi : s.consumers[i]? = some (.holding n)) :
    State.Inv totalQueueNodes
      { s with queue := s.queue.free n, consumers := s.consumers.set i .testing } xs := by
  refine ⟨inv_free h.queue n, List.perm_iff_count.mpr fun a => ?_, h.nodup.erase n,
    fun hmem => h.head (List.mem_of_mem_erase hmem), fun hleft => ?_⟩
  · have hperm := h.live.count_eq a
    have hset := (Roster.flatMap_set_perm hi .testing Consumer.held).count_eq a
    simp only [State.held, Queue.free, Consumer.held, List.count_append, List.count_cons,
      List.count_nil, List.count_erase] at hperm hset ⊢
    omega
  · rcases Roster.mem_set hleft with heq | hold
    · cases heq
    · exact h.left hold

theorem inv_consumer (h : s.Inv totalQueueNodes xs) (i : Nat) :
    ∃ xs', (step totalQueueNodes s (.consumer i)).Inv totalQueueNodes xs' := by
  unfold step
  dsimp only
  cases hi : s.consumers[i]? with
  | none => exact ⟨xs, h⟩
  | some c =>
    dsimp only
    cases c with
    | testing =>
      unfold mutexQueueConsumeFunc
      dsimp only
      split
      · exact ⟨xs, inv_setConsumer h hi rfl nofun⟩
      · rename_i hend
        exact ⟨xs, inv_setConsumer h hi rfl fun _ => end_of_test h.queue hend⟩
    | left =>
      exact ⟨xs, inv_setConsumer h hi rfl fun _ => h.left (List.mem_of_getElem? hi)⟩
    | locking =>
      unfold mutexQueueConsumeFunc
      dsimp only
      rcases mutexDeQueue_spec h.queue with heq | heq | ⟨n, ys, hxs, hnode, hinv, hlive⟩
      · rw [heq]
        exact ⟨xs, inv_setConsumer h hi rfl nofun⟩
      · rw [heq]
        exact ⟨xs, inv_setConsumer h hi rfl nofun⟩
      · generalize mutexDeQueue totalQueueNodes s.queue = r at hnode hinv hlive ⊢
        obtain ⟨q, result⟩ := r
        cases hnode
        exact ⟨ys, inv_dequeued h hi hxs hinv hlive⟩
    | holding n => exact ⟨xs, inv_freed h hi⟩

/-! ## The queue in every state -/

theorem inv_init (produceThreads consumeThreads : Nat) (next prev : Nat → Nat) (data : Nat → Int) :
    (State.init produceThreads consumeThreads next prev data).Inv totalQueueNodes [] where
  queue := ⟨ring_init next prev data, rfl, rfl, Nat.zero_le _, rfl, nofun⟩
  live := by
    have hp : ∀ n, (List.replicate n Producer.testing).flatMap Producer.held = [] := fun n =>
      List.flatMap_eq_nil_iff.mpr fun p hp => List.eq_of_mem_replicate hp ▸ rfl
    have hc : ∀ n, (List.replicate n Consumer.testing).flatMap Consumer.held = [] := fun n =>
      List.flatMap_eq_nil_iff.mpr fun c hc => List.eq_of_mem_replicate hc ▸ rfl
    simp only [State.init, State.held, hp, hc]
    exact List.Perm.refl _
  nodup := List.nodup_nil
  head := List.not_mem_nil
  left := fun hleft => nomatch List.eq_of_mem_replicate hleft

/-- The ring and the counters say what has been put in and taken out, and
whoever has left has left at the end. -/
structure State.Sound (totalQueueNodes : Nat) (s : State) : Prop where
  ring : ∃ xs, s.queue.Ring xs ∧ s.queue.queueCtr.count = xs.length ∧
    s.queue.enqueued = s.queue.dequeued ++ xs.reverse.map s.queue.data
  totalEnqueue : s.queue.queueCtr.totalEnqueue = s.queue.enqueued.length ∧
    s.queue.queueCtr.totalEnqueue = s.queue.queueCtr.count + s.queue.dequeued.length
  total : s.queue.queueCtr.totalEnqueue ≤ totalQueueNodes
  shutdown : s.queue.queueCtr.shutdown = true →
    s.queue.enqueued.length = totalQueueNodes ∧ s.queue.dequeued.length = totalQueueNodes
  left : .left ∈ s.consumers →
    s.queue.enqueued.length = totalQueueNodes ∧ s.queue.dequeued.length = totalQueueNodes

theorem sound_of_inv (h : s.Inv totalQueueNodes xs) : s.Sound totalQueueNodes := by
  have htotal := h.queue.total_eq
  have hcount := h.queue.count
  have henq := h.queue.totalEnqueue
  -- the end of the stream
  have hend : s.queue.queueCtr.totalEnqueue = totalQueueNodes ∧ xs = [] →
      s.queue.enqueued.length = totalQueueNodes ∧ s.queue.dequeued.length = totalQueueNodes := by
    rintro ⟨hall, rfl⟩
    rw [List.length_nil] at hcount
    omega
  exact ⟨⟨xs, h.queue.ring, hcount, h.queue.fifo⟩, ⟨henq, by omega⟩, h.queue.total,
    fun hshut => hend (h.queue.shutdown hshut), fun hleft => hend (h.left hleft)⟩

/-- In every state of every run, with any number of producers and consumers
and of nodes, the ring, the counters and the values taken out agree, and
whoever has seen the end has seen it behind the last node. -/
theorem stream_sound (produceThreads consumeThreads : Nat) (next prev : Nat → Nat) (data : Nat → Int)
    {events : List Event}
    (hcalloc : Along (step totalQueueNodes) State.Granted
      (State.init produceThreads consumeThreads next prev data) events) :
    (run (step totalQueueNodes) (State.init produceThreads consumeThreads next prev data)
      events).Sound totalQueueNodes := by
  have hinv : ∃ xs, (run (step totalQueueNodes)
      (State.init produceThreads consumeThreads next prev data) events).Inv totalQueueNodes xs := by
    refine run_invariant (I := fun s => ∃ xs, s.Inv totalQueueNodes xs) ?_ hcalloc
      ⟨[], inv_init produceThreads consumeThreads next prev data⟩
    rintro s e ⟨xs, h⟩ hg
    cases e with
    | producer i val node => exact inv_producer h hg
    | consumer i => exact inv_consumer h i
  obtain ⟨xs, h⟩ := hinv
  exact sound_of_inv h

instance (s : State) (e : Event) : Decidable (s.Granted e) := by
  cases e <;> dsimp only [State.Granted] <;> infer_instance

/-- A producer and two consumers with a total of one: the consumer that
waits leaves after the other has taken the item. -/
theorem stream_sound_oneItem :
    (run (step 1) (State.init 1 2 id id fun _ => 0)
      [.consumer 1, .consumer 1, .producer 0 5 none, .producer 0 5 (some 7), .producer 0 5 none,
        .consumer 0, .consumer 0, .consumer 0, .consumer 1, .consumer 1, .consumer 0,
        .producer 0 5 none]).Sound 1 :=
  stream_sound 1 2 id id (fun _ => 0) (by decide)

end Training.MutexQueue
