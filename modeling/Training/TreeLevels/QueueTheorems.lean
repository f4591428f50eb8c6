/-
Training.TreeLevels.QueueTheorems — the queue of tree nodes is a list.

`Stored q as ts`: the queue nodes are at the addresses `as`, the list
linked from `front` on, and hold `ts`. What is enqueued goes behind the
last of them, what is dequeued comes from the first.
-/
import Training.Lib.Links
import Training.TreeLevels.Traversal

namespace Training.TreeLevels

open Training.Lib Training.Lib.Links

variable {q q' : Queue} {as : List Nat} {ts : List (BinaryTree Int)} {t : BinaryTree Int}
  {a fuel : Nat}

def nextOf (nodes : Nat → Option QueueNode) (a : Nat) : Nat := ((nodes a).map QueueNode.next).getD 0

def treeAt (nodes : Nat → Option QueueNode) (a : Nat) : Option (BinaryTree Int) :=
  (nodes a).map QueueNode.treeNode

structure Stored (q : Queue) (as : List Nat) (ts : List (BinaryTree Int)) : Prop where
  linked : Linked (nextOf q.nodes) q.front as
  trees : as.map (treeAt q.nodes) = ts.map some
  nodup : as.Nodup
  rear : q.rear = as.getLastD 0
  fresh : ∀ a ∈ as, a < q.fresh
  pos : 0 < q.fresh

theorem Stored.length_eq (h : Stored q as ts) : as.length = ts.length := by
  simpa using congrArg List.length h.trees

theorem Stored.isSome (h : Stored q as ts) (ha : a ∈ as) : (q.nodes a).isSome := by
  have htree : treeAt q.nodes a ∈ ts.map some := h.trees ▸ List.mem_map_of_mem ha
  obtain ⟨t, -, ht⟩ := List.mem_map.mp htree
  obtain ⟨node, hnode, -⟩ := Option.map_eq_some_iff.mp ht.symm
  simp [hnode]

theorem stored_createQueue : Stored createQueue [] [] where
  linked := rfl
  trees := rfl
  nodup := List.nodup_nil
  rear := rfl
  fresh := by simp
  pos := Nat.one_pos

theorem isQueueEmpty_iff (h : Stored q as ts) : isQueueEmpty q = true ↔ ts = [] := by
  rw [← List.length_eq_zero_iff, ← h.length_eq, List.length_eq_zero_iff]
  cases as with
  | nil =>
    have hfront : q.front = 0 := h.linked
    simp [isQueueEmpty, hfront]
  | cons a as =>
    have hfront := h.linked.1
    have hne := h.linked.2.1
    simp [isQueueEmpty, hfront, hne]

theorem dequeue_spec (h : Stored q (a :: as) (t :: ts)) :
    ∃ q', dequeue q = some (t, q') ∧ Stored q' as ts := by
  obtain ⟨hfront, hne, hrest⟩ := h.linked
  have htrees := h.trees
  simp only [List.map_cons, List.cons.injEq] at htrees
  obtain ⟨node, hnode, rfl⟩ := Option.map_eq_some_iff.mp htrees.1
  have hnext : nextOf q.nodes a = node.next := by simp [nextOf, hnode]
  obtain ⟨hfresh, hnodup⟩ := List.nodup_cons.mp h.nodup
  have hother : ∀ b ∈ as, Function.update q.nodes a none b = q.nodes b := by
    intro b hb
    exact Function.update_of_ne (ne_of_mem_of_not_mem hb hfresh) _ _
  rw [dequeue, if_neg (by rw [hfront]; exact hne), hfront, hnode]
  refine ⟨_, rfl, ?_, ?_, hnodup, ?_, ?_, h.pos⟩
  · rw [← hnext]
    exact hrest.congr fun b hb => by simp [nextOf, hother b hb]
  · rw [← htrees.2]
    exact List.map_congr_left fun b hb => by simp [treeAt, hother b hb]
  · dsimp only
    rw [hnext] at hrest
    cases as with
    | nil =>
      have hend : node.next = 0 := hrest
      simp [hend]
    | cons b bs =>
      have hb := hrest.1
      have hb0 := hrest.2.1
      have hlast : q.rear = (b :: bs).getLastD 0 := by simpa using h.rear
      rw [if_neg (by rw [hb]; exact hb0), hlast]
  · intro b hb
    exact h.fresh b (List.mem_cons_of_mem a hb)

/-- What is stored behind a last node. -/
theorem enqueue_behind {node : QueueNode} (hrear : q.rear ≠ 0) (hfresh : q.rear ≠ q.fresh)
    (hnode : q.nodes q.rear = some node) (t : BinaryTree Int) :
    ∃ nodes, enqueue q t = some { nodes, fresh := q.fresh + 1, front := q.front, rear := q.fresh } ∧
      nodes q.rear = some { node with next := q.fresh } ∧
      nodes q.fresh = some { treeNode := t, next := 0 } ∧
      ∀ b, b ≠ q.rear → b ≠ q.fresh → nodes b = q.nodes b := by
  have hread : Function.update q.nodes q.fresh (some { treeNode := t, next := 0 }) q.rear =
      some node := by rw [Function.update_of_ne hfresh, hnode]
  rw [enqueue, if_neg hrear, hread]
  refine ⟨_, rfl, Function.update_self .., ?_, fun b hb hb' => ?_⟩
  · rw [Function.update_of_ne hfresh.symm, Function.update_self]
  · rw [Function.update_of_ne hb, Function.update_of_ne hb']

theorem enqueue_spec (h : Stored q as ts) (t : BinaryTree Int) :
    ∃ q', enqueue q t = some q' ∧ Stored q' (as ++ [q.fresh]) (ts ++ [t]) := by
  have hpos := h.pos
  have hnew : ∀ b ∈ as, b ≠ q.fresh := fun b hb => (h.fresh b hb).ne
  have hnodup : (as ++ [q.fresh]).Nodup := by
    rw [List.nodup_append]
    exact ⟨h.nodup, List.nodup_singleton _, by simpa using hnew⟩
  have hbelow : ∀ b ∈ as ++ [q.fresh], b < q.fresh + 1 := by
    intro b hb
    rcases List.mem_append.mp hb with hb | hb
    · exact Nat.lt_succ_of_lt (h.fresh b hb)
    · rw [List.mem_singleton.mp hb]
      exact Nat.lt_succ_self _
  cases as with
  | nil =>
    obtain rfl : ts = [] := by simpa using h.length_eq.symm
    have hrear : q.rear = 0 := h.rear
    rw [enqueue, if_pos hrear]
    refine ⟨_, rfl, ?_, ?_, hnodup, rfl, hbelow, Nat.succ_pos _⟩
    · exact ⟨rfl, hpos.ne', by simp [nextOf]⟩
    · simp [treeAt]
  | cons a as =>
    have hlast : (a :: as).getLast (List.cons_ne_nil a as) = q.rear := by
      rw [h.rear, List.getLastD_cons, List.getLast_eq_getLastD]
    have hmem : q.rear ∈ a :: as := hlast ▸ List.getLast_mem _
    obtain ⟨node, hnode⟩ := Option.isSome_iff_exists.mp (h.isSome hmem)
    obtain ⟨nodes, henqueue, hatrear, hatfresh, hother⟩ :=
      enqueue_behind (h.linked.ne_zero hmem) (hnew _ hmem) hnode t
    refine ⟨_, henqueue, ?_, ?_, hnodup, (List.getLastD_concat ..).symm, hbelow, Nat.succ_pos _⟩
    · refine h.linked.concat h.nodup hpos.ne' ?_ ?_ fun b hb hne => ?_
      · simp [hlast, nextOf, hatrear]
      · simp [nextOf, hatfresh]
      · rw [hlast] at hne
        simp [nextOf, hother b hne (hnew b hb)]
    · have hsame : ∀ b ∈ a :: as, treeAt nodes b = treeAt q.nodes b := by
        intro b hb
        by_cases hbr : b = q.rear
        · simp [treeAt, hbr, hatrear, hnode]
        · simp [treeAt, hother b hbr (hnew b hb)]
      rw [List.map_append, List.map_append, ← h.trees, List.map_congr_left hsame]
      simp [treeAt, hatfresh]

/-- The loop over the nodes counts them. -/
theorem countNodes_eq {p : Nat} (hlinked : Linked (nextOf q.nodes) p as)
    (hnodes : ∀ a ∈ as, (q.nodes a).isSome) (hfuel : as.length < fuel) :
    countNodes q fuel p = some as.length := by
  induction fuel generalizing p as with
  | zero => exact absurd hfuel (Nat.not_lt_zero _)
  | succ fuel ih =>
    cases as with
    | nil => exact if_pos hlinked
    | cons a as =>
      obtain ⟨rfl, hne, hrest⟩ := hlinked
      obtain ⟨node, hnode⟩ := Option.isSome_iff_exists.mp (hnodes p List.mem_cons_self)
      have hnext : nextOf q.nodes p = node.next := by simp [nextOf, hnode]
      have hcount := ih (hnext ▸ hrest) (fun b hb => hnodes b (List.mem_cons_of_mem p hb))
        (by simpa using hfuel)
      simp [countNodes, hne, hnode, hcount]

/-! ## The queue without its addresses -/

def Holds (q : Queue) (ts : List (BinaryTree Int)) : Prop := ∃ as, Stored q as ts

theorem Holds.isEmpty_iff (h : Holds q ts) : isQueueEmpty q = true ↔ ts = [] := by
  obtain ⟨as, has⟩ := h
  exact isQueueEmpty_iff has

theorem Holds.dequeue (h : Holds q (t :: ts)) : ∃ q', dequeue q = some (t, q') ∧ Holds q' ts := by
  obtain ⟨as, has⟩ := h
  cases as with
  | nil => exact absurd has.length_eq (by simp)
  | cons a as =>
    obtain ⟨q', hdeq, hq'⟩ := dequeue_spec has
    exact ⟨q', hdeq, as, hq'⟩

theorem Holds.enqueue (h : Holds q ts) (t : BinaryTree Int) :
    ∃ q', enqueue q t = some q' ∧ Holds q' (ts ++ [t]) := by
  obtain ⟨as, has⟩ := h
  obtain ⟨q', henq, hq'⟩ := enqueue_spec has t
  exact ⟨q', henq, _, hq'⟩

theorem Holds.count (h : Holds q ts) (hfuel : ts.length < fuel) :
    countNodes q fuel q.front = some ts.length := by
  obtain ⟨as, has⟩ := h
  rw [← has.length_eq]
  refine countNodes_eq has.linked ?_ (by rwa [has.length_eq])
  intro a ha
  exact has.isSome ha

end Training.TreeLevels
