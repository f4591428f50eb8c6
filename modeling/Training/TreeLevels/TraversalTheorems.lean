/-
Training.TreeLevels.TraversalTheorems — both traversals print the page.

`row root k` are the nodes of a level. While the queue goes through one
row the next one grows behind it (`visit_spec`), and after a turn of the
outer loop that is all it holds (`visitLevel_spec`). The values of a row
are the level (`values_row`), and the row below the last level is empty.
The other traversal goes down to one level at a time (`printGivenLevel_eq`).
-/
import Mathlib.Algebra.Order.BigOperators.Group.List
import Mathlib.Algebra.Ring.Nat
import Training.TreeLevels.QueueTheorems

namespace Training.TreeLevels

open Training.Lib Training.Lib.Trees

variable {root t l r : BinaryTree Int} {ts : List (BinaryTree Int)} {q : Queue} {out : String}
  {v : Int} {k fuel : Nat}

/-! ## Rows -/

/-- A tree, if there is one. -/
def ifNode (t : BinaryTree Int) : List (BinaryTree Int) := if t ≠ .nil then [t] else []

def children : BinaryTree Int → List (BinaryTree Int)
  | .nil => []
  | .node _ l r => ifNode l ++ ifNode r

def row (root : BinaryTree Int) : Nat → List (BinaryTree Int)
  | 0 => ifNode root
  | k + 1 => (row root k).flatMap children

@[simp] theorem ifNode_nil : ifNode .nil = [] := rfl

@[simp] theorem ifNode_node (v : Int) (l r : BinaryTree Int) :
    ifNode (.node v l r) = [.node v l r] := rfl

theorem flatMap_ifNode {β : Type} (f : BinaryTree Int → List β) (hf : f .nil = [])
    (t : BinaryTree Int) : (ifNode t).flatMap f = f t := by
  cases t with
  | nil => simp [hf]
  | node v l r => simp

theorem ne_nil_of_mem_row (h : t ∈ row root k) : t ≠ .nil := by
  have hif : ∀ s : BinaryTree Int, t ∈ ifNode s → t ≠ .nil := by
    intro s hs
    unfold ifNode at hs
    split at hs
    · obtain rfl := List.mem_singleton.mp hs
      assumption
    · simp at hs
  cases k with
  | zero => exact hif root h
  | succ k =>
    obtain ⟨s, -, hs⟩ := List.mem_flatMap.mp h
    cases s with
    | nil => simp [children] at hs
    | node v l r =>
      rcases List.mem_append.mp hs with hl | hr
      · exact hif l hl
      · exact hif r hr

theorem children_level (t : BinaryTree Int) (k : Nat) :
    (children t).flatMap (level · k) = level t (k + 1) := by
  cases t with
  | nil => simp [children]
  | node v l r =>
    rw [children, List.flatMap_append, flatMap_ifNode _ (level_nil k),
      flatMap_ifNode _ (level_nil k), level_succ]

theorem row_level (root : BinaryTree Int) (k j : Nat) :
    (row root k).flatMap (level · j) = level root (k + j) := by
  induction k generalizing j with
  | zero => simp [row, flatMap_ifNode (level · j) (level_nil j)]
  | succ k ih =>
    rw [row, List.flatMap_assoc]
    simp only [children_level, ih]
    congr 1
    omega

/-- The value at the root. -/
def rootValue : BinaryTree Int → Int
  | .nil => 0
  | .node v _ _ => v

theorem values_row (root : BinaryTree Int) (k : Nat) : (row root k).map rootValue = level root k := by
  rw [← Nat.add_zero k, ← row_level, Nat.add_zero, List.map_eq_flatMap]
  refine List.flatMap_congr fun t ht => ?_
  cases t with
  | nil => exact absurd rfl (ne_nil_of_mem_row ht)
  | node v l r => simp [rootValue]

theorem row_eq_nil : row root k = [] ↔ root.height ≤ k := by
  constructor
  · intro hrow
    by_contra hlt
    have hlevel := values_row root k
    rw [hrow] at hlevel
    exact level_ne_nil (Nat.lt_of_not_le hlt) hlevel.symm
  · intro hle
    have hlevel := values_row root k
    rw [level_eq_nil hle] at hlevel
    simpa using hlevel

/-- A row has no more nodes than the tree. -/
theorem sum_row_le (root : BinaryTree Int) (k : Nat) :
    ((row root k).map BinaryTree.numNodes).sum ≤ root.numNodes := by
  have hif : ∀ t : BinaryTree Int, ((ifNode t).map BinaryTree.numNodes).sum = t.numNodes := by
    intro t
    cases t <;> simp
  have hchildren : ∀ t : BinaryTree Int,
      ((children t).map BinaryTree.numNodes).sum ≤ t.numNodes := by
    intro t
    cases t with
    | nil => simp [children]
    | node v l r => simp [children, hif]
  have hstep : ∀ ts : List (BinaryTree Int), ((ts.flatMap children).map BinaryTree.numNodes).sum ≤
      (ts.map BinaryTree.numNodes).sum := by
    intro ts
    induction ts with
    | nil => simp
    | cons t ts ih =>
      have ht := hchildren t
      simp only [List.flatMap_cons, List.map_append, List.sum_append, List.map_cons, List.sum_cons]
      omega
  induction k with
  | zero => exact (hif root).le
  | succ k ih => exact (hstep (row root k)).trans ih

theorem length_row_le (root : BinaryTree Int) (k : Nat) : (row root k).length ≤ root.numNodes := by
  have hlen : ∀ ts : List (BinaryTree Int), (∀ t ∈ ts, t ≠ .nil) →
      ts.length ≤ (ts.map BinaryTree.numNodes).sum := by
    intro ts
    induction ts with
    | nil => simp
    | cons t ts ih =>
      intro hne
      have hrest := ih fun s hs => hne s (List.mem_cons_of_mem t hs)
      cases t with
      | nil => exact absurd rfl (hne .nil List.mem_cons_self)
      | node v l r =>
        simp only [List.length_cons, List.map_cons, List.sum_cons, BinaryTree.numNodes]
        omega
  exact (hlen _ fun t ht => ne_nil_of_mem_row ht).trans (sum_row_le root k)

/-! ## The queue -/

theorem enqueueChild_spec (h : Holds q ts) (t : BinaryTree Int) :
    ∃ q', enqueueChild q t = some q' ∧ Holds q' (ts ++ ifNode t) := by
  unfold enqueueChild ifNode
  split
  · exact h.enqueue t
  · exact ⟨q, rfl, by simpa using h⟩

theorem visit_spec (h : Holds q (t :: ts)) (ht : t ≠ .nil) (out : String) :
    ∃ q', visit { queue := q, out } = some { queue := q', out := put out (rootValue t) } ∧
      Holds q' (ts ++ children t) := by
  obtain ⟨q₁, hdeq, h₁⟩ := h.dequeue
  cases t with
  | nil => exact absurd rfl ht
  | node v l r =>
    obtain ⟨q₂, hleft, h₂⟩ := enqueueChild_spec h₁ l
    obtain ⟨q₃, hright, h₃⟩ := enqueueChild_spec h₂ r
    refine ⟨q₃, by simp [visit, hdeq, hleft, hright, rootValue], ?_⟩
    rwa [children, ← List.append_assoc]

/-- The queue after `i` nodes of a row: the others, and the children of these. -/
def Visited (ts : List (BinaryTree Int)) (out : String) (i : Nat) (s : Walk) : Prop :=
  Holds s.queue (ts.drop i ++ (ts.take i).flatMap children) ∧
    s.out = ((ts.take i).map rootValue).foldl put out

theorem visitLevel_spec (h : Holds q ts) (hne : ∀ t ∈ ts, t ≠ .nil) (hfuel : ts.length < fuel)
    (out : String) :
    ∃ q', visitLevel fuel { queue := q, out } =
      some { queue := q', out := printLine out (ts.map rootValue) } ∧
      Holds q' (ts.flatMap children) := by
  have hturn : ∀ i s, 0 ≤ i → i < 0 + ts.length → Visited ts out i s →
      ∃ s', visit s = some s' ∧ Visited ts out (i + 1) s' := by
    intro i s _ hi hs
    have hi' : i < ts.length := by omega
    obtain ⟨hholds, hout⟩ := hs
    rw [List.drop_eq_getElem_cons hi', List.cons_append] at hholds
    obtain ⟨q', hvisit, hq'⟩ := visit_spec hholds (hne _ (List.getElem_mem hi')) s.out
    refine ⟨_, hvisit, ?_, ?_⟩
    · rw [List.take_succ_eq_append_getElem hi', List.flatMap_append, ← List.append_assoc]
      simpa using hq'
    · rw [List.take_succ_eq_append_getElem hi', List.map_append, List.foldl_append, ← hout]
      rfl
  have hstart : Visited ts out 0 { queue := q, out } := ⟨by simpa using h, rfl⟩
  obtain ⟨⟨q', out'⟩, hrun, hholds, rfl⟩ := forLoop_spec hturn hstart
  refine ⟨q', ?_, by simpa using hholds⟩
  simp [visitLevel, h.count hfuel, hrun, printLine]

/-- The first `k` lines. -/
def lines (root : BinaryTree Int) (k : Nat) : String :=
  ((List.range k).map (level root)).foldl printLine ""

@[simp] theorem lines_succ (root : BinaryTree Int) (k : Nat) :
    lines root (k + 1) = printLine (lines root k) (level root k) := by
  simp [lines, List.range_succ]

theorem page_eq_lines (root : BinaryTree Int) : page root = lines root root.height := rfl

/-- Before a turn of the outer loop the queue holds a row, and the lines
above it are printed: `n` rows are left. -/
def RowsLeft (root : BinaryTree Int) (n : Nat) (s : Walk) : Prop :=
  ∃ k, k + n = root.height ∧ Holds s.queue (row root k) ∧ s.out = lines root k

theorem visitLevel_turn (hfuel : root.numNodes < fuel) {n : Nat} {s : Walk}
    (h : RowsLeft root n s) : some (!isQueueEmpty s.queue) = some false ∨
      some (!isQueueEmpty s.queue) = some true ∧
        ∃ s' m, visitLevel fuel s = some s' ∧ RowsLeft root m s' ∧ m < n := by
  obtain ⟨k, hk, hholds, hout⟩ := h
  by_cases hrow : row root k = []
  · exact .inl (by simp [hholds.isEmpty_iff.mpr hrow])
  · have hlt : k < root.height := Nat.lt_of_not_le (mt row_eq_nil.mpr hrow)
    have hlen := length_row_le root k
    obtain ⟨q', hvisit, hq'⟩ := visitLevel_spec hholds (fun t ht => ne_nil_of_mem_row ht)
      (show (row root k).length < fuel by omega) s.out
    refine .inr ⟨by simpa using mt hholds.isEmpty_iff.mp hrow, _, n - 1, hvisit,
      ⟨k + 1, by omega, hq', ?_⟩, by omega⟩
    rw [lines_succ, ← hout, values_row]

theorem levelOrderTraversal_eq (hfuel : root.numNodes < fuel) :
    levelOrderTraversal fuel root = some (page root) := by
  unfold levelOrderTraversal
  by_cases hnil : root = .nil
  · subst hnil
    rfl
  · rw [if_neg hnil]
    obtain ⟨q, henq, hq⟩ := (show Holds createQueue [] from ⟨[], stored_createQueue⟩).enqueue root
    have hstart : RowsLeft root root.height { queue := q, out := "" } :=
      ⟨0, Nat.zero_add _, by simpa [row, ifNode, hnil] using hq, rfl⟩
    have hheight := BinaryTree.height_le_numNodes root
    have hless : root.height < fuel := by omega
    obtain ⟨s, n, hloop, ⟨k, hk, hholds, hout⟩, hend⟩ :=
      loop_spec_rank (fun n s hs => visitLevel_turn hfuel hs) hstart hless
    have hempty : isQueueEmpty s.queue = true := by simpa using hend
    have hle := row_eq_nil.mp (hholds.isEmpty_iff.mp hempty)
    obtain rfl : k = root.height := by omega
    simp [henq, hloop, hout, page_eq_lines]

/-! ## The recursive traversal -/

@[simp] theorem getHeight_eq (t : BinaryTree Int) : getHeight t = t.height := by
  induction t with
  | nil => rfl
  | node v l r ihl ihr =>
    simp only [getHeight, ihl, ihr, BinaryTree.height]
    split <;> omega

theorem printGivenLevel_eq (t : BinaryTree Int) (k : Nat) (out : String) :
    printGivenLevel t (k + 1) out = (level t k).foldl put out := by
  induction t generalizing k out with
  | nil => simp [printGivenLevel]
  | node v l r ihl ihr =>
    cases k with
    | zero => simp [printGivenLevel]
    | succ k =>
      have hnot : ¬((k + 1 : Nat) : Int) + 1 = 1 := by omega
      have hdown : ((k + 1 : Nat) : Int) + 1 - 1 = (k : Int) + 1 := by omega
      rw [printGivenLevel, if_neg hnot, if_pos (by omega), hdown, ihl, ihr, level_succ,
        List.foldl_append]

theorem levelOrderRecursive_eq (root : BinaryTree Int) :
    levelOrderRecursive root = some (page root) := by
  have hturn : ∀ i out, 1 ≤ i → i < 1 + root.height → out = lines root (i - 1) →
      ∃ out', some (printGivenLevel root i out ++ "\n") = some out' ∧
        out' = lines root (i + 1 - 1) := by
    intro i out hi _ hout
    obtain ⟨k, rfl⟩ : ∃ k, i = k + 1 := ⟨i - 1, by omega⟩
    refine ⟨_, rfl, ?_⟩
    simp only [Nat.add_sub_cancel] at hout ⊢
    rw [lines_succ, ← hout, printLine]
    push_cast
    rw [printGivenLevel_eq]
  have hstart : "" = lines root (1 - 1) := rfl
  obtain ⟨out, hrun, hout⟩ :=
    forLoop_spec (I := fun i out => out = lines root (i - 1)) hturn hstart
  rw [levelOrderRecursive, getHeight_eq, Int.toNat_natCast, hrun, hout, Nat.add_sub_cancel_left,
    page_eq_lines]

/-- Both traversals end and print the levels of the tree, a line for each. -/
theorem traversals_agree (root : BinaryTree Int) : ∃ turns, ∀ fuel, turns ≤ fuel →
    levelOrderTraversal fuel root = some (page root) ∧ levelOrderRecursive root = some (page root) :=
  ⟨root.numNodes + 1, fun _ hfuel =>
    ⟨levelOrderTraversal_eq (Nat.lt_of_succ_le hfuel), levelOrderRecursive_eq root⟩⟩

end Training.TreeLevels
