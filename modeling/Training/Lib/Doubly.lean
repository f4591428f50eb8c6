/-
Training.Lib.Doubly — doubly linked lists.

`next` and `prev` say where the links of a node lead. `Between next prev
a b xs` is the list of the nodes `xs` between the nodes `a` and `b`, which
are the sentinels of the list and may be one node, the head of a ring. A
node is taken out by an edit of two links (`Between.remove`) and put
behind `a` by one of four (`Between.insert`), and an edit of the links of
other nodes leaves the list alone (`Between.congr`).

The nodes are linked from `a` to `b` (`between_iff_linked`), and to remove
one is to cut a range of one node.
-/
import Training.Lib.Splices

namespace Training.Lib.Doubly

open Training.Lib.Splices

universe u

variable {ν : Type u} {next prev next' prev' : ν → ν} {a b x : ν} {xs : List ν}

def Between (next prev : ν → ν) : ν → ν → List ν → Prop
  | a, b, [] => next a = b ∧ prev b = a
  | a, b, x :: xs => next a = x ∧ prev x = a ∧ Between next prev x b xs

@[simp] theorem between_nil : Between next prev a b [] ↔ next a = b ∧ prev b = a := Iff.rfl

@[simp] theorem between_cons :
    Between next prev a b (x :: xs) ↔ next a = x ∧ prev x = a ∧ Between next prev x b xs := Iff.rfl

theorem between_iff_linked :
    Between next prev a b xs ↔ Linked next prev (a :: xs ++ [b]) := by
  induction xs generalizing a with
  | nil => exact ⟨fun h => linked_cons_cons.mpr ⟨h, linked_singleton b⟩,
      fun h => (linked_cons_cons.mp h).1⟩
  | cons x xs ih =>
    rw [between_cons, ih, ← and_assoc]
    exact linked_cons_cons.symm

/-! ## Neighbours -/

theorem Between.next_left (h : Between next prev a b xs) : next a = (xs ++ [b]).head (by simp) := by
  cases xs with
  | nil => exact h.1
  | cons x xs => exact h.1

theorem Between.prev_right (h : Between next prev a b xs) :
    prev b = (a :: xs).getLast (List.cons_ne_nil _ _) := by
  induction xs generalizing a with
  | nil => exact h.2
  | cons x xs ih => rw [ih h.2.2, List.getLast_cons_cons]

theorem Between.next_mem (h : Between next prev a b xs) (hx : x ∈ a :: xs) : next x ∈ xs ++ [b] := by
  induction xs generalizing a with
  | nil =>
    rw [List.mem_singleton.mp hx, h.1]
    exact List.mem_singleton_self b
  | cons y ys ih =>
    rcases List.mem_cons.mp hx with rfl | hx
    · rw [h.1]
      exact List.mem_cons_self
    · exact List.mem_cons_of_mem _ (ih h.2.2 hx)

theorem Between.prev_mem (h : Between next prev a b xs) (hx : x ∈ xs ++ [b]) : prev x ∈ a :: xs := by
  induction xs generalizing a with
  | nil =>
    rw [List.mem_singleton.mp hx, h.2]
    exact List.mem_cons_self
  | cons y ys ih =>
    rcases List.mem_cons.mp hx with rfl | hx
    · rw [h.2.1]
      exact List.mem_cons_self
    · exact List.mem_cons_of_mem _ (ih h.2.2 hx)

theorem Between.prev_ne (h : Between next prev a b xs) (hfirst : (a :: xs).Nodup) (hx : x ∈ xs) :
    prev x ≠ x := by
  induction xs generalizing a with
  | nil => cases hx
  | cons y ys ih =>
    obtain ⟨ha, hys⟩ := List.nodup_cons.mp hfirst
    rcases List.mem_cons.mp hx with rfl | hx
    · rw [h.2.1]
      rintro rfl
      exact ha List.mem_cons_self
    · exact ih h.2.2 hys hx

theorem Between.next_ne (h : Between next prev a b xs) (hsecond : (xs ++ [b]).Nodup)
    (hx : x ∈ xs) : next x ≠ x := by
  induction xs generalizing a with
  | nil => cases hx
  | cons y ys ih =>
    obtain ⟨hy, hys⟩ := List.nodup_cons.mp hsecond
    rcases List.mem_cons.mp hx with rfl | hx
    · intro heq
      have hmem := h.2.2.next_mem List.mem_cons_self
      rw [heq] at hmem
      exact hy hmem
    · exact ih h.2.2 hys hx

/-- The links are each other's inverses. -/
theorem Between.next_prev (h : Between next prev a b xs) (hx : x ∈ xs ++ [b]) : next (prev x) = x := by
  induction xs generalizing a with
  | nil =>
    rw [List.mem_singleton.mp hx, h.2]
    exact h.1
  | cons y ys ih =>
    rcases List.mem_cons.mp hx with rfl | hx
    · rw [h.2.1]
      exact h.1
    · exact ih h.2.2 hx

theorem Between.prev_next (h : Between next prev a b xs) (hx : x ∈ a :: xs) : prev (next x) = x := by
  induction xs generalizing a with
  | nil =>
    rw [List.mem_singleton.mp hx, h.1]
    exact h.2
  | cons y ys ih =>
    rcases List.mem_cons.mp hx with rfl | hx
    · rw [h.1]
      exact h.2.1
    · exact ih h.2.2 hx

/-! ## Edits -/

/-- The nodes get other names. -/
theorem Between.map (σ : ν → ν) (h : Between next prev a b xs)
    (hnext : ∀ y ∈ a :: xs, next' (σ y) = σ (next y))
    (hprev : ∀ y ∈ xs ++ [b], prev' (σ y) = σ (prev y)) :
    Between next' prev' (σ a) (σ b) (xs.map σ) := by
  induction xs generalizing a with
  | nil =>
    refine ⟨?_, ?_⟩
    · rw [hnext a List.mem_cons_self, h.1]
    · rw [hprev b List.mem_cons_self, h.2]
  | cons x xs ih =>
    refine ⟨?_, ?_, ih h.2.2 (fun y hy => hnext y (List.mem_cons_of_mem _ hy))
      fun y hy => hprev y (List.mem_cons_of_mem _ hy)⟩
    · rw [hnext a List.mem_cons_self, h.1]
    · rw [hprev x List.mem_cons_self, h.2.1]

theorem Between.congr (h : Between next prev a b xs) (hnext : ∀ y ∈ a :: xs, next' y = next y)
    (hprev : ∀ y ∈ xs ++ [b], prev' y = prev y) : Between next' prev' a b xs := by
  rw [between_iff_linked] at h ⊢
  refine h.congr (fun y hy => ?_) hprev
  rw [List.dropLast_concat] at hy
  exact hnext y hy

section Edit

variable [DecidableEq ν]

/-- The neighbours of `x` are linked to each other. -/
theorem Between.remove (h : Between next prev a b xs) (hx : x ∈ xs) (hfirst : (a :: xs).Nodup)
    (hsecond : (xs ++ [b]).Nodup)
    (hnext : ∀ y ∈ a :: xs, next' y = if y = prev x then next x else next y)
    (hprev : ∀ y ∈ xs ++ [b], prev' y = if y = next x then prev x else prev y) :
    Between next' prev' a b (xs.erase x) := by
  obtain ⟨front, back, rfl, hfront⟩ := List.eq_append_cons_of_mem hx
  rw [List.append_cons front x back] at h hfirst hsecond hnext hprev
  obtain ⟨p, u, w, q, hp, hq, -, hapart⟩ := exists_apart hfirst hsecond
  have hlinked : Linked next prev (p ++ [u] ++ [x] ++ w :: q) := by
    rw [← hp, ← hq]
    simpa using between_iff_linked.mp h
  have hne : [x] ≠ [] := List.cons_ne_nil x []
  obtain ⟨-, ⟨-, hu⟩, -, ⟨hw, -⟩, -⟩ := (linked_range_iff hne).mp hlinked
  rw [List.head_cons] at hu
  rw [List.getLast_singleton] at hw
  rw [hu, hw] at hnext hprev
  have hcut := (hlinked.cut hne hapart (fun y hy => hnext y ?_) fun y hy => hprev y ?_).1
  · rw [List.append_cons p u, ← hp, ← hq] at hcut
    rw [List.erase_append_right _ hfront, List.erase_cons_head, between_iff_linked]
    simpa using hcut
  · rw [← hp, ← hq, List.dropLast_concat] at hy
    simpa using hy
  · rw [← hp, ← hq, List.tail_cons] at hy
    simpa using hy

/-- `x` is put between `a` and the node behind it. -/
theorem Between.insert (h : Between next prev a b xs) (hsecond : (xs ++ [b]).Nodup)
    (hnexta : next' a = x) (hnextx : next' x = next a) (hprevx : prev' x = a)
    (hnext : ∀ y ∈ xs, next' y = next y)
    (hprev : ∀ y ∈ xs ++ [b], prev' y = if y = next a then x else prev y) :
    Between next' prev' a b (x :: xs) := by
  refine ⟨hnexta, hprevx, ?_⟩
  cases xs with
  | nil =>
    refine ⟨hnextx.trans h.1, ?_⟩
    rw [hprev b List.mem_cons_self, if_pos h.1.symm]
  | cons y ys =>
    obtain ⟨hay, hya, hys⟩ := h
    refine ⟨hnextx.trans hay, ?_, hys.congr hnext fun w hw => ?_⟩
    · rw [hprev y List.mem_cons_self, if_pos hay.symm]
    · rw [hprev w (List.mem_cons_of_mem _ hw), if_neg]
      rintro rfl
      rw [hay] at hw
      exact (List.nodup_cons.mp hsecond).1 hw

end Edit

end Training.Lib.Doubly
