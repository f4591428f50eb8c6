/-
Training.Lib.Links — lists threaded through memory.

The nodes of a list are addresses, 0 is the end, and `next` says where
the link of a node leads. `Linked next p xs` is the list of the nodes
`xs` from `p` on. A list is left alone by a store that keeps the links of
its nodes (`Linked.congr`). Behind a node `a`, a node is linked into the
list or out of it by edits of the last link in front of it
(`Linked.insert`, `Linked.remove`).
-/
import Mathlib.Data.List.Nodup
import Mathlib.Tactic.Common

namespace Training.Lib.Links

variable {next next' : Nat → Nat} {a p x : Nat} {xs ys : List Nat}

def Linked (next : Nat → Nat) : Nat → List Nat → Prop
  | p, [] => p = 0
  | p, x :: xs => p = x ∧ x ≠ 0 ∧ Linked next (next x) xs

@[simp] theorem linked_nil : Linked next p [] ↔ p = 0 := Iff.rfl

@[simp] theorem linked_cons :
    Linked next p (x :: xs) ↔ p = x ∧ x ≠ 0 ∧ Linked next (next x) xs := Iff.rfl

theorem Linked.congr (h : Linked next p xs) (hnext : ∀ x ∈ xs, next' x = next x) :
    Linked next' p xs := by
  induction xs generalizing p with
  | nil => exact h
  | cons x xs ih =>
    refine ⟨h.1, h.2.1, ?_⟩
    rw [hnext x List.mem_cons_self]
    exact ih h.2.2 fun y hy => hnext y (List.mem_cons_of_mem _ hy)

theorem Linked.eq_nil (h : Linked next 0 xs) : xs = [] := by
  cases xs with
  | nil => rfl
  | cons x xs => exact absurd h.1.symm h.2.1

theorem Linked.ne_zero (h : Linked next p xs) (hx : x ∈ xs) : x ≠ 0 := by
  induction xs generalizing p with
  | nil => simp at hx
  | cons y ys ih =>
    rcases List.mem_cons.mp hx with rfl | hx
    · exact h.2.1
    · exact ih h.2.2 hx

/-- A list that is not empty starts with its first node. -/
theorem Linked.exists_cons (h : Linked next p xs) (hp : p ≠ 0) :
    ∃ ys, xs = p :: ys ∧ Linked next (next p) ys := by
  cases xs with
  | nil => exact absurd h hp
  | cons x xs =>
    obtain ⟨rfl, -, hrest⟩ := h
    exact ⟨xs, rfl, hrest⟩

/-- There is one list from `p` on. -/
theorem Linked.unique (h : Linked next p xs) (h' : Linked next p ys) : xs = ys := by
  induction xs generalizing p ys with
  | nil => exact (Linked.eq_nil ((linked_nil.mp h) ▸ h')).symm
  | cons x xs ih =>
    obtain ⟨rfl, hp, hrest⟩ := h
    obtain ⟨ys', rfl, hrest'⟩ := h'.exists_cons hp
    rw [ih hrest hrest']

/-- The list behind one of its nodes. -/
theorem Linked.behind (h : Linked next (next a) xs) {c : List Nat} (hx : a :: xs = c ++ x :: ys) :
    Linked next (next x) ys := by
  induction c generalizing a xs with
  | nil =>
    obtain ⟨rfl, rfl⟩ := List.cons.inj hx
    exact h
  | cons z c ih =>
    obtain ⟨rfl, rfl⟩ := List.cons.inj hx
    cases c with
    | nil => exact h.2.2
    | cons w c =>
      change Linked next (next a) (w :: (c ++ x :: ys)) at h
      exact ih h.2.2 rfl

/-! ## Edits behind a node -/

theorem Linked.behind_last (h : Linked next (next a) (xs ++ ys)) :
    Linked next (next ((a :: xs).getLast (List.cons_ne_nil _ _))) ys := by
  have hsplit : a :: xs ++ ys =
      (a :: xs).dropLast ++ ([(a :: xs).getLast (List.cons_ne_nil _ _)] ++ ys) := by
    rw [← List.append_assoc, List.dropLast_append_getLast]
  exact h.behind hsplit

/-- The last link of `xs` is changed: it leads to `zs`. -/
theorem Linked.relink {zs : List Nat} (h : Linked next (next a) (xs ++ ys))
    (hnodup : (a :: xs).Nodup)
    (hlast : Linked next' (next' ((a :: xs).getLast (List.cons_ne_nil _ _))) zs)
    (hother : ∀ y ∈ a :: xs, y ≠ (a :: xs).getLast (List.cons_ne_nil _ _) → next' y = next y) :
    Linked next' (next' a) (xs ++ zs) := by
  induction xs generalizing a with
  | nil => exact hlast
  | cons z xs ih =>
    rw [List.getLast_cons_cons] at hlast hother
    obtain ⟨hz, hz0, hrest⟩ := h
    obtain ⟨ha, hxs⟩ := List.nodup_cons.mp hnodup
    have hne : a ≠ (z :: xs).getLast (List.cons_ne_nil _ _) :=
      (ne_of_mem_of_not_mem (List.getLast_mem _) ha).symm
    exact ⟨(hother a List.mem_cons_self hne).trans hz, hz0,
      ih hrest hxs hlast fun y hy => hother y (List.mem_cons_of_mem _ hy)⟩

/-- Behind `xs` come other nodes than the last of `xs`. -/
theorem ne_getLast_of_nodup (hnodup : (a :: (xs ++ ys)).Nodup) (hy : x ∈ ys) :
    x ≠ (a :: xs).getLast (List.cons_ne_nil _ _) := by
  rw [← List.cons_append] at hnodup
  intro heq
  exact (List.nodup_append.mp hnodup).2.2 _ (List.getLast_mem _) x hy heq.symm

/-- `x` is linked in behind `xs`. -/
theorem Linked.insert (h : Linked next (next a) (xs ++ ys)) (hnodup : (a :: (xs ++ ys)).Nodup)
    (hx : x ≠ 0) (hlast : next' ((a :: xs).getLast (List.cons_ne_nil _ _)) = x)
    (hnextx : next' x = next ((a :: xs).getLast (List.cons_ne_nil _ _)))
    (hother : ∀ y ∈ a :: (xs ++ ys), y ≠ (a :: xs).getLast (List.cons_ne_nil _ _) →
      next' y = next y) : Linked next' (next' a) (xs ++ x :: ys) := by
  have hrest : Linked next' (next' x) ys := by
    rw [hnextx]
    refine h.behind_last.congr fun y hy => hother y ?_ (ne_getLast_of_nodup hnodup hy)
    exact List.mem_cons_of_mem a (List.mem_append_right xs hy)
  refine h.relink (hnodup.sublist (by simp)) ⟨hlast, hx, hrest⟩ fun y hy => hother y ?_
  rw [← List.cons_append]
  exact List.mem_append_left ys hy

/-- `x` is linked in at the end of a list that has a last node. -/
theorem Linked.concat (h : Linked next p (a :: xs)) (hnodup : (a :: xs).Nodup) (hx : x ≠ 0)
    (hlast : next' ((a :: xs).getLast (List.cons_ne_nil _ _)) = x) (hend : next' x = 0)
    (hother : ∀ y ∈ a :: xs, y ≠ (a :: xs).getLast (List.cons_ne_nil _ _) → next' y = next y) :
    Linked next' p (a :: xs ++ [x]) := by
  obtain ⟨hp, ha, hrest⟩ := h
  have hlast0 : next ((a :: xs).getLast (List.cons_ne_nil _ _)) = 0 :=
    hrest.behind (List.dropLast_append_getLast (List.cons_ne_nil a xs)).symm
  rw [← List.append_nil xs] at hrest
  exact ⟨hp, ha, hrest.insert (by simpa using hnodup) hx hlast (hend.trans hlast0.symm)
    (by simpa using hother)⟩

/-- `x`, which comes behind `xs`, is linked out. -/
theorem Linked.remove (h : Linked next (next a) (xs ++ x :: ys)) (hnodup : (a :: (xs ++ ys)).Nodup)
    (hlast : next' ((a :: xs).getLast (List.cons_ne_nil _ _)) = next x)
    (hother : ∀ y ∈ a :: (xs ++ ys), y ≠ (a :: xs).getLast (List.cons_ne_nil _ _) →
      next' y = next y) : Linked next' (next' a) (xs ++ ys) := by
  have hrest : Linked next' (next x) ys := by
    refine h.behind_last.2.2.congr fun y hy => hother y ?_ (ne_getLast_of_nodup hnodup hy)
    exact List.mem_cons_of_mem a (List.mem_append_right xs hy)
  refine h.relink (hnodup.sublist (by simp)) (hlast ▸ hrest) fun y hy => hother y ?_
  rw [← List.cons_append]
  exact List.mem_append_left ys hy

end Training.Lib.Links
