/-
Training.Lib.Deques — doubly linked lists that share a memory.

A `Deque` is a list between two sentinels, and a `Family` has one at some
indices, no two with a node in common. What takes a node out of one list
or puts one into it leaves the others alone (`Family.remove`,
`Family.insert`), and lists are added and dropped (`Family.create`,
`Family.drop`).
-/
import Mathlib.Data.List.Perm.Basic
import Mathlib.Logic.Function.Basic
import Training.Lib.Doubly

namespace Training.Lib.Doubly

universe u v

variable {ν : Type u} {ι : Type v}

structure Deque (ν : Type u) where
  first : ν
  last : ν
  nodes : List ν

/-- The sentinels and the nodes. -/
def Deque.cells (d : Deque ν) : List ν := d.first :: d.last :: d.nodes

structure Family (next prev : ν → ν) (ds : ι → Option (Deque ν)) : Prop where
  between : ∀ i d, ds i = some d → Between next prev d.first d.last d.nodes
  nodup : ∀ i d, ds i = some d → d.cells.Nodup
  apart : ∀ i j d e, ds i = some d → ds j = some e → i ≠ j → d.cells.Disjoint e.cells

variable {next prev next' prev' : ν → ν} {ds : ι → Option (Deque ν)} {d : Deque ν} {x : ν} {i : ι}

/-! ## One list -/

theorem Deque.mem_firsts (hx : x ∈ d.first :: d.nodes) : x ∈ d.cells := by
  rcases List.mem_cons.mp hx with rfl | hx
  · exact List.mem_cons_self
  · exact List.mem_cons_of_mem _ (List.mem_cons_of_mem _ hx)

theorem Deque.mem_seconds (hx : x ∈ d.nodes ++ [d.last]) : x ∈ d.cells := by
  rcases List.mem_append.mp hx with hx | hx
  · exact List.mem_cons_of_mem _ (List.mem_cons_of_mem _ hx)
  · exact List.mem_cons_of_mem _ (List.mem_singleton.mp hx ▸ List.mem_cons_self)

theorem Deque.mem_nodes (hx : x ∈ d.nodes) : x ∈ d.cells :=
  List.mem_cons_of_mem _ (List.mem_cons_of_mem _ hx)

theorem Deque.nodup_firsts (h : d.cells.Nodup) : (d.first :: d.nodes).Nodup :=
  h.sublist ((List.sublist_cons_self _ _).cons_cons _)

theorem Deque.nodup_seconds (h : d.cells.Nodup) : (d.nodes ++ [d.last]).Nodup :=
  (List.perm_append_singleton _ d.nodes).nodup_iff.mpr (List.nodup_cons.mp h).2

namespace Family

variable (h : Family next prev ds)

include h

/-- The links of the nodes of a list stay among its cells. -/
theorem prev_mem (hi : ds i = some d) (hx : x ∈ d.nodes) : prev x ∈ d.cells :=
  Deque.mem_firsts ((h.between i d hi).prev_mem (List.mem_append_left _ hx))

theorem next_mem (hi : ds i = some d) (hx : x ∈ d.nodes) : next x ∈ d.cells :=
  Deque.mem_seconds ((h.between i d hi).next_mem (List.mem_cons_of_mem _ hx))

theorem next_first_mem (hi : ds i = some d) : next d.first ∈ d.cells :=
  Deque.mem_seconds ((h.between i d hi).next_mem List.mem_cons_self)

/-- The first node is the last sentinel where there is no node. -/
theorem next_first_eq_iff (hi : ds i = some d) : next d.first = d.last ↔ d.nodes = [] := by
  have hnext := (h.between i d hi).next_left
  cases hd : d.nodes with
  | nil =>
    simp only [hd] at hnext
    exact iff_of_true hnext rfl
  | cons y ys =>
    simp only [hd] at hnext
    have hy : next d.first = y := hnext
    refine iff_of_false (fun heq => ?_) (List.cons_ne_nil y ys)
    have hmem : d.last ∈ d.nodes := by
      rw [hd, ← heq, hy]
      exact List.mem_cons_self
    exact (List.nodup_cons.mp (List.nodup_cons.mp (h.nodup i d hi)).2).1 hmem

/-! ## Edits -/

section Edit

variable [DecidableEq ι]

/-- One list is replaced, and the links of the others are as they were. -/
theorem update {e : Deque ν} (hbetween : Between next' prev' e.first e.last e.nodes)
    (hnodup : e.cells.Nodup)
    (hapart : ∀ j d, ds j = some d → j ≠ i → d.cells.Disjoint e.cells)
    (hnext : ∀ j d, ds j = some d → j ≠ i → ∀ y ∈ d.first :: d.nodes, next' y = next y)
    (hprev : ∀ j d, ds j = some d → j ≠ i → ∀ y ∈ d.nodes ++ [d.last], prev' y = prev y) :
    Family next' prev' (Function.update ds i (some e)) where
  between := fun j d hd => by
    by_cases hj : j = i
    · subst hj
      rw [Function.update_self] at hd
      cases hd
      exact hbetween
    · rw [Function.update_of_ne hj] at hd
      exact (h.between j d hd).congr (hnext j d hd hj) (hprev j d hd hj)
  nodup := fun j d hd => by
    by_cases hj : j = i
    · subst hj
      rw [Function.update_self] at hd
      cases hd
      exact hnodup
    · rw [Function.update_of_ne hj] at hd
      exact h.nodup j d hd
  apart := fun j k d f hd hf hjk => by
    by_cases hj : j = i
    · subst hj
      rw [Function.update_self] at hd
      rw [Function.update_of_ne (Ne.symm hjk)] at hf
      cases hd
      exact fun y he hf' => hapart k f hf (Ne.symm hjk) hf' he
    · rw [Function.update_of_ne hj] at hd
      by_cases hk : k = i
      · subst hk
        rw [Function.update_self] at hf
        cases hf
        exact hapart j d hd hj
      · rw [Function.update_of_ne hk] at hf
        exact h.apart j k d f hd hf hjk

theorem drop (i : ι) : Family next prev (Function.update ds i none) := by
  have hold : ∀ j d, Function.update ds i none j = some d → ds j = some d := by
    intro j d hd
    by_cases hj : j = i
    · subst hj
      rw [Function.update_self] at hd
      cases hd
    · rwa [Function.update_of_ne hj] at hd
  exact ⟨fun j d hd => h.between j d (hold j d hd), fun j d hd => h.nodup j d (hold j d hd),
    fun j k d e hd he => h.apart j k d e (hold j d hd) (hold k e he)⟩

/-- An empty list between two new sentinels. -/
theorem create {a b : ν} (hab : a ≠ b) (ha : ∀ j e, ds j = some e → a ∉ e.cells)
    (hb : ∀ j e, ds j = some e → b ∉ e.cells) (hnexta : next' a = b) (hprevb : prev' b = a)
    (hnext : ∀ y, y ≠ a → y ≠ b → next' y = next y)
    (hprev : ∀ y, y ≠ a → y ≠ b → prev' y = prev y) (i : ι) :
    Family next' prev' (Function.update ds i (some ⟨a, b, []⟩)) := by
  have hout : ∀ j e, ds j = some e → ∀ y ∈ e.cells, y ≠ a ∧ y ≠ b := by
    intro j e he y hy
    exact ⟨fun heq => ha j e he (heq ▸ hy), fun heq => hb j e he (heq ▸ hy)⟩
  refine h.update ⟨hnexta, hprevb⟩ (by simpa [Deque.cells] using hab) (fun j f hf _ y hy hmem => ?_)
    (fun j f hf _ y hy => ?_) fun j f hf _ y hy => ?_
  · obtain ⟨hya, hyb⟩ := hout j f hf y hy
    simp [Deque.cells, hya, hyb] at hmem
  · obtain ⟨hya, hyb⟩ := hout j f hf y (Deque.mem_firsts hy)
    exact hnext y hya hyb
  · obtain ⟨hya, hyb⟩ := hout j f hf y (Deque.mem_seconds hy)
    exact hprev y hya hyb

variable [DecidableEq ν]

/-- The neighbours of `x` are linked to each other. -/
theorem remove (hi : ds i = some d) (hx : x ∈ d.nodes)
    (hnext : ∀ y, next' y = if y = prev x then next x else next y)
    (hprev : ∀ y, prev' y = if y = next x then prev x else prev y) :
    Family next' prev' (Function.update ds i (some { d with nodes := d.nodes.erase x })) := by
  have hnodup := h.nodup i d hi
  have hsub : (d.first :: d.last :: d.nodes.erase x).Sublist d.cells :=
    (List.erase_sublist.cons_cons _).cons_cons _
  refine h.update ?_ (hnodup.sublist hsub) (fun j f hf hj => ?_) (fun j f hf hj y hy => ?_)
    fun j f hf hj y hy => ?_
  · exact (h.between i d hi).remove hx (Deque.nodup_firsts hnodup) (Deque.nodup_seconds hnodup)
      (fun y _ => hnext y) fun y _ => hprev y
  · exact fun y hy hmem => h.apart j i f d hf hi hj hy (hsub.subset hmem)
  · rw [hnext, if_neg]
    rintro rfl
    exact h.apart j i f d hf hi hj (Deque.mem_firsts hy) (h.prev_mem hi hx)
  · rw [hprev, if_neg]
    rintro rfl
    exact h.apart j i f d hf hi hj (Deque.mem_seconds hy) (h.next_mem hi hx)

/-- `x` is put behind the first sentinel. -/
theorem insert (hi : ds i = some d) (hx : ∀ j e, ds j = some e → x ∉ e.cells)
    (hnext : ∀ y, next' y = if y = d.first then x else if y = x then next d.first else next y)
    (hprev : ∀ y, prev' y = if y = next d.first then x else if y = x then d.first else prev y) :
    Family next' prev' (Function.update ds i (some { d with nodes := x :: d.nodes })) := by
  have hnodup := h.nodup i d hi
  have hxd := hx i d hi
  have hxfirst : x ≠ d.first := by
    rintro rfl
    exact hxd List.mem_cons_self
  have hxnext : x ≠ next d.first := by
    rintro rfl
    exact hxd (h.next_first_mem hi)
  have hperm : (d.first :: d.last :: x :: d.nodes).Perm (x :: d.cells) :=
    ((List.Perm.swap _ _ _).cons _).trans (List.Perm.swap _ _ _)
  refine h.update ?_ (hperm.nodup_iff.mpr (List.nodup_cons.mpr ⟨hxd, hnodup⟩))
    (fun j f hf hj => ?_) (fun j f hf hj y hy => ?_) fun j f hf hj y hy => ?_
  · refine (h.between i d hi).insert (Deque.nodup_seconds hnodup) ?_ ?_ ?_ (fun y hy => ?_)
      fun y hy => ?_
    · rw [hnext, if_pos rfl]
    · rw [hnext, if_neg hxfirst, if_pos rfl]
    · rw [hprev, if_neg hxnext, if_pos rfl]
    · have hyx : y ≠ x := fun heq => hxd (heq ▸ Deque.mem_nodes hy)
      have hyf : y ≠ d.first :=
        fun heq => (List.nodup_cons.mp (Deque.nodup_firsts hnodup)).1 (heq ▸ hy)
      rw [hnext, if_neg hyf, if_neg hyx]
    · have hyx : y ≠ x := fun heq => hxd (heq ▸ Deque.mem_seconds hy)
      rw [hprev, if_neg hyx]
  · intro y hy hmem
    rcases List.mem_cons.mp (hperm.mem_iff.mp hmem) with rfl | hmem
    · exact hx j f hf hy
    · exact h.apart j i f d hf hi hj hy hmem
  · have hyx : y ≠ x := fun heq => hx j f hf (heq ▸ Deque.mem_firsts hy)
    rw [hnext, if_neg, if_neg hyx]
    rintro rfl
    exact h.apart j i f d hf hi hj (Deque.mem_firsts hy) List.mem_cons_self
  · have hyx : y ≠ x := fun heq => hx j f hf (heq ▸ Deque.mem_seconds hy)
    rw [hprev, if_neg, if_neg hyx]
    rintro rfl
    exact h.apart j i f d hf hi hj (Deque.mem_seconds hy) (h.next_first_mem hi)

end Edit

end Family

end Training.Lib.Doubly
