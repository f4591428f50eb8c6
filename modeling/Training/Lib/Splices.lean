/-
Training.Lib.Splices — ranges of a doubly linked ring.

`Linked next prev l`: each node of `l` has a link to the one behind it, and
that one a link back. A `Ring` is linked from its head round to its head. A
range is taken out of it by an edit of two links (`Ring.cut`), and a range of
other nodes is put into it by one of four (`Ring.splice`).
-/
import Mathlib.Data.List.Chain
import Mathlib.Data.List.Nodup

namespace Training.Lib.Splices

universe u

variable {ν : Type u} {next prev next' prev' : ν → ν} {a b head first last u w x : ν}
  {l p q seg front back : List ν}

def Linked (next prev : ν → ν) (l : List ν) : Prop :=
  l.IsChain fun x y => next x = y ∧ prev y = x

theorem linked_singleton (x : ν) : Linked next prev [x] := List.IsChain.singleton x

theorem linked_cons_cons :
    Linked next prev (u :: w :: l) ↔ (next u = w ∧ prev w = u) ∧ Linked next prev (w :: l) :=
  List.isChain_cons_cons

theorem Linked.congr (h : Linked next prev l) (hnext : ∀ x ∈ l.dropLast, next' x = next x)
    (hprev : ∀ y ∈ l.tail, prev' y = prev y) : Linked next' prev' l := by
  induction l with
  | nil => exact List.IsChain.nil
  | cons x l ih =>
    cases l with
    | nil => exact linked_singleton x
    | cons y l =>
      obtain ⟨hxy, hrest⟩ := linked_cons_cons.mp h
      refine linked_cons_cons.mpr ⟨⟨?_, ?_⟩, ih hrest (fun z hz => ?_) fun z hz => ?_⟩
      · rw [hnext x (by simp), hxy.1]
      · rw [hprev y (by simp), hxy.2]
      · exact hnext z (by simp [hz])
      · exact hprev z (List.mem_cons_of_mem _ hz)

/-- The range `seg` stands between `u` and `w`, and no link is that of two
nodes: the first node may be the last one. -/
structure Apart (p : List ν) (u : ν) (seg : List ν) (w : ν) (q : List ν) : Prop where
  left : (p ++ [u] ++ seg ++ (w :: q).dropLast).Nodup
  right : ((p ++ [u]).tail ++ seg ++ w :: q).Nodup

namespace Apart

theorem ne_of_mem_before (h : Apart p u seg w q) (hx : x ∈ p) : x ≠ u ∧ x ∉ seg := by
  have hleft := h.left
  simp only [List.append_assoc, List.nodup_append, List.mem_append, List.mem_singleton] at hleft
  exact ⟨hleft.2.2 x hx u (Or.inl rfl),
    fun hseg => hleft.2.2 x hx x (Or.inr (Or.inl hseg)) rfl⟩

theorem ne_of_mem_before_tail (h : Apart p u seg w q) (hx : x ∈ (p ++ [u]).tail) :
    x ≠ w ∧ x ∉ seg := by
  have hright := h.right
  simp only [List.append_assoc, List.nodup_append, List.mem_append, List.mem_cons] at hright
  exact ⟨hright.2.2 x hx w (Or.inr (Or.inl rfl)), fun hseg => hright.2.2 x hx x (Or.inl hseg) rfl⟩

theorem ne_of_mem (h : Apart p u seg w q) (hx : x ∈ seg) : x ≠ u ∧ x ≠ w := by
  have hleft := h.left
  have hright := h.right
  simp only [List.nodup_append, List.mem_append, List.mem_cons] at hleft hright
  exact ⟨fun heq => hleft.1.2.2 u (Or.inr (Or.inl rfl)) x hx heq.symm,
    hright.2.2 x (Or.inr hx) w (Or.inl rfl)⟩

theorem ne_of_mem_after (h : Apart p u seg w q) (hx : x ∈ (w :: q).dropLast) :
    x ≠ u ∧ x ∉ seg := by
  have hleft := h.left
  simp only [List.nodup_append, List.mem_append, List.mem_singleton] at hleft
  exact ⟨fun heq => hleft.2.2 u (Or.inl (Or.inr rfl)) x hx heq.symm,
    fun hseg => hleft.2.2 x (Or.inr hseg) x hx rfl⟩

theorem ne_of_mem_after_tail (h : Apart p u seg w q) (hx : x ∈ q) : x ≠ w ∧ x ∉ seg := by
  have hright := h.right
  simp only [List.nodup_append, List.mem_append, List.nodup_cons, List.mem_cons] at hright
  exact ⟨fun heq => hright.2.1.1 (heq ▸ hx),
    fun hseg => hright.2.2 x (Or.inr hseg) x (Or.inr hx) rfl⟩

theorem nodup (h : Apart p u seg w q) : seg.Nodup :=
  (List.nodup_append.mp (List.nodup_append.mp h.left).1).2.1

end Apart

theorem ne_getLast_of_mem_dropLast (h : l.Nodup) (hne : l ≠ []) (hx : x ∈ l.dropLast) :
    x ≠ l.getLast hne := by
  rw [← List.dropLast_concat_getLast hne, List.nodup_append] at h
  exact h.2.2 x hx _ (List.mem_singleton_self _)

theorem ne_head_of_mem_tail (h : l.Nodup) (hne : l ≠ []) (hx : x ∈ l.tail) : x ≠ l.head hne := by
  rw [← List.cons_head_tail hne, List.nodup_cons] at h
  exact ne_of_mem_of_not_mem hx h.1

theorem linked_append_iff :
    Linked next prev (p ++ u :: (w :: q)) ↔
      Linked next prev (p ++ [u]) ∧ (next u = w ∧ prev w = u) ∧ Linked next prev (w :: q) :=
  List.isChain_append_cons_cons

/-- The links of a ring with a range between `u` and `w`. -/
theorem linked_range_iff (hne : seg ≠ []) :
    Linked next prev (p ++ [u] ++ seg ++ w :: q) ↔
      Linked next prev (p ++ [u]) ∧ (next u = seg.head hne ∧ prev (seg.head hne) = u) ∧
        Linked next prev seg ∧ (next (seg.getLast hne) = w ∧ prev w = seg.getLast hne) ∧
        Linked next prev (w :: q) := by
  unfold Linked
  rw [List.isChain_append, List.isChain_append]
  simp only [List.getLast?_append_of_ne_nil _ hne, List.getLast?_concat, List.head?_eq_some_head hne,
    List.getLast?_eq_some_getLast hne, List.head?_cons, Option.mem_some_iff, forall_eq']
  tauto

section Edit

variable [DecidableEq ν]

/-- The range between `u` and `w` is taken out. -/
theorem Linked.cut (h : Linked next prev (p ++ [u] ++ seg ++ w :: q)) (hne : seg ≠ [])
    (hapart : Apart p u seg w q)
    (hnext : ∀ x ∈ p ++ [u] ++ seg ++ (w :: q).dropLast, next' x = if x = u then w else next x)
    (hprev : ∀ x ∈ (p ++ [u]).tail ++ seg ++ w :: q, prev' x = if x = w then u else prev x) :
    Linked next' prev' (p ++ u :: w :: q) ∧ Linked next' prev' seg := by
  obtain ⟨hbefore, -, hseg, -, hafter⟩ := (linked_range_iff hne).mp h
  have hnextu : next' u = w := by rw [hnext u (by simp), if_pos rfl]
  have hprevw : prev' w = u := by rw [hprev w (by simp), if_pos rfl]
  refine ⟨linked_append_iff.mpr ⟨?_, ⟨hnextu, hprevw⟩, ?_⟩, ?_⟩
  · refine hbefore.congr (fun x hx => ?_) fun x hx => ?_
    · rw [List.dropLast_concat] at hx
      rw [hnext x (by simp [hx]), if_neg (hapart.ne_of_mem_before hx).1]
    · rw [hprev x (by simp [hx]), if_neg (hapart.ne_of_mem_before_tail hx).1]
  · refine hafter.congr (fun x hx => ?_) fun x hx => ?_
    · rw [hnext x (List.mem_append_right _ hx), if_neg (hapart.ne_of_mem_after hx).1]
    · rw [List.tail_cons] at hx
      rw [hprev x (by simp [hx]), if_neg (hapart.ne_of_mem_after_tail hx).1]
  · refine hseg.congr (fun x hx => ?_) fun x hx => ?_
    · have hmem := (List.dropLast_sublist seg).subset hx
      rw [hnext x (by simp [hmem]), if_neg (hapart.ne_of_mem hmem).1]
    · have hmem := List.mem_of_mem_tail hx
      rw [hprev x (by simp [hmem]), if_neg (hapart.ne_of_mem hmem).2]

/-- The range is put between `u` and `w`. -/
theorem Linked.splice (h : Linked next prev (p ++ u :: w :: q)) (hseg : Linked next prev seg)
    (hne : seg ≠ []) (hapart : Apart p u seg w q)
    (hnext : ∀ x, next' x =
      if x = u then seg.head hne else if x = seg.getLast hne then w else next x)
    (hprev : ∀ x, prev' x =
      if x = w then seg.getLast hne else if x = seg.head hne then u else prev x) :
    Linked next' prev' (p ++ [u] ++ seg ++ w :: q) := by
  obtain ⟨hbefore, -, hafter⟩ := linked_append_iff.mp h
  have hnodup := hapart.nodup
  have hfirst := hapart.ne_of_mem (List.head_mem hne)
  have hlast := hapart.ne_of_mem (List.getLast_mem hne)
  refine (linked_range_iff hne).mpr ⟨?_, ⟨by simp [hnext], by simp [hprev, hfirst.2]⟩, ?_,
    ⟨by simp [hnext, hlast.1], by simp [hprev]⟩, ?_⟩
  · refine hbefore.congr (fun x hx => ?_) fun x hx => ?_
    · rw [List.dropLast_concat] at hx
      obtain ⟨hxu, hxs⟩ := hapart.ne_of_mem_before hx
      rw [hnext, if_neg hxu, if_neg (ne_of_mem_of_not_mem (List.getLast_mem hne) hxs).symm]
    · obtain ⟨hxw, hxs⟩ := hapart.ne_of_mem_before_tail hx
      rw [hprev, if_neg hxw, if_neg (ne_of_mem_of_not_mem (List.head_mem hne) hxs).symm]
  · refine hseg.congr (fun x hx => ?_) fun x hx => ?_
    · have hxu := (hapart.ne_of_mem ((List.dropLast_sublist seg).subset hx)).1
      rw [hnext, if_neg hxu, if_neg (ne_getLast_of_mem_dropLast hnodup hne hx)]
    · have hxw := (hapart.ne_of_mem (List.mem_of_mem_tail hx)).2
      rw [hprev, if_neg hxw, if_neg (ne_head_of_mem_tail hnodup hne hx)]
  · refine hafter.congr (fun x hx => ?_) fun x hx => ?_
    · obtain ⟨hxu, hxs⟩ := hapart.ne_of_mem_after hx
      rw [hnext, if_neg hxu, if_neg (ne_of_mem_of_not_mem (List.getLast_mem hne) hxs).symm]
    · obtain ⟨hxw, hxs⟩ := hapart.ne_of_mem_after_tail hx
      rw [hprev, if_neg hxw, if_neg (ne_of_mem_of_not_mem (List.head_mem hne) hxs).symm]

end Edit

/-- The neighbours of a range between `a` and `b`. -/
theorem exists_apart (hfirsts : (a :: (front ++ seg ++ back)).Nodup)
    (hseconds : (front ++ seg ++ back ++ [b]).Nodup) :
    ∃ p u w q, a :: front = p ++ [u] ∧ back ++ [b] = w :: q ∧ w = back.headD b ∧
      Apart p u seg w q := by
  obtain ⟨p, u, hp⟩ : ∃ p u, a :: front = p ++ [u] :=
    ⟨_, _, (List.dropLast_concat_getLast (List.cons_ne_nil a front)).symm⟩
  obtain ⟨w, q, hq, hw⟩ : ∃ w q, back ++ [b] = w :: q ∧ w = back.headD b := by
    cases back with
    | nil => exact ⟨b, [], rfl, rfl⟩
    | cons w back => exact ⟨w, back ++ [b], rfl, rfl⟩
  refine ⟨p, u, w, q, hp, hq, hw, ?_, ?_⟩
  · rw [← hp, ← hq, List.dropLast_concat]
    simpa using hfirsts
  · rw [← hp, ← hq, List.tail_cons]
    simpa using hseconds

/-! ## Rings -/

structure Ring (next prev : ν → ν) (head : ν) (xs : List ν) : Prop where
  nodup : (head :: xs).Nodup
  linked : Linked next prev (head :: xs ++ [head])

/-- The node in front of `back`. -/
theorem Ring.prev_headD (h : Ring next prev head (front ++ seg ++ back)) (hne : seg ≠ []) :
    prev (back.headD head) = seg.getLast hne := by
  obtain ⟨p, u, w, q, hp, hq, hw, -⟩ := exists_apart h.nodup (List.nodup_append_comm.mp h.nodup)
  have hlinked : Linked next prev (p ++ [u] ++ seg ++ w :: q) := by
    rw [← hp, ← hq]
    simpa using h.linked
  rw [← hw]
  exact ((linked_range_iff hne).mp hlinked).2.2.2.1.2

section RingEdit

variable [DecidableEq ν]

theorem Ring.cut (h : Ring next prev head (front ++ seg ++ back)) (hne : seg ≠ [])
    (hfirst : seg.head hne = first) (hlast : seg.getLast hne = last)
    (hnext : ∀ x, next' x = if x = prev first then next last else next x)
    (hprev : ∀ x, prev' x = if x = next last then prev first else prev x) :
    Ring next' prev' head (front ++ back) ∧ Linked next' prev' seg := by
  obtain ⟨p, u, w, q, hp, hq, -, hapart⟩ := exists_apart h.nodup (List.nodup_append_comm.mp h.nodup)
  have hlinked : Linked next prev (p ++ [u] ++ seg ++ w :: q) := by
    rw [← hp, ← hq]
    simpa using h.linked
  obtain ⟨-, ⟨-, hu⟩, -, ⟨hw, -⟩, -⟩ := (linked_range_iff hne).mp hlinked
  rw [hfirst] at hu
  rw [hlast] at hw
  rw [hu, hw] at hnext hprev
  obtain ⟨hring, hseg⟩ := hlinked.cut hne hapart (fun x _ => hnext x) fun x _ => hprev x
  have hsublist : (front ++ back).Sublist (front ++ seg ++ back) :=
    (List.sublist_append_left front seg).append (List.Sublist.refl back)
  refine ⟨⟨h.nodup.sublist (hsublist.cons_cons head), ?_⟩, hseg⟩
  · rw [List.append_cons p u, ← hp, ← hq] at hring
    simpa using hring

theorem Ring.splice (h : Ring next prev head (front ++ back)) (hseg : Linked next prev seg)
    (hne : seg ≠ []) (hfirst : seg.head hne = first) (hlast : seg.getLast hne = last)
    (hnodup : (head :: (front ++ seg ++ back)).Nodup)
    (hnext : ∀ x, next' x = if x = prev (back.headD head) then first
      else if x = last then back.headD head else next x)
    (hprev : ∀ x, prev' x = if x = back.headD head then last
      else if x = first then prev (back.headD head) else prev x) :
    Ring next' prev' head (front ++ seg ++ back) := by
  obtain ⟨p, u, w, q, hp, hq, hw, hapart⟩ := exists_apart hnodup (List.nodup_append_comm.mp hnodup)
  have hlinked : Linked next prev (p ++ u :: w :: q) := by
    rw [List.append_cons p u, ← hp, ← hq]
    simpa using h.linked
  have hu : prev w = u := (linked_append_iff.mp hlinked).2.1.2
  rw [← hw, hu] at hnext hprev
  subst hfirst hlast
  have hring := hlinked.splice hseg hne hapart hnext hprev
  rw [← hp, ← hq] at hring
  exact ⟨hnodup, by simpa using hring⟩

end RingEdit

end Training.Lib.Splices
