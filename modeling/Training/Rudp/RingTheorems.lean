/-
Training.Rudp.RingTheorems — which operations on a list are right.

To insert a node is to splice a range of one node, and to remove one is to cut
such a range. `list_move` cuts its range and splices it in front of the
position, provided that it reads `last` as the last node
(`holds_listMove`); else the last link that it sets is wrong, and
`position->prev` is what `last` happened to hold (`prev_listMove`).
-/
import Training.Rudp.Ring

namespace Training.Rudp.Ring

open Training.Lib.Splices Function

variable {ν : Type} [DecidableEq ν] {l : Links ν} {head position data first g : ν}
  {before rest after front back xs : List ν}

theorem holds_listInit (l : Links ν) (head : ν) : (listInit l head).Holds head [] where
  nodup := List.nodup_singleton head
  linked := linked_cons_cons.mpr
    ⟨⟨by simp [listInit, Links.setNext, Links.setPrev], by simp [listInit, Links.setPrev]⟩,
      linked_singleton head⟩

/-! ## One node -/

theorem holds_listInsert (h : l.Holds head (front ++ back)) (hdata : data ∉ head :: (front ++ back)) :
    (listInsert l (back.headD head) data).1.Holds head (front ++ [data] ++ back) := by
  have hnodup : (head :: (front ++ [data] ++ back)).Nodup := by
    have hperm : (head :: (front ++ [data] ++ back)).Perm (data :: (head :: (front ++ back))) := by
      rw [List.append_assoc]
      exact (List.perm_middle.cons head).trans (List.Perm.swap data head _)
    exact hperm.nodup_iff.mpr (List.nodup_cons.mpr ⟨hdata, h.nodup⟩)
  refine Ring.splice h (linked_singleton data) (List.cons_ne_nil data []) List.head_cons
    (List.getLast_singleton _) hnodup (fun x => ?_) fun x => ?_
  · simp [listInsert, Links.setNext, Links.setPrev, update_apply]
  · simp [listInsert, Links.setNext, Links.setPrev, update_apply]

theorem holds_listRemove (h : l.Holds head (front ++ [position] ++ back)) :
    (listRemove l position).1.Holds head (front ++ back) := by
  refine (Ring.cut h (List.cons_ne_nil position []) List.head_cons (List.getLast_singleton _)
    (fun x => ?_) fun x => ?_).1
  · simp [listRemove, Links.setNext, Links.setPrev, update_apply]
  · simp [listRemove, Links.setNext, Links.setPrev, update_apply]

/-! ## A range -/

/-- The links once the range is cut, which are the first two that are set. -/
def cutLinks (l : Links ν) (first last : ν) : Links ν :=
  let l := l.setNext (l.prev first) (l.next last)
  l.setPrev (l.next last) (l.prev first)

theorem holds_listMove (h : l.Holds head (before ++ first :: rest ++ after))
    (hsplit : before ++ after = front ++ back) :
    (listMove l (rest.getLastD first) (back.headD head) first (rest.getLastD first)).1.Holds head
      (front ++ first :: rest ++ back) := by
  have hlast : (first :: rest).getLast (List.cons_ne_nil first rest) = rest.getLastD first :=
    List.getLast_eq_getLastD _
  obtain ⟨hcut, hrange⟩ : (cutLinks l first (rest.getLastD first)).Holds head (before ++ after) ∧
      Linked (cutLinks l first (rest.getLastD first)).next
        (cutLinks l first (rest.getLastD first)).prev (first :: rest) := by
    refine Ring.cut h (List.cons_ne_nil first rest) List.head_cons hlast (fun x => ?_) fun x => ?_
    · simp [cutLinks, Links.setNext, Links.setPrev, update_apply]
    · simp [cutLinks, Links.setNext, Links.setPrev, update_apply]
  rw [hsplit] at hcut
  have hmiddle : ∀ p q : List ν, (p ++ first :: rest ++ q).Perm (first :: rest ++ (p ++ q)) := by
    intro p q
    rw [← List.append_assoc]
    exact List.perm_append_comm.append_right q
  have hperm : (front ++ first :: rest ++ back).Perm (before ++ first :: rest ++ after) :=
    (hmiddle front back).trans (hsplit ▸ (hmiddle before after).symm)
  have hnodup : (head :: (front ++ first :: rest ++ back)).Nodup :=
    (hperm.cons head).nodup_iff.mpr h.nodup
  refine Ring.splice hcut hrange (List.cons_ne_nil first rest) List.head_cons hlast hnodup
    (fun x => ?_) fun x => ?_
  · simp [listMove, cutLinks, Links.setNext, Links.setPrev, update_apply]
  · simp [listMove, cutLinks, Links.setNext, Links.setPrev, update_apply]

/-- The last link that is set. -/
theorem prev_listMove (l : Links ν) (g position dataFirst dataLast : ν) :
    (listMove l g position dataFirst dataLast).1.prev position = g := by
  simp [listMove, Links.setNext, Links.setPrev]

/-! ## The size -/

theorem sizeFrom_eq {a : ν} {turns size : Nat} (h : Linked l.next l.prev (a :: xs ++ [head]))
    (hhead : head ∉ xs) (hturns : xs.length < turns) :
    sizeFrom l head turns (l.next a) size = some (size + xs.length) := by
  induction xs generalizing a turns size with
  | nil =>
    have hnext : l.next a = head := (linked_cons_cons.mp h).1.1
    obtain ⟨turns, rfl⟩ := Nat.exists_eq_add_of_lt hturns
    simp [sizeFrom, hnext]
  | cons x xs ih =>
    obtain ⟨⟨hnext, -⟩, hrest⟩ := linked_cons_cons.mp h
    simp only [List.mem_cons, not_or] at hhead
    cases turns with
    | zero => exact absurd hturns (Nat.not_lt_zero _)
    | succ turns =>
      simp only [List.length_cons] at hturns ⊢
      rw [hnext, sizeFrom, if_neg (Ne.symm hhead.1), ih hrest hhead.2 (by omega)]
      exact congrArg some (by omega)

theorem listSize_eq {turns : Nat} (h : l.Holds head xs) (hturns : xs.length < turns) :
    listSize l head turns = some xs.length := by
  rw [listSize, sizeFrom_eq h.linked (List.nodup_cons.mp h.nodup).1 hturns, Nat.zero_add]

/-! ## The operations -/

/-- The last link of `list_move` tells what it has read. -/
theorem readsLast_of_holds
    (h : (listMove l g (back.headD head) first (rest.getLastD first)).1.Holds head
      (front ++ first :: rest ++ back)) : g = rest.getLastD first := by
  have hprev := Ring.prev_headD h (List.cons_ne_nil first rest)
  rw [prev_listMove, List.getLast_eq_getLastD] at hprev
  exact hprev

/-- For every list and every operation on it, the result is that of the
sequence if and only if the operation is not `list_move`, or reads the last
node of its range from the variable that it has not set. -/
theorem acts_iff_readsLast (l : Links ν) (head indeterminate : ν) (c : Call ν)
    (hring : l.Holds head c.nodes) (hvalid : c.Valid head) :
    c.Acts l head indeterminate ↔ c.ReadsLast indeterminate := by
  cases c with
  | insert front back data => exact iff_of_true ⟨holds_listInsert hring hvalid, rfl⟩ trivial
  | remove front position back => exact iff_of_true ⟨holds_listRemove hring, rfl⟩ trivial
  | move before first rest after front back =>
    constructor
    · rintro ⟨h, -⟩
      exact readsLast_of_holds h
    · rintro rfl
      exact ⟨holds_listMove hring hvalid, rfl⟩
  | size xs => exact iff_of_true (fun turns hturns => listSize_eq hring hturns) trivial

/-- The list of 1, 2 and 3. -/
def three : Links Nat where
  next n := if n = 3 then 0 else n + 1
  prev n := if n = 0 then 3 else n - 1

theorem holds_three : three.Holds 0 [1, 2, 3] where
  nodup := by decide
  linked := by simp [Linked, three]

/-- With 3 in the variable, 2 and 3 move in front of 1. -/
theorem acts_iff_readsLast_three : (Call.move [1] 2 [3] [] [] [1]).Acts three 0 3 :=
  (acts_iff_readsLast three 0 3 (.move [1] 2 [3] [] [] [1]) holds_three rfl).mpr rfl

/-- With 9 in the variable, 2 does not move there. -/
theorem not_acts_three : ¬ (Call.move [1] 2 [] [3] [] [1, 3]).Acts three 0 9 := by
  rintro ⟨h, -⟩
  exact absurd (readsLast_of_holds h) (by decide)

end Training.Rudp.Ring
