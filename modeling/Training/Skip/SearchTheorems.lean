/-
Training.Skip.SearchTheorems — where a search ends.

The nodes of the list are sorted by key, and a level has the ones that are
higher than it (`Inv`). For any key the nodes are the ones in front of it
and the others, and a search ends, on each level, at the last node in
front (`locate_spec`), whatever nodes the levels above it have.
-/
import Training.Lib.Links
import Training.Skip.Operations

namespace Training.Skip

open Training.Lib Training.Lib.Links

variable {list : SkipList} {nodes front back : List Nat} {key : Int} {i n : Nat}

/-- The nodes of the level `i`. -/
def onLevel (list : SkipList) (nodes : List Nat) (i : Nat) : List Nat :=
  nodes.filter fun n => i < list.height n

/-- What holds between the operations. -/
structure Inv (list : SkipList) (nodes : List Nat) : Prop where
  levels : ∀ i, i < maxLevel →
    Linked (list.forward i) (list.forward i list.header) (onLevel list nodes i)
  sorted : nodes.Pairwise fun a b => list.key a < list.key b
  heights : ∀ n ∈ nodes, 1 ≤ list.height n ∧ list.height n ≤ list.level
  top : list.level = 1 ∨ ∃ n ∈ nodes, list.height n = list.level
  level : 1 ≤ list.level ∧ list.level ≤ maxLevel
  live : list.live.Perm (list.header :: nodes)
  nodup : list.live.Nodup
  nonnull : null ∉ list.live

theorem Inv.header_nodup (h : Inv list nodes) : (list.header :: nodes).Nodup :=
  h.live.nodup_iff.mp h.nodup

theorem Inv.ne_null (h : Inv list nodes) (hn : n ∈ nodes) : n ≠ null := by
  rintro rfl
  exact h.nonnull (h.live.mem_iff.mpr (List.mem_cons_of_mem _ hn))

@[simp] theorem onLevel_append (xs ys : List Nat) :
    onLevel list (xs ++ ys) i = onLevel list xs i ++ onLevel list ys i :=
  List.filter_append ..

theorem onLevel_subset (nodes : List Nat) (i : Nat) : onLevel list nodes i ⊆ nodes :=
  List.filter_subset_self nodes

/-- All nodes are on the lowest level. -/
theorem onLevel_zero (h : ∀ n ∈ nodes, 1 ≤ list.height n) : onLevel list nodes 0 = nodes :=
  List.filter_eq_self.mpr fun n hn => decide_eq_true (h n hn)

/-- The keys split the nodes: the key is there, or it is not. -/
theorem Inv.split (h : Inv list nodes) (key : Int) :
    (∃ front n back, nodes = front ++ n :: back ∧ list.key n = key ∧
        (∀ m ∈ front, list.key m < key) ∧ ∀ m ∈ back, key < list.key m) ∨
      ∃ front back, nodes = front ++ back ∧ (∀ m ∈ front, list.key m < key) ∧
        ∀ m ∈ back, key < list.key m := by
  have hsorted := h.sorted
  clear h
  induction nodes with
  | nil => exact Or.inr ⟨[], [], rfl, fun _ hm => (nomatch hm), fun _ hm => (nomatch hm)⟩
  | cons x xs ih =>
    obtain ⟨hx, hxs⟩ := List.pairwise_cons.mp hsorted
    rcases Int.lt_trichotomy (list.key x) key with hlt | heq | hgt
    · have hcons : ∀ front : List Nat, (∀ m ∈ front, list.key m < key) →
          ∀ m ∈ x :: front, list.key m < key := by
        intro front hfront m hm
        rcases List.mem_cons.mp hm with rfl | hm
        · exact hlt
        · exact hfront m hm
      rcases ih hxs with ⟨front, n, back, rfl, hn, hfront, hback⟩ | ⟨front, back, rfl, hfront, hback⟩
      · exact Or.inl ⟨x :: front, n, back, rfl, hn, hcons front hfront, hback⟩
      · exact Or.inr ⟨x :: front, back, rfl, hcons front hfront, hback⟩
    · exact Or.inl ⟨[], x, xs, rfl, heq, fun _ hm => (nomatch hm), fun m hm => heq ▸ hx m hm⟩
    · refine Or.inr ⟨[], x :: xs, rfl, fun _ hm => (nomatch hm), fun m hm => ?_⟩
      rcases List.mem_cons.mp hm with rfl | hm
      · exact hgt
      · exact Int.lt_trans hgt (hx m hm)

/-! ## Levels -/

/-- The last node of the level `i` among `front`, or the header. -/
def pred (list : SkipList) (front : List Nat) (i : Nat) : Nat :=
  (list.header :: onLevel list front i).getLast (List.cons_ne_nil _ _)

theorem pred_mem (list : SkipList) (front : List Nat) (i : Nat) :
    pred list front i ∈ list.header :: onLevel list front i :=
  List.getLast_mem _

theorem advance_spec {xs ys : List Nat} {fuel current : Nat}
    (hlink : Linked (list.forward i) (list.forward i current) (xs ++ ys))
    (hxs : ∀ x ∈ xs, list.key x < key) (hys : ∀ y ∈ ys, key ≤ list.key y) (hfuel : xs.length ≤ fuel) :
    advance list i key fuel current = some ((current :: xs).getLast (List.cons_ne_nil _ _)) := by
  induction xs generalizing current fuel with
  | nil =>
    have hstop : ¬(list.forward i current ≠ null ∧ list.key (list.forward i current) < key) := by
      rintro ⟨hne, hlt⟩
      obtain ⟨ys', rfl, -⟩ := hlink.exists_cons hne
      exact absurd hlt (Int.not_lt.mpr (hys _ List.mem_cons_self))
    cases fuel with
    | zero => exact if_neg hstop
    | succ fuel => exact if_neg hstop
  | cons x xs ih =>
    cases fuel with
    | zero => exact absurd hfuel (Nat.not_succ_le_zero _)
    | succ fuel =>
      obtain ⟨hx, hx0, hrest⟩ := hlink
      unfold advance
      rw [hx, if_pos ⟨hx0, hxs x List.mem_cons_self⟩, List.getLast_cons_cons]
      exact ih hrest (fun y hy => hxs y (List.mem_cons_of_mem _ hy)) (Nat.le_of_succ_le_succ hfuel)

section Locate

variable (h : Inv list (front ++ back)) (hfront : ∀ m ∈ front, list.key m < key)
  (hback : ∀ m ∈ back, key ≤ list.key m)

include h

/-- The rest of a level comes behind the last node in front. -/
theorem linked_pred (hi : i < maxLevel) :
    Linked (list.forward i) (list.forward i (pred list front i)) (onLevel list back i) := by
  refine (h.levels i hi).behind (c := (list.header :: onLevel list front i).dropLast) ?_
  rw [onLevel_append, ← List.cons_append]
  conv => lhs; rw [← List.dropLast_append_getLast (List.cons_ne_nil list.header (onLevel list front i))]
  rw [List.append_assoc]
  rfl

include hfront hback

/-- From any node in front, a level is searched up to the last one. -/
theorem advance_pred (hi : i < maxLevel) {current : Nat}
    (hcurrent : current ∈ list.header :: onLevel list front i) :
    advance list i key list.live.length current = some (pred list front i) := by
  obtain ⟨c, d, hcd⟩ := List.append_of_mem hcurrent
  have hlink : Linked (list.forward i) (list.forward i current) (d ++ onLevel list back i) := by
    refine (h.levels i hi).behind (c := c) ?_
    rw [onLevel_append, ← List.cons_append, hcd, List.append_assoc]
    rfl
  have hsub : d ⊆ list.header :: onLevel list front i := by
    intro x hx
    rw [hcd]
    exact List.mem_append_right _ (List.mem_cons_of_mem _ hx)
  have hd : d ⊆ onLevel list front i := by
    cases c with
    | nil =>
      obtain ⟨-, rfl⟩ := List.cons.inj hcd
      exact fun x hx => hx
    | cons y c =>
      obtain ⟨-, heq⟩ := List.cons.inj hcd
      rw [heq]
      exact fun x hx => List.mem_append_right _ (List.mem_cons_of_mem _ hx)
  have hlen : d.length ≤ list.live.length := by
    have hle := congrArg List.length hcd
    have hfilter : (onLevel list front i).length ≤ front.length := List.length_filter_le ..
    have hlive := h.live.length_eq
    simp only [List.length_cons, List.length_append] at hle hlive
    omega
  rw [advance_spec hlink (fun x hx => hfront x (onLevel_subset _ _ (hd hx)))
    (fun y hy => hback y (onLevel_subset _ _ hy)) hlen]
  unfold pred
  congr 1
  simp only [hcd]
  rw [List.getLast_append_of_ne_nil _ (List.cons_ne_nil _ _)]

theorem descend_spec {j : Nat} (hj : j ≤ maxLevel) (update : Nat → Nat) {current : Nat}
    (hcurrent : ∀ i, i < j → current ∈ list.header :: onLevel list front i) :
    ∃ update', descend list key j update current =
        some (update', if j = 0 then current else pred list front 0) ∧
      (∀ i, i < j → update' i = pred list front i) ∧ ∀ i, j ≤ i → update' i = update i := by
  induction j generalizing update current with
  | zero => exact ⟨update, rfl, fun i hi => absurd hi (Nat.not_lt_zero i), fun _ _ => rfl⟩
  | succ j ih =>
    have hadvance := advance_pred h hfront hback (i := j) hj (hcurrent j (Nat.lt_succ_self j))
    have hmem : ∀ i, i < j → pred list front j ∈ list.header :: onLevel list front i := by
      intro i hi
      rcases List.mem_cons.mp (pred_mem list front j) with heq | hmem
      · rw [heq]
        exact List.mem_cons_self
      · refine List.mem_cons_of_mem _ ?_
        obtain ⟨hin, hlt⟩ := List.mem_filter.mp hmem
        exact List.mem_filter.mpr ⟨hin, decide_eq_true (Nat.lt_trans hi (of_decide_eq_true hlt))⟩
    obtain ⟨update', hdescend, hbelow, habove⟩ :=
      ih (Nat.le_of_succ_le hj) (Function.update update j (pred list front j)) hmem
    refine ⟨update', ?_, fun i hi => ?_, fun i hi => ?_⟩
    · unfold descend
      rw [hadvance, if_neg (Nat.succ_ne_zero j)]
      dsimp only
      rw [hdescend]
      by_cases hj0 : j = 0
      · rw [if_pos hj0, hj0]
      · rw [if_neg hj0]
    · rcases Nat.lt_succ_iff_lt_or_eq.mp hi with hlt | rfl
      · exact hbelow i hlt
      · rw [habove i (Nat.le_refl i), Function.update_self]
    · rw [habove i (Nat.le_of_succ_le hi), Function.update_of_ne (Nat.ne_of_gt hi)]

/-- The search ends at the last node in front on each level. -/
theorem locate_spec :
    ∃ update, locate list key = some (update, pred list front 0) ∧
      ∀ i, i < list.level → update i = pred list front i := by
  obtain ⟨update, hdescend, hupdate, -⟩ :=
    descend_spec h hfront hback h.level.2 (fun _ => null) fun _ _ => List.mem_cons_self
  refine ⟨update, ?_, hupdate⟩
  rw [if_neg (Nat.ne_of_gt h.level.1)] at hdescend
  exact hdescend

end Locate

/-! ## The node that is found -/

/-- A key that is there is the next one on the lowest level. -/
theorem next_of_mem (h : Inv list (front ++ n :: back)) : list.forward 0 (pred list front 0) = n := by
  have hlink := linked_pred h (i := 0) (by decide)
  have hback : ∀ m ∈ n :: back, 1 ≤ list.height m :=
    fun m hm => (h.heights m (List.mem_append_right _ hm)).1
  rw [onLevel_zero hback] at hlink
  exact hlink.1

/-- A key that is not there is smaller than the next one. -/
theorem next_of_not_mem (h : Inv list (front ++ back)) (hback : ∀ m ∈ back, key < list.key m)
    (hne : list.forward 0 (pred list front 0) ≠ null) :
    list.key (list.forward 0 (pred list front 0)) ≠ key := by
  have hlink := linked_pred h (i := 0) (by decide)
  rw [onLevel_zero fun m hm => (h.heights m (List.mem_append_right _ hm)).1] at hlink
  obtain ⟨ys, rfl, -⟩ := hlink.exists_cons hne
  exact Int.ne_of_gt (hback _ List.mem_cons_self)

/-- The keys from `n` on. -/
theorem key_le_of_mem (hback : ∀ m ∈ back, list.key n < list.key m) :
    ∀ m ∈ n :: back, list.key n ≤ list.key m := by
  intro m hm
  rcases List.mem_cons.mp hm with rfl | hm
  · exact Int.le_refl _
  · exact Int.le_of_lt (hback m hm)

theorem search_spec_mem (h : Inv list (front ++ n :: back))
    (hfront : ∀ m ∈ front, list.key m < list.key n)
    (hback : ∀ m ∈ back, list.key n < list.key m) : search list (list.key n) = some (some n) := by
  obtain ⟨update, hlocate, -⟩ := locate_spec h hfront (key_le_of_mem hback)
  unfold search
  rw [hlocate]
  dsimp only
  rw [next_of_mem h]
  exact if_pos ⟨h.ne_null (by simp), rfl⟩

theorem search_spec_not_mem (h : Inv list (front ++ back)) (hfront : ∀ m ∈ front, list.key m < key)
    (hback : ∀ m ∈ back, key < list.key m) : search list key = some none := by
  obtain ⟨update, hlocate, -⟩ := locate_spec h hfront fun m hm => Int.le_of_lt (hback m hm)
  unfold search
  rw [hlocate]
  exact if_neg fun hfound => next_of_not_mem h hback hfound.1 hfound.2

end Training.Skip
