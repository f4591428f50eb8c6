/-
Training.RbTree.NeighbourTheorems — the walks over the tree.

* `rbNext_spec`, `rbPrev_spec` — the nodes next to a node in the list of the
  tree. Each follows from `rbNeighbour_spec`, where the list is read from
  the side the walk comes from.
* `rbNextPostorder_spec` — the node behind a node in the postorder.
* `forEach_rbNext`, `forEach_rbPrev`, `forEach_rbNextPostorder` — the loops
  over these visit each node of the tree once, in order.
-/
import Training.RbTree.HoldsTheorems

namespace Training.RbTree

open Training.Lib.RedBlack Training.Lib.RedBlack.ColorTree

universe u

variable {α : Type u} {m : Memory α} {t a b l r : ColorTree α} {x : α} {c : Color} {d : Side}
  {p : Option α} {path : Spine α} {fuel : Nat} {l₁ l₂ : List α}

/-! ## The ends -/

theorem deepest_spec (h : Holds m p t) (hroot : t.root = some x) (hfuel : t.height ≤ fuel) :
    Memory.deepest d fuel m x = (d.order t.toList).head? := by
  induction fuel generalizing t x p with
  | zero =>
    obtain ⟨c, l, r, rfl⟩ := root_eq_some_iff.mp hroot
    simp [height] at hfuel
  | succ fuel ih =>
    obtain ⟨a, b, hjoin⟩ := exists_join d hroot
    rw [hjoin] at h hfuel ⊢
    obtain ⟨-, -, hnear, -, ha, -⟩ := holds_join.mp h
    rw [height_join] at hfuel
    rw [Memory.deepest, hnear, order_join]
    cases a with
    | nil => simp
    | node c l y r =>
      rw [root_node]
      exact (ih ha root_node (by omega)).trans (head_order_append root_node _).symm

theorem deepest_map (h : Holds m p t) (hroot : t.root = some x) (hfuel : t.height ≤ fuel) :
    (Memory.deepest d fuel m x).map some = some (d.order t.toList).head? := by
  rw [deepest_spec h hroot hfuel]
  obtain ⟨a, b, hjoin⟩ := exists_join d hroot
  rw [hjoin, order_join]
  cases d.order a.toList <;> rfl

theorem rbEnd_spec (h : Represents m t) (hfuel : t.toList.length ≤ fuel) :
    m.rbEnd d fuel = some (d.order t.toList).head? := by
  unfold Memory.rbEnd
  rw [h.root]
  cases hroot : t.root with
  | none =>
    rw [root_eq_none_iff.mp hroot]
    simp
  | some x => exact deepest_map h.holds hroot ((height_le_length t).trans hfuel)

theorem rbFirst_spec (h : Represents m t) (hfuel : t.toList.length ≤ fuel) :
    m.rbFirst fuel = some t.toList.head? := rbEnd_spec h hfuel

theorem rbLast_spec (h : Represents m t) (hfuel : t.toList.length ≤ fuel) :
    m.rbLast fuel = some t.toList.getLast? :=
  (rbEnd_spec h hfuel).trans (congrArg some List.head?_reverse)

/-! ## The neighbours -/

variable [DecidableEq α]

theorem climb_spec (hpath : HoldsPath m (some x) path) (hparent : m.parent x = top path)
    (hnodup : (x :: values path).Nodup) (hfuel : path.length < fuel) :
    Memory.climb d.other fuel m x = some (onward d path).head? := by
  induction fuel generalizing x path with
  | zero => exact absurd hfuel (Nat.not_lt_zero _)
  | succ fuel ih =>
    cases path with
    | nil =>
      rw [Memory.climb, hparent]
      simp
    | cons f path =>
      obtain ⟨hfp, -, hnear, hfar, hsib, hrest⟩ := hpath
      rw [Memory.climb, hparent]
      simp only [top_cons]
      by_cases hside : f.side = d
      · have hne : m.child d.other f.value ≠ some x := by
          intro heq
          have hmem : x ∈ f.sibling.toList := mem_of_root (hfar.symm.trans (hside ▸ heq))
          simp [hmem] at hnodup
        rw [if_neg hne, onward_same hside]
        rfl
      · have hother : f.side = d.other := by
          cases d <;> cases h : f.side <;> simp_all [Side.other]
        rw [if_pos (hother ▸ hnear), onward_other hother]
        refine ih hrest hfp (hnodup.of_cons.sublist ?_) (Nat.lt_of_succ_lt_succ hfuel)
        simp

/-- The child on the far side leads down to the next node, and no such
child leads up to it. -/
theorem rbNeighbour_spec (h : Represents m (plug (join d c x a b) path))
    (hfuel : (plug (join d c x a b) path).toList.length ≤ fuel) :
    m.rbNeighbour d.other fuel x = some (d.order b.toList ++ onward d path).head? := by
  obtain ⟨hpath, hholds, hnodup⟩ := represents_plug.mp h
  obtain ⟨hparent, -, -, hfar, -, hb⟩ := holds_join.mp hholds
  have hlength := (toList_plug_perm (join d c x a b) path).length_eq
  rw [List.length_append, (toList_join_perm).length_eq, List.length_cons,
    List.length_append] at hlength
  obtain ⟨-, hvalues, hdisj⟩ := nodup_plug.mp hnodup
  have hx : x ∉ values path := fun hmem => hdisj (by simp) hmem
  have hempty : ¬ m.rbEmptyNode x := fun hself =>
    hx (mem_values_of_top (hparent.symm.trans hself.1))
  rw [root_join] at hpath
  unfold Memory.rbNeighbour
  rw [if_neg hempty, hfar]
  cases hroot : b.root with
  | none =>
    obtain rfl := root_eq_none_iff.mp hroot
    have hle := length_le_values path
    simp only [toList_nil, Side.order_nil, List.nil_append]
    exact climb_spec hpath hparent (List.nodup_cons.mpr ⟨hx, hvalues⟩) (by omega)
  | some y =>
    rw [head_order_append hroot]
    have hle := height_le_length b
    simp only [Side.other_other]
    exact deepest_map hb hroot (by omega)

theorem neighbour_of_order (h : Represents m t) (hlist : d.order t.toList = l₁ ++ x :: l₂)
    (hfuel : t.toList.length ≤ fuel) : m.rbNeighbour d.other fuel x = some l₂.head? := by
  have hperm : (d.order t.toList).Perm t.toList := by
    cases d with
    | left => exact .refl _
    | right => exact List.reverse_perm _
  have hx : x ∈ t.toList := hperm.mem_iff.mp (by simp [hlist])
  have hnodup := hperm.nodup_iff.mpr h.nodup
  obtain ⟨c, l, r, path, rfl⟩ := exists_plug hx
  obtain ⟨a, b, hjoin⟩ := exists_join d (root_node (c := c) (l := l) (x := x) (r := r))
  rw [hjoin] at h hlist hfuel hnodup
  rw [rbNeighbour_spec h hfuel]
  rw [order_plug, order_join, List.append_assoc, List.append_assoc, List.cons_append,
    ← List.append_assoc] at hlist
  rw [order_plug, order_join, List.append_assoc, List.append_assoc, List.cons_append,
    ← List.append_assoc] at hnodup
  rw [(eq_of_split hnodup hlist).2]

theorem rbNext_spec (h : Represents m t) (hlist : t.toList = l₁ ++ x :: l₂)
    (hfuel : t.toList.length ≤ fuel) : m.rbNext fuel x = some l₂.head? :=
  neighbour_of_order (d := .left) h hlist hfuel

theorem rbPrev_spec (h : Represents m t) (hlist : t.toList = l₁ ++ x :: l₂)
    (hfuel : t.toList.length ≤ fuel) : m.rbPrev fuel x = some l₁.getLast? := by
  have hreverse : t.toList.reverse = l₂.reverse ++ x :: l₁.reverse := by simp [hlist]
  rw [← List.head?_reverse]
  exact neighbour_of_order (d := .right) h hreverse hfuel

theorem IsTree.next (h : IsTree m (l₁ ++ x :: l₂)) (hfuel : (l₁ ++ x :: l₂).length ≤ fuel) :
    m.rbNext fuel x = some l₂.head? := by
  obtain ⟨t, n, hrep, -, hlist⟩ := h
  exact rbNext_spec hrep hlist (hlist ▸ hfuel)

theorem IsTree.prev (h : IsTree m (l₁ ++ x :: l₂)) (hfuel : (l₁ ++ x :: l₂).length ≤ fuel) :
    m.rbPrev fuel x = some l₁.getLast? := by
  obtain ⟨t, n, hrep, -, hlist⟩ := h
  exact rbPrev_spec hrep hlist (hlist ▸ hfuel)

/-! ## Children before the node -/

omit [DecidableEq α] in
theorem rbLeftDeepestNode_spec (h : Holds m p t) (hroot : t.root = some x)
    (hfuel : t.height ≤ fuel) : m.rbLeftDeepestNode fuel x = t.postorder.head? := by
  induction fuel generalizing t x p with
  | zero =>
    obtain ⟨c, l, r, rfl⟩ := root_eq_some_iff.mp hroot
    simp [height] at hfuel
  | succ fuel ih =>
    obtain ⟨c, l, r, rfl⟩ := root_eq_some_iff.mp hroot
    obtain ⟨-, -, hleft, hright, hl, hr⟩ := h
    simp only [height] at hfuel
    rw [Memory.rbLeftDeepestNode, hleft, postorder]
    cases l with
    | node cl ll y rl =>
      obtain ⟨z, zs, hcons⟩ := postorder_eq_cons (root_node (c := cl) (l := ll) (x := y) (r := rl))
      simp only [root_node]
      rw [ih hl root_node (by omega), hcons]
      rfl
    | nil =>
      simp only [root_nil, hright]
      cases r with
      | node cr lr y rr =>
        obtain ⟨z, zs, hcons⟩ := postorder_eq_cons
          (root_node (c := cr) (l := lr) (x := y) (r := rr))
        simp only [root_node]
        rw [ih hr root_node (by omega), hcons]
        rfl
      | nil => rfl

omit [DecidableEq α] in
theorem rbLeftDeepestNode_map (h : Holds m p t) (hroot : t.root = some x)
    (hfuel : t.height ≤ fuel) :
    (m.rbLeftDeepestNode fuel x).map some = some t.postorder.head? := by
  obtain ⟨y, ys, hcons⟩ := postorder_eq_cons hroot
  rw [rbLeftDeepestNode_spec h hroot hfuel, hcons]
  rfl

omit [DecidableEq α] in
theorem rbFirstPostorder_spec (h : Represents m t) (hfuel : t.toList.length ≤ fuel) :
    m.rbFirstPostorder fuel = some t.postorder.head? := by
  unfold Memory.rbFirstPostorder
  rw [h.root]
  cases hroot : t.root with
  | none =>
    rw [root_eq_none_iff.mp hroot]
    rfl
  | some x => exact rbLeftDeepestNode_map h.holds hroot ((height_le_length t).trans hfuel)

theorem nextPostorder_plug (h : Represents m (plug (.node c l x r) path))
    (hfuel : (plug (.node c l x r) path).toList.length ≤ fuel) :
    m.rbNextPostorder fuel x = some (postAfter path).head? := by
  obtain ⟨hpath, ⟨hparent, -⟩, hnodup⟩ := represents_plug.mp h
  rw [root_node] at hpath
  unfold Memory.rbNextPostorder
  rw [hparent]
  cases path with
  | nil => rfl
  | cons f path =>
    obtain ⟨d, k, y, s⟩ := f
    obtain ⟨-, -, hnear, hfar, hs, -⟩ := hpath
    have hlength := (toList_plug_perm (.node c l x r) (⟨d, k, y, s⟩ :: path)).length_eq
    have hle := height_le_length s
    simp only [values_cons, List.length_append, List.length_cons] at hlength
    simp only [top_cons]
    cases d with
    | left =>
      have hright : m.child .right y = s.root := hfar
      rw [hright]
      cases hroot : s.root with
      | none =>
        obtain rfl := root_eq_none_iff.mp hroot
        rfl
      | some z =>
        obtain ⟨w, ws, hcons⟩ := postorder_eq_cons hroot
        simp only [show m.child .left y = some x from hnear, if_true]
        rw [rbLeftDeepestNode_map hs hroot (hle.trans (by omega)), postAfter, hcons]
        rfl
    | right =>
      have hne : m.child .left y ≠ some x := by
        intro heq
        have hmem : x ∈ s.toList := mem_of_root (hfar.symm.trans heq)
        have hx : x ∈ (ColorTree.node c l x r).toList := by simp
        exact (nodup_plug.mp hnodup).2.2 hx (by simp [hmem])
      simp only [show m.child .right y = some x from hnear, if_neg hne]
      rfl

theorem rbNextPostorder_spec (h : Represents m t) (hlist : t.postorder = l₁ ++ x :: l₂)
    (hfuel : t.toList.length ≤ fuel) : m.rbNextPostorder fuel x = some l₂.head? := by
  have hx : x ∈ t.toList := (postorder_perm t).mem_iff.mp (by simp [hlist])
  have hnodup := (postorder_perm t).nodup_iff.mpr h.nodup
  obtain ⟨c, l, r, path, rfl⟩ := exists_plug hx
  obtain ⟨front, hfront⟩ := exists_postorder_plug (.node c l x r) path
  rw [nextPostorder_plug h hfuel]
  have hsplit : (plug (.node c l x r) path).postorder =
      (front ++ (l.postorder ++ r.postorder)) ++ x :: postAfter path := by
    simp [hfront, postorder]
  rw [(eq_of_split (hsplit ▸ hnodup) (hsplit.symm.trans hlist)).2]

/-! ## Loops over the tree -/

omit [DecidableEq α] in
theorem forEach_of_next {next : α → Option (Option α)}
    (h : ∀ front x rest, l₁ = front ++ x :: rest → next x = some rest.head?)
    (hsuffix : l₂ <:+ l₁) (hfuel : l₂.length < fuel) :
    Memory.forEach next fuel l₂.head? = some l₂ := by
  induction fuel generalizing l₂ with
  | zero => exact absurd hfuel (Nat.not_lt_zero _)
  | succ fuel ih =>
    cases l₂ with
    | nil => rfl
    | cons x rest =>
      obtain ⟨front, hfront⟩ := hsuffix
      have hrest : rest <:+ l₁ := ⟨front ++ [x], by simp [← hfront]⟩
      rw [List.head?_cons, Memory.forEach, h front x rest hfront.symm, Option.bind_some,
        ih hrest (Nat.lt_of_succ_lt_succ hfuel), Option.map_some]

theorem forEach_rbNext (h : Represents m t) (hlist : l₂ <:+ t.toList)
    (hfuel : t.toList.length < fuel) :
    Memory.forEach (m.rbNext fuel) fuel l₂.head? = some l₂ :=
  forEach_of_next (fun _ _ _ hsplit => rbNext_spec h hsplit hfuel.le) hlist
    (hlist.length_le.trans_lt hfuel)

theorem forEach_rbPrev (h : Represents m t) (hfuel : t.toList.length < fuel) :
    Memory.forEach (m.rbPrev fuel) fuel t.toList.getLast? = some t.toList.reverse := by
  rw [← List.head?_reverse]
  refine forEach_of_next (fun front x rest hsplit => ?_) List.suffix_rfl (by simpa using hfuel)
  have hlist : t.toList = rest.reverse ++ x :: front.reverse := by
    simpa using congrArg List.reverse hsplit
  rw [rbPrev_spec h hlist hfuel.le, List.getLast?_reverse]

theorem forEach_rbNextPostorder (h : Represents m t) (hfuel : t.toList.length < fuel) :
    Memory.forEach (m.rbNextPostorder fuel) fuel t.postorder.head? = some t.postorder :=
  forEach_of_next (fun _ _ _ hsplit => rbNextPostorder_spec h hsplit hfuel.le) List.suffix_rfl
    (by rwa [(postorder_perm t).length_eq])

end Training.RbTree
