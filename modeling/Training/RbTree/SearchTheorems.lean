/-
Training.RbTree.SearchTheorems — `rb_add`, `rb_find_add`, `rb_find`,
`rb_find_first` and `rb_next_match`.

The comparison is a `go : α → Option Side`, and a tree is in order for it
when `Guides go` holds of its list.

* `descend_spec` — the loop ends at a node for which `go` says nothing, or
  at a hole to which `go` leads.
* `insertAt_spec` — linking a node into the hole, and `rb_insert_color`.
* `rbFind_spec`, `rbFindFirst_spec` — what is found.
* `forEach_rbNextMatch` — `rb_for_each` visits what matches.
-/
import Training.RbTree.InsertTheorems
import Training.RbTree.NeighbourTheorems

namespace Training.RbTree

open Training.Lib.RedBlack Training.Lib.RedBlack.ColorTree

universe u

variable {α : Type u} [DecidableEq α] {m : Memory α} {t l r : ColorTree α} {x : α} {c : Color}
  {p : Option α} {path : Spine α} {fuel k : Nat} {go : α → Option Side} {cmp : α → Int}
  {l₁ l₂ xs : List α}

/-! ## A place for a node -/

/-- The way to the hole only goes left. -/
def leftmost (path : Spine α) : Bool := path.all fun f => f.side = .left

omit [DecidableEq α] in
theorem before_of_leftmost (h : leftmost path = true) : before path = [] :=
  before_eq_nil fun f hf => by simpa using List.all_eq_true.mp h f hf

omit [DecidableEq α] in
theorem not_leftmost (h : leftmost path = false) : before path ≠ [] := by
  induction path with
  | nil => cases h
  | cons f path ih =>
    obtain ⟨d, c, x, s⟩ := f
    cases d with
    | left => exact ih (by simpa [leftmost] using h)
    | right => simp [before]

/-- Where `descend` may end in the tree `t`. -/
def Ends (go : α → Option Side) (t : ColorTree α) (result : Option (Memory.Descent α)) : Prop :=
  (∃ x ∈ t.toList, go x = none ∧ result = some (.found x)) ∨
    ∃ path, plug .nil path = t ∧ Follows go path ∧
      result = some (.free (top path) (linkOf path) (leftmost path))

omit [DecidableEq α] in
theorem descend_ends (hpath : HoldsPath m t.root path) (hholds : Holds m (top path) t)
    (hfollows : Follows go path) (hfuel : t.height < fuel) :
    Ends go (plug t path)
      (Memory.descend go fuel m (top path) (linkOf path) (leftmost path)) := by
  induction fuel generalizing t path with
  | zero => exact absurd hfuel (Nat.not_lt_zero _)
  | succ fuel ih =>
    rw [Memory.descend, hpath.load]
    cases t with
    | nil => exact .inr ⟨path, rfl, hfollows, rfl⟩
    | node c l x r =>
      simp only [root_node]
      cases hgo : go x with
      | none => exact .inl ⟨x, (toList_plug_perm _ _).mem_iff.mpr (by simp), hgo, rfl⟩
      | some d =>
        obtain ⟨a, b, hjoin⟩ := exists_join d (root_node (c := c) (l := l) (x := x) (r := r))
        rw [hjoin] at hpath hholds hfuel ⊢
        rw [height_join] at hfuel
        rw [root_join] at hpath
        obtain ⟨hpath', hholds'⟩ := (holds_frame (f := ⟨d, _, x, b⟩)).mpr ⟨hpath, hholds⟩
        have hdown := ih hpath' hholds' (follows_cons.mpr ⟨hgo, hfollows⟩) (by omega)
        have hleft : leftmost (⟨d, c, x, b⟩ :: path) = (leftmost path && decide (d = .left)) :=
          Bool.and_comm (decide (d = .left)) (leftmost path)
        rw [hleft] at hdown
        exact hdown

omit [DecidableEq α] in
theorem descend_spec (go : α → Option Side) (h : Represents m t) (hfuel : t.toList.length < fuel) :
    Ends go t (Memory.descend go fuel m none .root true) := by
  have hfuel' := (height_le_length t).trans_lt hfuel
  exact @descend_ends _ m t [] fuel go h.root h.holds follows_nil hfuel'

theorem rbLinkNode_holds (hpath : HoldsPath m none path)
    (hnodup : (plug (.node .red .nil x .nil) path).toList.Nodup) :
    HoldsPath (m.rbLinkNode x (top path) (linkOf path)) (some x) path ∧
      Holds (m.rbLinkNode x (top path) (linkOf path)) (top path) (.node .red .nil x .nil) := by
  obtain ⟨-, hvalues, hdisj⟩ := nodup_plug.mp hnodup
  have hx : x ∉ values path := fun hmem => hdisj (by simp) hmem
  obtain ⟨m₁, hm₁⟩ : ∃ m₁, m₁ = ((m.rbSetParentColor x (top path) .red).setChild .right x
      none).setChild .left x none := ⟨_, rfl⟩
  have hlink : m.rbLinkNode x (top path) (linkOf path) = m₁.store (some x) (linkOf path) := by
    rw [hm₁]
    rfl
  have hpath₁ : HoldsPath m₁ none path := by
    refine hpath.congr (by rw [hm₁]; rfl) fun y hy => ?_
    have hyx : y ≠ x := fun heq => hx (heq ▸ hy)
    rw [hm₁]
    exact ⟨by simp [hyx], by simp [hyx], fun e => by simp [hyx]⟩
  have hsame := same_store (m := m₁) (v := some x) hx
  rw [hlink]
  refine ⟨hpath₁.store hvalues, hsame.parent.trans ?_, hsame.color.trans ?_,
    (hsame.child _).trans ?_, (hsame.child _).trans ?_, trivial, trivial⟩
  · simp [hm₁]
  · simp [hm₁]
  · simp [hm₁]
  · simp [hm₁]

/-- The new node is linked in, and the tree is balanced. -/
theorem insertAt_spec (h : Represents m (plug .nil path))
    (hb : WellColored (plug .nil path) .black k)
    (hx : x ∉ (plug .nil path).toList) (hfuel : (plug .nil path).toList.length < fuel) :
    ∃ m' t', Memory.rbInsertColor fuel (m.rbLinkNode x (top path) (linkOf path)) x = some m' ∧
      Represents m' t' ∧ t'.toList = before path ++ x :: after path ∧
        ∃ j, WellColored t' .black j := by
  obtain ⟨hpath, -, hnodup⟩ := represents_plug.mp h
  have hlist : (plug (.node .red .nil x .nil) path).toList = before path ++ x :: after path := by
    simp [toList_plug]
  have hnodup' : (plug (.node .red .nil x .nil) path).toList.Nodup := by
    rw [hlist, List.nodup_middle, List.nodup_cons]
    rw [toList_plug] at hnodup hx
    simp only [toList_nil, List.append_nil] at hx hnodup
    exact ⟨hx, hnodup⟩
  obtain ⟨hpath', hholds'⟩ := rbLinkNode_holds hpath hnodup'
  obtain ⟨c, n, hnil, hfits⟩ := exists_fits hb
  obtain ⟨rfl, rfl⟩ := wellColored_nil_iff.mp hnil
  have hle := length_le_values path
  have hlength := (toList_plug_perm .nil path).length_eq
  simp only [toList_nil, List.nil_append] at hlength
  have hlen : path.length < fuel := by omega
  obtain ⟨m', t', hloop, hrep, hlist', hj⟩ := insertLoop_spec root_node (.red .nil .nil) hfits
    hpath' hholds' hnodup' hlen
  refine ⟨m', t', ?_, hrep, hlist'.trans hlist, hj⟩
  unfold Memory.rbInsertColor Memory.rbRedParent
  rw [hholds'.2.1, hholds'.1]
  exact hloop

/-- A tree with a new node between `l₁` and `l₂`. -/
def Linked (m : Memory α) (fuel : Nat) (x : α) (l₁ l₂ : List α) (parent : Option α)
    (link : Memory.Link α) : Prop :=
  ∃ m', Memory.rbInsertColor fuel (m.rbLinkNode x parent link) x = some m' ∧
    IsTree m' (l₁ ++ x :: l₂)

theorem IsTree.descend (h : IsTree m xs) (hx : x ∉ xs) (hguides : Guides go xs)
    (hfuel : xs.length < fuel) :
    (∃ y ∈ xs, go y = none ∧ Memory.descend go fuel m none .root true = some (.found y)) ∨
      ∃ parent link left l₁ l₂,
        Memory.descend go fuel m none .root true = some (.free parent link left) ∧
          Linked m fuel x l₁ l₂ parent link ∧ xs = l₁ ++ l₂ ∧ (left = true ↔ l₁ = []) ∧
          (∀ y ∈ l₁, go y = some .right) ∧ ∀ y ∈ l₂, go y = some .left := by
  obtain ⟨t, n, hrep, hb, rfl⟩ := h
  rcases descend_spec go hrep hfuel with hfound | ⟨path, rfl, hfollows, hdescend⟩
  · exact .inl hfound
  · have hlist : (plug .nil path).toList = before path ++ after path := by simp [toList_plug]
    obtain ⟨m', t', hinsert, hrep', hlist', j, hj⟩ := insertAt_spec hrep hb hx hfuel
    refine .inr ⟨_, _, _, _, _, hdescend, ⟨m', hinsert, t', j, hrep', hj, hlist'⟩, hlist, ?_,
      hfollows.parts (hlist ▸ hguides)⟩
    constructor
    · exact before_of_leftmost
    · intro hnil
      cases hleft : leftmost path with
      | true => rfl
      | false => exact absurd hnil (not_leftmost hleft)

/-- A new node goes behind those it is not less than. -/
theorem IsTree.descend_less {less : α → α → Bool} (h : IsTree m xs) (hx : x ∉ xs)
    (hguides : Guides (Memory.lessSide less x) xs) (hfuel : xs.length < fuel) :
    ∃ parent link left l₁ l₂,
      Memory.descend (Memory.lessSide less x) fuel m none .root true =
        some (.free parent link left) ∧
      Linked m fuel x l₁ l₂ parent link ∧ xs = l₁ ++ l₂ ∧ (left = true ↔ l₁ = []) ∧
      (∀ y ∈ l₁, less x y = false) ∧ ∀ y ∈ l₂, less x y = true := by
  rcases h.descend hx hguides hfuel with
    ⟨y, -, hgo, -⟩ | ⟨parent, link, left, l₁, l₂, hdescend, hlinked, hlist, hleft, hbefore, hafter⟩
  · unfold Memory.lessSide at hgo
    split at hgo <;> cases hgo
  · refine ⟨parent, link, left, l₁, l₂, hdescend, hlinked, hlist, hleft, fun y hy => ?_,
      fun y hy => ?_⟩
    · simpa [Memory.lessSide] using hbefore y hy
    · simpa [Memory.lessSide] using hafter y hy

theorem IsTree.add {less : α → α → Bool} (h : IsTree m xs) (hx : x ∉ xs)
    (hguides : Guides (Memory.lessSide less x) xs) (hfuel : xs.length < fuel) :
    ∃ m' l₁ l₂, m.rbAdd less fuel x = some m' ∧ IsTree m' (l₁ ++ x :: l₂) ∧ xs = l₁ ++ l₂ ∧
      (∀ y ∈ l₁, less x y = false) ∧ ∀ y ∈ l₂, less x y = true := by
  obtain ⟨parent, link, left, l₁, l₂, hdescend, ⟨m', hinsert, htree⟩, hlist, -, hsides⟩ :=
    h.descend_less hx hguides hfuel
  refine ⟨m', l₁, l₂, ?_, htree, hlist, hsides⟩
  unfold Memory.rbAdd
  rw [hdescend]
  exact hinsert

theorem cmpSide_none_iff {z : Int} : Memory.cmpSide z = none ↔ z = 0 := by
  grind [Memory.cmpSide]

theorem cmpSide_left_iff {z : Int} : Memory.cmpSide z = some .left ↔ z < 0 := by
  grind [Memory.cmpSide]

theorem cmpSide_right_iff {z : Int} : Memory.cmpSide z = some .right ↔ 0 < z := by
  grind [Memory.cmpSide]

theorem IsTree.findAdd (cmp : α → α → Int) (h : IsTree m xs) (hx : x ∉ xs)
    (hguides : Guides (fun y => Memory.cmpSide (cmp x y)) xs) (hfuel : xs.length < fuel) :
    (∃ y ∈ xs, cmp x y = 0 ∧ m.rbFindAdd cmp fuel x = some (m, some y)) ∨
      ∃ m' l₁ l₂, m.rbFindAdd cmp fuel x = some (m', none) ∧ IsTree m' (l₁ ++ x :: l₂) ∧
        xs = l₁ ++ l₂ ∧ (∀ y ∈ l₁, 0 < cmp x y) ∧ ∀ y ∈ l₂, cmp x y < 0 := by
  unfold Memory.rbFindAdd
  rcases h.descend hx hguides hfuel with ⟨y, hy, hgo, hdescend⟩ |
    ⟨parent, link, left, l₁, l₂, hdescend, ⟨m', hinsert, htree⟩, hlist, -, hbefore, hafter⟩
  · rw [hdescend]
    exact .inl ⟨y, hy, cmpSide_none_iff.mp hgo, rfl⟩
  · refine .inr ⟨m', l₁, l₂, ?_, htree, hlist, fun y hy => cmpSide_right_iff.mp (hbefore y hy),
      fun y hy => cmpSide_left_iff.mp (hafter y hy)⟩
    rw [hdescend]
    simp [hinsert]

/-! ## What matches -/

/-- What `rb_find` may give. -/
def Found (cmp : α → Int) (l : List α) : Option α → Prop
  | some y => y ∈ l ∧ cmp y = 0
  | none => ∀ y ∈ l, cmp y ≠ 0

omit [DecidableEq α] in
theorem Found.mono {found : Option α} (h : Found cmp l₁ found) (hsub : ∀ y ∈ l₁, y ∈ l₂)
    (hrest : ∀ y ∈ l₂, y ∈ l₁ ∨ cmp y ≠ 0) : Found cmp l₂ found := by
  cases found with
  | some y => exact ⟨hsub y h.1, h.2⟩
  | none => exact fun y hy => (hrest y hy).elim (h y) id

omit [DecidableEq α] in
theorem cmp_left (h : Guides (fun y => Memory.cmpSide (cmp y)) (l₁ ++ x :: l₂)) (hx : cmp x < 0) :
    ∀ y ∈ l₂, cmp y < 0 := by
  intro y hy
  have hleft : Memory.cmpSide (cmp y) = some .left := h.left (cmpSide_left_iff.mpr hx) hy
  exact cmpSide_left_iff.mp hleft

omit [DecidableEq α] in
theorem cmp_right (h : Guides (fun y => Memory.cmpSide (cmp y)) (l₁ ++ x :: l₂)) (hx : 0 < cmp x) :
    ∀ y ∈ l₁, 0 < cmp y := by
  intro y hy
  have hright : Memory.cmpSide (cmp y) = some .right := h.right (cmpSide_right_iff.mpr hx) hy
  exact cmpSide_right_iff.mp hright

omit [DecidableEq α] in
theorem findLoop_spec (hholds : Holds m p t)
    (hguides : Guides (fun y => Memory.cmpSide (cmp y)) t.toList) (hfuel : t.height < fuel) :
    ∃ found, Memory.findLoop cmp fuel m t.root = some found ∧ Found cmp t.toList found := by
  induction t generalizing fuel p with
  | nil =>
    obtain - | fuel := fuel
    · simp at hfuel
    · exact ⟨none, rfl, by simp [Found]⟩
  | node c l x r ihl ihr =>
    obtain - | fuel := fuel
    · simp at hfuel
    obtain ⟨-, -, hleft, hright, hl, hr⟩ := hholds
    simp only [height] at hfuel
    rw [root_node, Memory.findLoop, hleft, hright]
    rcases Int.lt_trichotomy (cmp x) 0 with hc | hc | hc
    · have hlt : l.height < fuel := by omega
      obtain ⟨found, hloop, hfound⟩ := ihl hl (hguides.sublist (by simp)) hlt
      have hbehind := cmp_left hguides hc
      refine ⟨found, by simp [hc, hloop], hfound.mono (fun y hy => by simp [hy]) fun y hy => ?_⟩
      simp only [toList_node, List.mem_append, List.mem_cons] at hy
      rcases hy with hy | rfl | hy
      · exact .inl hy
      · exact .inr hc.ne
      · exact .inr (hbehind y hy).ne
    · exact ⟨some x, by simp [hc], by simp [Found, hc]⟩
    · have hlt : r.height < fuel := by omega
      obtain ⟨found, hloop, hfound⟩ := ihr hr (hguides.sublist (by simp)) hlt
      have hbefore := cmp_right hguides hc
      refine ⟨found, by simp [hc, hc.not_gt, hloop], hfound.mono (fun y hy => by simp [hy])
        fun y hy => ?_⟩
      simp only [toList_node, List.mem_append, List.mem_cons] at hy
      rcases hy with hy | rfl | hy
      · exact .inr (hbefore y hy).ne'
      · exact .inr hc.ne'
      · exact .inl hy

omit [DecidableEq α] in
theorem rbFind_spec (h : Represents m t)
    (hguides : Guides (fun y => Memory.cmpSide (cmp y)) t.toList) (hfuel : t.height < fuel) :
    ∃ found, m.rbFind cmp fuel = some found ∧ Found cmp t.toList found := by
  unfold Memory.rbFind
  rw [h.root]
  exact findLoop_spec h.holds hguides hfuel

omit [DecidableEq α] in
theorem findFirstLoop_spec {found : Option α} (hholds : Holds m p t)
    (hguides : Guides (fun y => Memory.cmpSide (cmp y)) t.toList) (hfuel : t.height < fuel) :
    Memory.findFirstLoop cmp fuel m t.root found =
      some ((t.toList.find? fun y => cmp y = 0).or found) := by
  induction t generalizing fuel p found with
  | nil =>
    obtain - | fuel := fuel
    · simp at hfuel
    · rfl
  | node c l x r ihl ihr =>
    obtain - | fuel := fuel
    · simp at hfuel
    obtain ⟨-, -, hleft, hright, hl, hr⟩ := hholds
    simp only [height] at hfuel
    have hll : l.height < fuel := by omega
    have hlr : r.height < fuel := by omega
    rw [root_node, Memory.findFirstLoop, hleft, hright, toList_node, List.find?_append]
    rcases Int.lt_trichotomy (cmp x) 0 with hc | hc | hc
    · have hbehind : (x :: r.toList).find? (fun y => cmp y = 0) = none := by
        have := cmp_left hguides hc
        simp only [List.find?_eq_none, List.mem_cons]
        grind
      simp only [hc.le, if_true, if_neg hc.ne, ihl hl (hguides.sublist (by simp)) hll, hbehind,
        Option.or_none]
    · simp [hc, ihl hl (hguides.sublist (by simp)) hll]
    · have hbefore : l.toList.find? (fun y => cmp y = 0) = none := by
        have := cmp_right hguides hc
        simp only [List.find?_eq_none]
        grind
      simp only [hc.not_ge, if_false, ihr hr (hguides.sublist (by simp)) hlr, hbefore,
        Option.none_or, List.find?_cons]
      simp [hc.ne']

omit [DecidableEq α] in
/-- `rb_find_first` gives the first node that matches. -/
theorem rbFindFirst_spec (h : Represents m t)
    (hguides : Guides (fun y => Memory.cmpSide (cmp y)) t.toList) (hfuel : t.height < fuel) :
    m.rbFindFirst cmp fuel = some (t.toList.filter (cmp · = 0)).head? := by
  unfold Memory.rbFindFirst
  rw [h.root, findFirstLoop_spec h.holds hguides hfuel, List.head?_filter, Option.or_none]

theorem forEach_rbNextMatch (h : Represents m t)
    (hguides : Guides (fun y => Memory.cmpSide (cmp y)) t.toList) (hfuel : t.toList.length < fuel) :
    Memory.forEach (m.rbNextMatch cmp fuel) fuel (t.toList.filter (cmp · = 0)).head? =
      some (t.toList.filter (cmp · = 0)) := by
  have hnone : t.toList.filter (cmp · = 0) =
      t.toList.filter (fun y => Memory.cmpSide (cmp y) = none) :=
    List.filter_congr fun y _ => by simp [cmpSide_none_iff]
  obtain ⟨behind, hbehind⟩ : ∃ behind, behind =
      t.toList.filter (fun y => Memory.cmpSide (cmp y) = some .left) := ⟨_, rfl⟩
  have hlist := hguides.split
  rw [← hnone, ← hbehind] at hlist
  refine forEach_of_next (fun front x rest hsplit => ?_) List.suffix_rfl
    ((List.length_filter_le _ _).trans_lt hfuel)
  rw [hsplit, List.append_assoc, List.cons_append, ← List.append_assoc] at hlist
  unfold Memory.rbNextMatch
  rw [rbNext_spec h hlist hfuel.le]
  cases rest with
  | nil =>
    cases behind with
    | nil => rfl
    | cons z zs =>
      have hz : z ∈ t.toList.filter (fun y => Memory.cmpSide (cmp y) = some .left) := by
        simp [← hbehind]
      have hlt : cmp z < 0 := cmpSide_left_iff.mp (by simpa using (List.mem_filter.mp hz).2)
      simp [hlt.ne]
  | cons z zs =>
    have hz : z ∈ t.toList.filter (cmp · = 0) := by simp [hsplit]
    have hzero : cmp z = 0 := by simpa using (List.mem_filter.mp hz).2
    simp [hzero]

end Training.RbTree
