/-
Training.RbTree.HoldsTheorems — trees in memory.

`Holds m p t`: the nodes of `t` are in the memory with their colours,
children and parents, and `p` is above the root. `HoldsPath m hole path` is
the same for a tree with a hole, where a pointer to `hole` is stored, and
`holds_plug` puts the two together. A store into a node leaves alone what
does not have that node (`holds_congr`, `holdsPath_congr`), and a pointer
stored in the hole changes nothing else (`holdsPath_store`).
-/
import Training.RbTree.Rbtree

namespace Training.RbTree

open Training.Lib.RedBlack Training.Lib.RedBlack.ColorTree

universe u

variable {α : Type u} {m m' : Memory α} {t a b l r s : ColorTree α} {x y old new : α}
  {c : Color} {d e : Side} {p q v tmp hole : Option α} {path rest : Spine α} {f : Frame α}

/-! ## Trees -/

/-- The two memories have the same node at `x`. -/
structure Same (m m' : Memory α) (x : α) : Prop where
  parent : m'.parent x = m.parent x
  color : m'.color x = m.color x
  child : ∀ e, m'.child e x = m.child e x

def Holds (m : Memory α) : Option α → ColorTree α → Prop
  | _, .nil => True
  | p, .node c l x r =>
    m.parent x = p ∧ m.color x = c ∧ m.child .left x = l.root ∧ m.child .right x = r.root ∧
      Holds m (some x) l ∧ Holds m (some x) r

@[simp] theorem holds_nil : Holds m p .nil := trivial

theorem holds_join : Holds m p (join d c x a b) ↔
    m.parent x = p ∧ m.color x = c ∧ m.child d x = a.root ∧ m.child d.other x = b.root ∧
      Holds m (some x) a ∧ Holds m (some x) b := by
  cases d with
  | left => rfl
  | right =>
    simp only [join_right, Holds, Side.other]
    tauto

theorem Holds.congr (h : Holds m p t) (hsame : ∀ x ∈ t.toList, Same m m' x) : Holds m' p t := by
  induction t generalizing p with
  | nil => trivial
  | node c l x r ihl ihr =>
    obtain ⟨hparent, hcolor, hleft, hright, hl, hr⟩ := h
    have hx := hsame x (by simp)
    refine ⟨hx.parent.trans hparent, hx.color.trans hcolor, (hx.child _).trans hleft,
      (hx.child _).trans hright, ihl hl fun y hy => hsame y ?_, ihr hr fun y hy => hsame y ?_⟩
    · simp [hy]
    · simp [hy]

theorem Holds.reparent (h : Holds m p t) (hnodup : t.toList.Nodup)
    (hroot : ∀ x, t.root = some x →
      m'.parent x = q ∧ m'.color x = c ∧ ∀ e, m'.child e x = m.child e x)
    (hsame : ∀ x ∈ t.toList, t.root ≠ some x → Same m m' x) : Holds m' q (recolor c t) := by
  cases t with
  | nil => trivial
  | node c' l x r =>
    obtain ⟨-, -, hleft, hright, hl, hr⟩ := h
    obtain ⟨hx, hnodup⟩ := List.nodup_cons.mp (List.nodup_middle.mp hnodup)
    obtain ⟨hparent, hcolor, hchild⟩ := hroot x rfl
    have hne : ∀ y ∈ l.toList ++ r.toList, Same m m' y := by
      intro y hy
      have hyx : y ≠ x := fun heq => hx (heq ▸ hy)
      refine hsame y ?_ (by simpa using hyx.symm)
      simp only [toList_node, List.mem_append, List.mem_cons] at hy ⊢
      tauto
    exact ⟨hparent, hcolor, (hchild _).trans hleft, (hchild _).trans hright,
      hl.congr fun y hy => hne y (List.mem_append_left _ hy),
      hr.congr fun y hy => hne y (List.mem_append_right _ hy)⟩

/-! ## Trees with a hole -/

def HoldsPath (m : Memory α) : Option α → Spine α → Prop
  | hole, [] => m.root = hole
  | hole, f :: path =>
    m.parent f.value = top path ∧ m.color f.value = f.color ∧ m.child f.side f.value = hole ∧
      m.child f.side.other f.value = f.sibling.root ∧ Holds m (some f.value) f.sibling ∧
      HoldsPath m (some f.value) path

@[simp] theorem holdsPath_cons : HoldsPath m hole (f :: path) ↔
    m.parent f.value = top path ∧ m.color f.value = f.color ∧ m.child f.side f.value = hole ∧
      m.child f.side.other f.value = f.sibling.root ∧ Holds m (some f.value) f.sibling ∧
      HoldsPath m (some f.value) path := Iff.rfl

theorem HoldsPath.congr (h : HoldsPath m hole path) (hroot : m'.root = m.root)
    (hsame : ∀ x ∈ values path, Same m m' x) : HoldsPath m' hole path := by
  induction path generalizing hole with
  | nil => exact hroot.trans h
  | cons f path ih =>
    obtain ⟨hparent, hcolor, hnear, hfar, hsib, hrest⟩ := h
    have hx := hsame f.value (by simp)
    refine ⟨hx.parent.trans hparent, hx.color.trans hcolor, (hx.child _).trans hnear,
      (hx.child _).trans hfar, hsib.congr fun y hy => hsame y ?_, ih hrest fun y hy => hsame y ?_⟩
    · simp [hy]
    · simp [hy]

/-- The lowest frame and the hole, as a subtree. -/
theorem holds_frame :
    HoldsPath m t.root (f :: path) ∧ Holds m (some f.value) t ↔
      HoldsPath m (some f.value) path ∧
        Holds m (top path) (join f.side f.color f.value t f.sibling) := by
  rw [holdsPath_cons, holds_join]
  tauto

/-- The tree is the whole tree of the memory. -/
structure Represents (m : Memory α) (t : ColorTree α) : Prop where
  root : m.root = t.root
  holds : Holds m none t
  nodup : t.toList.Nodup

/-- The tree of the memory is balanced, and `xs` are its nodes in order. -/
def IsTree (m : Memory α) (xs : List α) : Prop :=
  ∃ t n, Represents m t ∧ WellColored t .black n ∧ t.toList = xs

theorem isTree_nil (h : m.root = none) : IsTree m [] := ⟨.nil, 0, ⟨h, trivial, .nil⟩, .nil, rfl⟩

theorem IsTree.nodup {xs : List α} (h : IsTree m xs) : xs.Nodup := by
  obtain ⟨t, n, hrep, -, rfl⟩ := h
  exact hrep.nodup

theorem holds_plug_append {front : Spine α} :
    HoldsPath m t.root (front ++ path) ∧ Holds m (top (front ++ path)) t ↔
      HoldsPath m (plug t front).root path ∧ Holds m (top path) (plug t front) := by
  induction front generalizing t with
  | nil => rfl
  | cons f front ih =>
    rw [plug_cons, ← ih, root_join, List.cons_append, top_cons, holds_frame]

theorem holds_plug :
    (m.root = (plug t path).root ∧ Holds m none (plug t path)) ↔
      HoldsPath m t.root path ∧ Holds m (top path) t := by
  rw [← List.append_nil path, holds_plug_append, List.append_nil]
  rfl

theorem represents_plug : Represents m (plug t path) ↔
    HoldsPath m t.root path ∧ Holds m (top path) t ∧ (plug t path).toList.Nodup := by
  rw [← and_assoc, ← holds_plug, and_assoc]
  exact ⟨fun h => ⟨h.root, h.holds, h.nodup⟩, fun h => ⟨h.1, h.2.1, h.2.2⟩⟩

/-- Where the pointer to the hole is stored. -/
def linkOf : Spine α → Memory.Link α
  | [] => .root
  | f :: _ => .child f.side f.value

theorem HoldsPath.load (h : HoldsPath m hole path) : m.load (linkOf path) = hole := by
  cases path with
  | nil => exact h
  | cons f path => exact h.2.2.1

/-! ## Stores -/

variable [DecidableEq α]

namespace Memory

@[simp] theorem setChild_child :
    (m.setChild d x v).child e y = if e = d ∧ y = x then v else m.child e y := rfl

@[simp] theorem setChild_parent : (m.setChild d x v).parent = m.parent := rfl

@[simp] theorem setChild_color : (m.setChild d x v).color = m.color := rfl

@[simp] theorem setChild_root : (m.setChild d x v).root = m.root := rfl

@[simp] theorem rbSetParentColor_parent :
    (m.rbSetParentColor x p c).parent y = if y = x then p else m.parent y := rfl

@[simp] theorem rbSetParentColor_color :
    (m.rbSetParentColor x p c).color y = if y = x then c else m.color y := rfl

@[simp] theorem rbSetParentColor_child : (m.rbSetParentColor x p c).child = m.child := rfl

@[simp] theorem rbSetParentColor_root : (m.rbSetParentColor x p c).root = m.root := rfl

@[simp] theorem setParentColorIf_parent :
    (m.setParentColorIf tmp p c).parent y = if tmp = some y then p else m.parent y := by
  cases tmp with
  | none => simp [setParentColorIf]
  | some tmp => simp [setParentColorIf, eq_comm]

@[simp] theorem setParentColorIf_color :
    (m.setParentColorIf tmp p c).color y = if tmp = some y then c else m.color y := by
  cases tmp with
  | none => simp [setParentColorIf]
  | some tmp => simp [setParentColorIf, eq_comm]

@[simp] theorem setParentColorIf_child : (m.setParentColorIf tmp p c).child = m.child := by
  cases tmp <;> rfl

@[simp] theorem setParentColorIf_root : (m.setParentColorIf tmp p c).root = m.root := by
  cases tmp <;> rfl

@[simp] theorem rbSetParent_parent :
    (m.rbSetParent x p).parent y = if y = x then p else m.parent y := rfl

@[simp] theorem rbSetParent_color : (m.rbSetParent x p).color = m.color := by
  funext y
  by_cases hy : y = x <;> simp [rbSetParent, hy]

@[simp] theorem rbSetParent_child : (m.rbSetParent x p).child = m.child := rfl

@[simp] theorem rbSetParent_root : (m.rbSetParent x p).root = m.root := rfl

@[simp] theorem setParentIf_parent :
    (m.setParentIf tmp p).parent y = if tmp = some y then p else m.parent y := by
  cases tmp with
  | none => simp [setParentIf]
  | some tmp => simp [setParentIf, eq_comm]

@[simp] theorem setParentIf_color : (m.setParentIf tmp p).color = m.color := by
  cases tmp with
  | none => rfl
  | some tmp => exact rbSetParent_color

@[simp] theorem setParentIf_child : (m.setParentIf tmp p).child = m.child := by
  cases tmp <;> rfl

@[simp] theorem setParentIf_root : (m.setParentIf tmp p).root = m.root := by
  cases tmp <;> rfl

@[simp] theorem store_parent (link : Link α) : (m.store v link).parent = m.parent := by
  cases link <;> rfl

@[simp] theorem store_color (link : Link α) : (m.store v link).color = m.color := by
  cases link <;> rfl

end Memory

theorem same_store (hx : x ∉ values path) : Same m (m.store v (linkOf path)) x := by
  refine ⟨by simp, by simp, fun e => ?_⟩
  cases path with
  | nil => rfl
  | cons f path =>
    have hne : x ≠ f.value := by
      rintro rfl
      simp at hx
    simp [linkOf, Memory.store, hne]

theorem HoldsPath.store (h : HoldsPath m hole path) (hnodup : (values path).Nodup) :
    HoldsPath (m.store v (linkOf path)) v path := by
  cases path with
  | nil => rfl
  | cons f path =>
    obtain ⟨hparent, hcolor, hnear, hfar, hsib, hrest⟩ := h
    rw [values_cons, List.cons_append, List.nodup_cons, List.mem_append, not_or] at hnodup
    have hsame : ∀ y, y ≠ f.value → Same m (m.setChild f.side f.value v) y := fun y hy =>
      ⟨rfl, rfl, fun e => by simp [hy]⟩
    refine ⟨hparent, hcolor, by simp [linkOf, Memory.store],
      by simpa [linkOf, Memory.store] using hfar,
      hsib.congr fun y hy => hsame y ?_, hrest.congr rfl fun y hy => hsame y ?_⟩
    · exact fun heq => hnodup.1.1 (heq ▸ hy)
    · exact fun heq => hnodup.1.2 (heq ▸ hy)

/-- `__rb_change_child` stores into the hole. -/
theorem HoldsPath.changeChild (h : HoldsPath m (some old) path) (hold : old ∉ values path) :
    m.rbChangeChild old v (top path) = m.store v (linkOf path) := by
  cases path with
  | nil => rfl
  | cons f path =>
    obtain ⟨d, c, x, s⟩ := f
    obtain ⟨-, -, hnear, hfar, -, -⟩ := h
    simp only at hnear hfar
    cases d with
    | left => simp [Memory.rbChangeChild, hnear, linkOf, Memory.store]
    | right =>
      have hne : m.child .left x ≠ some old := by
        intro heq
        have hs : old ∈ s.toList := mem_of_root (hfar.symm.trans heq)
        simp [hs] at hold
      simp [Memory.rbChangeChild, hne, linkOf, Memory.store]

end Training.RbTree
