/-
Training.Lib.RedBlack — red-black trees, and trees with a hole.

A tree with a subtree taken out is a `Spine`: the frames from the hole up to
the root, each with the side the hole is on, the node, and the subtree on
the other side. `plug t path` is the tree with `t` in the hole.

* `toList_plug` — the values in order: those before the hole, those of `t`,
  those behind the hole.
* `WellColored t c n` — no red node has a red child, and each way down from the
  root, of colour `c`, has `n` black nodes. `Fits path c n` says that a
  balanced tree of colour `c` and black height `n` in the hole makes a
  balanced tree with a black root (`WellColored.plug`, `exists_fits`).
* `height_le_log` — a balanced tree is at most twice as high as a full one.

`join d` is `ColorTree.node` with the subtree on the side `d` first, so that a
statement and its mirror image are one statement.
-/
import Mathlib.Algebra.Ring.Nat
import Mathlib.Data.List.Nodup
import Mathlib.Data.Nat.Log
import Mathlib.Tactic.Common

namespace Training.Lib.RedBlack

universe u

inductive Color
  | red
  | black
  deriving DecidableEq

inductive Side
  | left
  | right
  deriving DecidableEq

def Side.other : Side → Side
  | .left => .right
  | .right => .left

@[simp] theorem Side.other_ne (d : Side) : d.other ≠ d := by cases d <;> simp [other]

@[simp] theorem Side.ne_other (d : Side) : d ≠ d.other := by cases d <;> simp [other]

@[simp] theorem Side.other_other (d : Side) : d.other.other = d := by cases d <;> rfl

inductive ColorTree (α : Type u)
  | nil
  | node (color : Color) (left : ColorTree α) (value : α) (right : ColorTree α)

variable {α : Type u} {t a b l r : ColorTree α} {x y : α} {c c' : Color} {d : Side} {n m : Nat}

namespace ColorTree

/-- The values from left to right. -/
def toList : ColorTree α → List α
  | nil => []
  | node _ l x r => l.toList ++ x :: r.toList

def root : ColorTree α → Option α
  | nil => none
  | node _ _ x _ => some x

/-- The leaves are black. -/
def color : ColorTree α → Color
  | nil => .black
  | node c _ _ _ => c

def height : ColorTree α → Nat
  | nil => 0
  | node _ l _ r => max l.height r.height + 1

/-- The children first of the left side, then of the right, then the node. -/
def postorder : ColorTree α → List α
  | nil => []
  | node _ l x r => l.postorder ++ r.postorder ++ [x]

/-- The node `x` with the subtree `near` on the side `d`. -/
def join (d : Side) (c : Color) (x : α) (near far : ColorTree α) : ColorTree α :=
  match d with
  | .left => node c near x far
  | .right => node c far x near

/-- The root in another colour. -/
def recolor (c : Color) : ColorTree α → ColorTree α
  | nil => nil
  | node _ l x r => node c l x r

@[simp] theorem toList_nil : (nil : ColorTree α).toList = [] := rfl

@[simp] theorem toList_node : (node c l x r).toList = l.toList ++ x :: r.toList := rfl

@[simp] theorem root_nil : (nil : ColorTree α).root = none := rfl

@[simp] theorem root_node : (node c l x r).root = some x := rfl

@[simp] theorem color_nil : (nil : ColorTree α).color = .black := rfl

@[simp] theorem color_node : (node c l x r).color = c := rfl

@[simp] theorem root_join : (join d c x a b).root = some x := by cases d <;> rfl

@[simp] theorem color_join : (join d c x a b).color = c := by cases d <;> rfl

@[simp] theorem join_left : join .left c x a b = node c a x b := rfl

@[simp] theorem join_right : join .right c x a b = node c b x a := rfl

@[simp] theorem root_recolor : (recolor c t).root = t.root := by cases t <;> rfl

@[simp] theorem toList_recolor : (recolor c t).toList = t.toList := by cases t <;> rfl

@[simp] theorem recolor_join : recolor c (join d c' x a b) = join d c x a b := by cases d <;> rfl

theorem recolor_of_color (h : t.color = c) : recolor c t = t := by
  cases t with
  | nil => rfl
  | node c' l x r =>
    obtain rfl : c' = c := h
    rfl

theorem root_eq_none_iff : t.root = none ↔ t = nil := by cases t <;> simp

theorem root_eq_some_iff : t.root = some x ↔ ∃ c l r, t = node c l x r := by
  cases t with
  | nil => simp
  | node c l y r => simp [eq_comm]

theorem exists_join (d : Side) (h : t.root = some x) : ∃ a b, t = join d t.color x a b := by
  obtain ⟨c, l, r, rfl⟩ := root_eq_some_iff.mp h
  cases d with
  | left => exact ⟨l, r, rfl⟩
  | right => exact ⟨r, l, rfl⟩

theorem mem_of_root (h : t.root = some x) : x ∈ t.toList := by
  obtain ⟨c, l, r, rfl⟩ := root_eq_some_iff.mp h
  simp

@[simp] theorem mem_join : y ∈ (join d c x a b).toList ↔ y = x ∨ y ∈ a.toList ∨ y ∈ b.toList := by
  cases d <;> simp <;> tauto

theorem toList_join_perm : (join d c x a b).toList.Perm (x :: (a.toList ++ b.toList)) := by
  cases d with
  | left => exact List.perm_middle
  | right => exact List.perm_middle.trans (List.perm_append_comm.cons x)

theorem nodup_join : (join d c x a b).toList.Nodup ↔
    (x ∉ a.toList ∧ x ∉ b.toList) ∧ a.toList.Nodup ∧ b.toList.Nodup ∧
      a.toList.Disjoint b.toList := by
  rw [toList_join_perm.nodup_iff, List.nodup_cons, List.nodup_append', List.mem_append, not_or]

theorem height_join : (join d c x a b).height = max a.height b.height + 1 := by
  cases d with
  | left => rfl
  | right => simp [height, Nat.max_comm]

end ColorTree

open ColorTree

/-- A node on the way from the hole to the root. -/
structure Frame (α : Type u) where
  /-- The side of the hole. -/
  side : Side
  color : Color
  value : α
  sibling : ColorTree α

abbrev Spine (α : Type u) := List (Frame α)

variable {f : Frame α} {path rest : Spine α}

def plug : ColorTree α → Spine α → ColorTree α
  | t, [] => t
  | t, f :: path => plug (join f.side f.color f.value t f.sibling) path

def before : Spine α → List α
  | [] => []
  | f :: path =>
    match f.side with
    | .left => before path
    | .right => before path ++ (f.sibling.toList ++ [f.value])

def after : Spine α → List α
  | [] => []
  | f :: path =>
    match f.side with
    | .left => (f.value :: f.sibling.toList) ++ after path
    | .right => after path

/-- The values outside the hole, in no order. -/
def values : Spine α → List α
  | [] => []
  | f :: path => (f.value :: f.sibling.toList) ++ values path

/-- The node above the hole. -/
def top : Spine α → Option α
  | [] => none
  | f :: _ => some f.value

@[simp] theorem plug_nil (t : ColorTree α) : plug t [] = t := rfl

@[simp] theorem plug_cons (t : ColorTree α) :
    plug t (f :: path) = plug (join f.side f.color f.value t f.sibling) path := rfl

@[simp] theorem top_nil : top ([] : Spine α) = none := rfl

@[simp] theorem top_cons : top (f :: path) = some f.value := rfl

@[simp] theorem values_nil : values ([] : Spine α) = [] := rfl

@[simp] theorem values_cons :
    values (f :: path) = (f.value :: f.sibling.toList) ++ values path := rfl

@[simp] theorem values_append : values (path ++ rest) = values path ++ values rest := by
  induction path with
  | nil => rfl
  | cons f path ih => simp [ih]

theorem mem_values_of_top (h : top path = some x) : x ∈ values path := by
  cases path with
  | nil => cases h
  | cons f path =>
    obtain rfl : f.value = x := Option.some.inj h
    simp

theorem plug_append (t : ColorTree α) : plug t (path ++ rest) = plug (plug t path) rest := by
  induction path generalizing t with
  | nil => rfl
  | cons f path ih => exact ih _

theorem toList_plug (t : ColorTree α) (path : Spine α) :
    (plug t path).toList = before path ++ t.toList ++ after path := by
  induction path generalizing t with
  | nil => simp [before, after]
  | cons f path ih =>
    obtain ⟨d, c, x, s⟩ := f
    rw [plug_cons, ih]
    cases d <;> simp [before, after]

theorem values_perm (path : Spine α) : (before path ++ after path).Perm (values path) := by
  induction path with
  | nil => exact .refl _
  | cons f path ih =>
    obtain ⟨d, c, x, s⟩ := f
    cases d with
    | left =>
      have hswap : (before path ++ (x :: s.toList ++ after path)).Perm
          (x :: s.toList ++ (before path ++ after path)) := by
        rw [← List.append_assoc, ← List.append_assoc (x :: s.toList)]
        exact List.perm_append_comm.append_right _
      exact hswap.trans (ih.append_left _)
    | right =>
      have hswap : ((before path ++ (s.toList ++ [x])) ++ after path).Perm
          (x :: s.toList ++ (before path ++ after path)) := by
        rw [← List.append_assoc (x :: s.toList)]
        refine List.Perm.append_right _ (List.perm_append_comm.trans ?_)
        exact (List.perm_append_singleton x s.toList).append_right _
      exact hswap.trans (ih.append_left _)

theorem toList_plug_perm (t : ColorTree α) (path : Spine α) :
    (plug t path).toList.Perm (t.toList ++ values path) := by
  rw [toList_plug]
  have hswap : (before path ++ t.toList ++ after path).Perm
      (t.toList ++ (before path ++ after path)) := by
    rw [← List.append_assoc]
    exact List.perm_append_comm.append_right _
  exact hswap.trans ((values_perm path).append_left _)

theorem nodup_plug : (plug t path).toList.Nodup ↔
    t.toList.Nodup ∧ (values path).Nodup ∧ t.toList.Disjoint (values path) := by
  rw [(toList_plug_perm t path).nodup_iff, List.nodup_append']

/-- Each value of a tree is the root of a subtree. -/
theorem exists_plug (h : x ∈ t.toList) : ∃ c l r path, t = plug (node c l x r) path := by
  induction t with
  | nil => simp at h
  | node c l y r ihl ihr =>
    simp only [toList_node, List.mem_append, List.mem_cons] at h
    rcases h with h | rfl | h
    · obtain ⟨c', l', r', path, rfl⟩ := ihl h
      exact ⟨c', l', r', path ++ [⟨.left, c, y, r⟩], by simp [plug_append]⟩
    · exact ⟨c, l, r, [], rfl⟩
    · obtain ⟨c', l', r', path, rfl⟩ := ihr h
      exact ⟨c', l', r', path ++ [⟨.right, c, y, l⟩], by simp [plug_append]⟩

/-- Below no right side is the first value. -/
theorem before_eq_nil (h : ∀ f ∈ path, f.side = .left) : before path = [] := by
  induction path with
  | nil => rfl
  | cons f path ih =>
    obtain ⟨d, c, x, s⟩ := f
    obtain rfl : d = .left := h _ List.mem_cons_self
    exact ih fun f hf => h f (List.mem_cons_of_mem _ hf)

/-- A list without repetitions is split at `x` in one way. -/
theorem eq_of_split {l₁ l₂ l₃ l₄ : List α} (h : (l₁ ++ x :: l₂).Nodup)
    (heq : l₁ ++ x :: l₂ = l₃ ++ x :: l₄) : l₁ = l₃ ∧ l₂ = l₄ := by
  obtain ⟨hx, -⟩ := List.nodup_cons.mp (List.nodup_middle.mp h)
  rw [List.mem_append, not_or] at hx
  obtain ⟨hleft, -, hright⟩ := (List.append_cons_inj_of_notMem hx.1 hx.2).mp heq
  exact ⟨hleft, hright⟩

/-! ## Reading from a side -/

/-- The list as it is read from the side `d`. -/
def Side.order (d : Side) (l : List α) : List α :=
  match d with
  | .left => l
  | .right => l.reverse

/-- What comes behind the hole, read from the side `d`. -/
def onward (d : Side) (path : Spine α) : List α :=
  match d with
  | .left => after path
  | .right => (before path).reverse

@[simp] theorem Side.order_nil : d.order ([] : List α) = [] := by cases d <;> rfl

theorem order_join : d.order (join d c x a b).toList =
    d.order a.toList ++ x :: d.order b.toList := by
  cases d <;> simp [Side.order]

theorem head_order_append (h : t.root = some x) (l : List α) :
    (d.order t.toList ++ l).head? = (d.order t.toList).head? := by
  obtain ⟨a, b, hjoin⟩ := exists_join d h
  rw [hjoin, order_join]
  cases d.order a.toList <;> rfl

@[simp] theorem onward_nil : onward d ([] : Spine α) = [] := by cases d <;> rfl

theorem onward_same (h : f.side = d) :
    onward d (f :: path) = f.value :: (d.order f.sibling.toList ++ onward d path) := by
  subst h
  obtain ⟨d, c, x, s⟩ := f
  cases d <;> simp [onward, before, after, Side.order]

theorem onward_other (h : f.side = d.other) : onward d (f :: path) = onward d path := by
  obtain ⟨e, c, x, s⟩ := f
  obtain rfl : e = d.other := h
  cases d <;> simp [onward, before, after, Side.other]

theorem order_plug (t : ColorTree α) (path : Spine α) : d.order (plug t path).toList =
    (onward d.other path).reverse ++ d.order t.toList ++ onward d path := by
  rw [toList_plug]
  cases d <;> simp [Side.order, onward, Side.other]

/-! ## The children before the node -/

/-- What comes behind the hole in the postorder. -/
def postAfter : Spine α → List α
  | [] => []
  | f :: path =>
    match f.side with
    | .left => f.sibling.postorder ++ f.value :: postAfter path
    | .right => f.value :: postAfter path

theorem postorder_eq_cons (h : t.root = some x) : ∃ y ys, t.postorder = y :: ys := by
  obtain ⟨c, l, r, rfl⟩ := root_eq_some_iff.mp h
  refine List.exists_cons_of_ne_nil ?_
  simp [postorder]

theorem postorder_perm (t : ColorTree α) : t.postorder.Perm t.toList := by
  induction t with
  | nil => exact .refl _
  | node c l x r ihl ihr =>
    have hperm := (ihl.append ihr).append_right [x]
    have hmiddle : (l.toList ++ r.toList ++ [x]).Perm (l.toList ++ x :: r.toList) := by
      rw [List.append_assoc]
      exact List.perm_append_comm.append_left _
    exact hperm.trans hmiddle

theorem exists_postorder_plug (t : ColorTree α) (path : Spine α) :
    ∃ front, (plug t path).postorder = front ++ t.postorder ++ postAfter path := by
  induction path generalizing t with
  | nil => exact ⟨[], by simp [postAfter]⟩
  | cons f path ih =>
    obtain ⟨d, c, x, s⟩ := f
    obtain ⟨front, hfront⟩ := ih (join d c x t s)
    cases d with
    | left => exact ⟨front, hfront.trans (by simp [postAfter, postorder])⟩
    | right => exact ⟨front ++ s.postorder, hfront.trans (by simp [postAfter, postorder])⟩

/-! ## Ways down -/

variable {go : α → Option Side} {l₁ l₂ : List α}

/-- Along the list, `go` says right, then that the way ends, then left. -/
def Guides (go : α → Option Side) (l : List α) : Prop :=
  l.Pairwise fun x y =>
    (go x = some .left → go y = some .left) ∧ (go y = some .right → go x = some .right)

/-- The way to the hole is the one that `go` says. -/
def Follows (go : α → Option Side) (path : Spine α) : Prop := ∀ f ∈ path, go f.value = some f.side

@[simp] theorem follows_nil : Follows go ([] : Spine α) := by simp [Follows]

@[simp] theorem follows_cons :
    Follows go (f :: path) ↔ go f.value = some f.side ∧ Follows go path := by
  simp [Follows]

theorem Guides.left (h : Guides go (l₁ ++ x :: l₂)) (hx : go x = some .left) (hy : y ∈ l₂) :
    go y = some .left :=
  ((List.pairwise_cons.mp (List.pairwise_append.mp h).2.1).1 y hy).1 hx

theorem Guides.right (h : Guides go (l₁ ++ x :: l₂)) (hx : go x = some .right) (hy : y ∈ l₁) :
    go y = some .right :=
  ((List.pairwise_append.mp h).2.2 y hy x List.mem_cons_self).2 hx

theorem Guides.split {l : List α} (h : Guides go l) :
    l = l.filter (go · = some .right) ++
      (l.filter (go · = none) ++ l.filter (go · = some .left)) := by
  induction l with
  | nil => rfl
  | cons x l ih =>
    obtain ⟨hx, hrest⟩ := List.pairwise_cons.mp h
    have hl := ih hrest
    cases hgo : go x with
    | none =>
      have hright : l.filter (go · = some .right) = [] := by
        refine List.filter_eq_nil_iff.mpr fun y hy heq => ?_
        have := (hx y hy).2 (by simpa using heq)
        simp [hgo] at this
      rw [hright, List.nil_append] at hl
      simpa [List.filter_cons, hgo, hright] using hl
    | some d =>
      cases d with
      | right => simpa [List.filter_cons, hgo] using hl
      | left =>
        have hleft : ∀ y ∈ l, go y = some .left := fun y hy => (hx y hy).1 hgo
        have hright : l.filter (go · = some .right) = [] :=
          List.filter_eq_nil_iff.mpr fun y hy => by simp [hleft y hy]
        have hnone : l.filter (go · = none) = [] :=
          List.filter_eq_nil_iff.mpr fun y hy => by simp [hleft y hy]
        rw [hright, hnone, List.nil_append, List.nil_append] at hl
        simpa [List.filter_cons, hgo, hright, hnone] using hl

/-- A way that follows `go` parts the list. -/
theorem Follows.parts (hpath : Follows go path) (h : Guides go (before path ++ after path)) :
    (∀ y ∈ before path, go y = some .right) ∧ ∀ y ∈ after path, go y = some .left := by
  induction path with
  | nil => simp [before, after]
  | cons f path ih =>
    obtain ⟨d, c, x, s⟩ := f
    rw [follows_cons] at hpath
    obtain ⟨hx, hpath⟩ := hpath
    cases d with
    | left =>
      have hsplit : before (⟨.left, c, x, s⟩ :: path) ++ after (⟨.left, c, x, s⟩ :: path) =
          before path ++ x :: (s.toList ++ after path) := by
        simp [before, after]
      rw [hsplit] at h
      obtain ⟨hbefore, hafter⟩ := ih hpath (h.sublist (by simp))
      refine ⟨hbefore, fun y hy => ?_⟩
      simp only [after, List.cons_append, List.mem_cons, List.mem_append] at hy
      rcases hy with rfl | hy | hy
      · exact hx
      · exact h.left hx (List.mem_append_left _ hy)
      · exact hafter y hy
    | right =>
      have hsplit : before (⟨.right, c, x, s⟩ :: path) ++ after (⟨.right, c, x, s⟩ :: path) =
          (before path ++ s.toList) ++ x :: after path := by
        simp [before, after]
      rw [hsplit] at h
      obtain ⟨hbefore, hafter⟩ := ih hpath (h.sublist (by simp))
      refine ⟨fun y hy => ?_, hafter⟩
      simp only [before, List.mem_append, List.mem_singleton] at hy
      rcases hy with hy | hy | rfl
      · exact hbefore y hy
      · exact h.right hx (List.mem_append_right _ hy)
      · exact hx

/-! ## Colours -/

/-- The tree has a root of colour `c` and `n` black nodes on each way down. -/
inductive WellColored : ColorTree α → Color → Nat → Prop
  | nil : WellColored nil .black 0
  | red {l r : ColorTree α} {x : α} {n : Nat} (hl : WellColored l .black n)
      (hr : WellColored r .black n) :
    WellColored (node .red l x r) .red n
  | black {l r : ColorTree α} {x : α} {c c' : Color} {n : Nat} (hl : WellColored l c n)
    (hr : WellColored r c' n) : WellColored (node .black l x r) .black (n + 1)

/-- The hole takes the balanced trees of colour `c` and black height `n`. -/
inductive Fits : Spine α → Color → Nat → Prop
  | root {n : Nat} : Fits [] .black n
  | red {f : Frame α} {path : Spine α} {n : Nat} (hs : f.color = .red)
    (hb : WellColored f.sibling .black n) (hrest : Fits path .red n) : Fits (f :: path) .black n
  | black {f : Frame α} {path : Spine α} {c c' : Color} {n : Nat} (hs : f.color = .black)
    (hb : WellColored f.sibling c' n) (hrest : Fits path .black (n + 1)) : Fits (f :: path) c n

theorem WellColored.color_eq (h : WellColored t c n) : t.color = c := by cases h <;> rfl

theorem WellColored.self (h : WellColored t c n) : WellColored t t.color n := by
  rw [h.color_eq]
  exact h

theorem wellColored_nil_iff : WellColored (nil : ColorTree α) c n ↔ c = .black ∧ n = 0 := by
  constructor
  · intro h
    cases h
    exact ⟨rfl, rfl⟩
  · rintro ⟨rfl, rfl⟩
    exact .nil

theorem wellColored_red_iff : WellColored (join d .red x a b) c n ↔
    c = .red ∧ WellColored a .black n ∧ WellColored b .black n := by
  constructor
  · intro h
    cases d with
    | left => cases h with | red hl hr => exact ⟨rfl, hl, hr⟩
    | right => cases h with | red hl hr => exact ⟨rfl, hr, hl⟩
  · rintro ⟨rfl, ha, hb⟩
    cases d with
    | left => exact .red ha hb
    | right => exact .red hb ha

theorem wellColored_black_iff : WellColored (join d .black x a b) c n ↔
    c = .black ∧ ∃ m, n = m + 1 ∧ WellColored a a.color m ∧ WellColored b b.color m := by
  constructor
  · intro h
    cases d with
    | left =>
      cases h with
      | black hl hr => exact ⟨rfl, _, rfl, hl.self, hr.self⟩
    | right =>
      cases h with
      | black hl hr => exact ⟨rfl, _, rfl, hr.self, hl.self⟩
  · rintro ⟨rfl, m, rfl, ha, hb⟩
    cases d with
    | left => exact .black ha hb
    | right => exact .black hb ha

theorem WellColored.blacken (h : WellColored t .red n) :
    WellColored (recolor .black t) .black (n + 1) := by
  cases h with
  | red hl hr => exact .black hl hr

theorem WellColored.exists_join (d : Side) (h : WellColored t .black (n + 1)) :
    ∃ x a b, t = join d .black x a b ∧ WellColored a a.color n ∧ WellColored b b.color n := by
  cases t with
  | nil => cases h
  | node c l x r =>
    obtain ⟨a, b, hjoin⟩ := ColorTree.exists_join d (t := .node c l x r) root_node
    rw [h.color_eq] at hjoin
    rw [hjoin] at h
    obtain ⟨-, m, hm, ha, hb⟩ := wellColored_black_iff.mp h
    obtain rfl : n = m := by omega
    exact ⟨x, a, b, hjoin, ha, hb⟩

/-- The values do not matter. -/
theorem WellColored.rename (h : WellColored (node c l x r) c' n) :
    WellColored (node c l y r) c' n := by
  cases h with
  | red hl hr => exact .red hl hr
  | black hl hr => exact .black hl hr

theorem Fits.toBlack (h : Fits path c n) : Fits path .black n := by
  cases h with
  | root => exact .root
  | red hs hb hrest => exact .red hs hb hrest
  | black hs hb hrest => exact .black hs hb hrest

theorem Fits.rename (h : Fits (path ++ ⟨d, c', x, t⟩ :: rest) c n) :
    Fits (path ++ ⟨d, c', y, t⟩ :: rest) c n := by
  induction path generalizing c n with
  | nil =>
    cases h with
    | red hs hb hrest => exact .red hs hb hrest
    | black hs hb hrest => exact .black hs hb hrest
  | cons f path ih =>
    cases h with
    | red hs hb hrest => exact .red hs hb (ih hrest)
    | black hs hb hrest => exact .black hs hb (ih hrest)

/-- Above a red node is a black one. -/
theorem Fits.exists_black (h : Fits path .red n) :
    ∃ f rest, path = f :: rest ∧ f.color = .black ∧ WellColored f.sibling f.sibling.color n ∧
      Fits rest .black (n + 1) := by
  cases h with
  | black hs hb hrest => exact ⟨_, _, rfl, hs, hb.self, hrest⟩

theorem WellColored.plug (hb : WellColored t c n) (hf : Fits path c n) :
    ∃ m, WellColored (plug t path) .black m := by
  induction hf generalizing t with
  | root => exact ⟨_, hb⟩
  | @red f path n hs hsib hrest ih =>
    refine ih (t := join f.side f.color f.value t f.sibling) ?_
    rw [hs]
    exact wellColored_red_iff.mpr ⟨rfl, hb, hsib⟩
  | @black f path c c' n hs hsib hrest ih =>
    refine ih (t := join f.side f.color f.value t f.sibling) ?_
    rw [hs]
    exact wellColored_black_iff.mpr ⟨rfl, n, rfl, hb.self, hsib.self⟩

/-- The black height above two subtrees of the black height `n`. -/
def Color.tally (c : Color) (n : Nat) : Nat :=
  match c with
  | .red => n
  | .black => n + 1

theorem WellColored.join (ha : WellColored a .black n) (hb : WellColored b .black n) :
    WellColored (join d c x a b) c (c.tally n) := by
  cases c with
  | red => exact wellColored_red_iff.mpr ⟨rfl, ha, hb⟩
  | black => exact wellColored_black_iff.mpr ⟨rfl, n, rfl, ha.self, hb.self⟩

/-- What is in the hole of a balanced tree fits it. -/
theorem exists_fits (h : WellColored (RedBlack.plug t path) .black m) :
    ∃ c n, WellColored t c n ∧ Fits path c n := by
  induction path generalizing t with
  | nil => exact ⟨_, _, h, .root⟩
  | cons f path ih =>
    obtain ⟨c, n, hb, hf⟩ := ih h
    cases hc : f.color with
    | red =>
      rw [hc] at hb
      obtain ⟨rfl, ht, hs⟩ := wellColored_red_iff.mp hb
      exact ⟨_, _, ht, .red hc hs hf⟩
    | black =>
      rw [hc] at hb
      obtain ⟨rfl, n, rfl, ht, hs⟩ := wellColored_black_iff.mp hb
      exact ⟨_, _, ht, .black hc hs hf⟩

/-! ## Heights -/

theorem length_le_values (path : Spine α) : path.length ≤ (values path).length := by
  induction path with
  | nil => exact Nat.le_refl _
  | cons f path ih =>
    simp only [List.length_cons, values_cons, List.length_append]
    omega

theorem height_le_length (t : ColorTree α) : t.height ≤ t.toList.length := by
  induction t with
  | nil => exact Nat.le_refl _
  | node c l x r ihl ihr =>
    simp only [height, toList_node, List.length_append, List.length_cons]
    omega

theorem WellColored.height_le (h : WellColored t c n) :
    t.height ≤ 2 * n + 1 ∧ (c = .black → t.height ≤ 2 * n) := by
  induction h with
  | nil => simp [height]
  | red hl hr ihl ihr =>
    have hleft := ihl.2 rfl
    have hright := ihr.2 rfl
    simp only [height, reduceCtorEq, false_implies, and_true]
    omega
  | black hl hr ihl ihr =>
    have hleft := ihl.1
    have hright := ihr.1
    simp only [height, forall_const]
    omega

theorem WellColored.two_pow_le (h : WellColored t c n) : 2 ^ n ≤ t.toList.length + 1 := by
  induction h with
  | nil => simp
  | red hl hr ihl ihr =>
    simp only [toList_node, List.length_append, List.length_cons]
    omega
  | black hl hr ihl ihr =>
    simp only [toList_node, List.length_append, List.length_cons, Nat.pow_succ]
    omega

theorem height_le_log (h : WellColored t .black n) :
    t.height ≤ 2 * Nat.log 2 (t.toList.length + 1) := by
  have hn : n ≤ Nat.log 2 (t.toList.length + 1) := Nat.le_log_of_pow_le (by omega) h.two_pow_le
  have hle := h.height_le.2 rfl
  omega

end Training.Lib.RedBlack
