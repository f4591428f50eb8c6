/-
Training.Lib.Trees — the nodes of a binary tree and the paths between them.

A node is named by the way to it from the root, `false` for left and
`true` for right. A path is a walk along the edges of the tree that comes
to no node twice. The number of its edges is a function of its ends,
`dist`: the steps up to where the two ways part, and down again
(`pathOf_iff`). Each edge of a path leads nearer to its end, for only one
neighbour of a node is nearer (`near_unique`), and the path may not turn
back.

`level t k` are the values `k` steps below the root from left to right,
`levels` those of all the levels of the tree.
-/
import Mathlib.Data.List.Chain
import Mathlib.Data.Tree.Basic

namespace Training.Lib.Trees

universe u

variable {α : Type u} {t l r : BinaryTree α} {p q x y : List Bool} {ps : List (List Bool)}
  {b c : Bool} {k n : Nat} {v w : α}

/-- The value of the node at the end of the way `p`. -/
def valueAt : BinaryTree α → List Bool → Option α
  | .nil, _ => none
  | .node v _ _, [] => some v
  | .node _ l r, b :: p => valueAt (if b then r else l) p

@[simp] theorem valueAt_nil (p : List Bool) : valueAt (.nil : BinaryTree α) p = none := by
  cases p <;> rfl

@[simp] theorem valueAt_root (v : α) (l r : BinaryTree α) :
    valueAt (.node v l r) [] = some v := rfl

@[simp] theorem valueAt_cons (v : α) (l r : BinaryTree α) (b : Bool) (p : List Bool) :
    valueAt (.node v l r) (b :: p) = valueAt (if b then r else l) p := rfl

def IsNode (t : BinaryTree α) (p : List Bool) : Prop := (valueAt t p).isSome

theorem isNode_root (h : t ≠ .nil) : IsNode t [] := by
  cases t with
  | nil => exact absurd rfl h
  | node v l r => rfl

theorem isNode_iff : IsNode t p ↔ ∃ v, valueAt t p = some v := Option.isSome_iff_exists

/-- The nodes on the way to a node. -/
theorem IsNode.above (h : IsNode t q) (hp : p <+: q) : IsNode t p := by
  induction p generalizing t q with
  | nil =>
    cases t with
    | nil => simp [IsNode] at h
    | node v l r => rfl
  | cons b p ih =>
    obtain ⟨s, rfl⟩ := hp
    cases t with
    | nil => simp [IsNode] at h
    | node v l r => exact ih (q := p ++ s) h (List.prefix_append p s)

theorem IsNode.length_lt (h : IsNode t p) : p.length < t.height := by
  induction p generalizing t with
  | nil =>
    cases t with
    | nil => simp [IsNode] at h
    | node v l r => simp [BinaryTree.height]
  | cons b p ih =>
    cases t with
    | nil => simp [IsNode] at h
    | node v l r =>
      have hlt := ih (t := if b then r else l) h
      simp only [List.length_cons, BinaryTree.height]
      cases b <;> simp at hlt <;> omega

theorem exists_deepest (h : t ≠ .nil) : ∃ p, IsNode t p ∧ p.length + 1 = t.height := by
  induction t with
  | nil => exact absurd rfl h
  | node v l r ihl ihr =>
    by_cases hlow : l.height ≤ r.height
    · by_cases hr : r = .nil
      · subst hr
        refine ⟨[], rfl, ?_⟩
        simp only [BinaryTree.height] at *
        simp; omega
      · obtain ⟨p, hp, hlen⟩ := ihr hr
        exact ⟨true :: p, hp, by simp [BinaryTree.height]; omega⟩
    · have hl : l ≠ .nil := by
        intro hl
        simp [hl, BinaryTree.height] at hlow
      obtain ⟨p, hp, hlen⟩ := ihl hl
      exact ⟨false :: p, hp, by simp [BinaryTree.height]; omega⟩

/-! ## Distances -/

def dist : List Bool → List Bool → Nat
  | [], q => q.length
  | a :: p, [] => (a :: p).length
  | a :: p, b :: q => if a = b then dist p q else (a :: p).length + (b :: q).length

@[simp] theorem dist_nil_left (q : List Bool) : dist [] q = q.length := by simp [dist]

@[simp] theorem dist_nil_right (p : List Bool) : dist p [] = p.length := by
  cases p <;> simp [dist]

@[simp] theorem dist_cons_cons (b : Bool) (p q : List Bool) :
    dist (b :: p) (b :: q) = dist p q := by simp [dist]

theorem dist_of_ne (h : b ≠ c) :
    dist (b :: p) (c :: q) = (b :: p).length + (c :: q).length := by
  simp [dist, h]

@[simp] theorem dist_self (p : List Bool) : dist p p = 0 := by
  induction p with
  | nil => simp
  | cons b p ih => simp [ih]

theorem eq_of_dist_eq_zero (h : dist p q = 0) : p = q := by
  induction p generalizing q with
  | nil => simpa [eq_comm] using h
  | cons b p ih =>
    cases q with
    | nil => simp at h
    | cons c q =>
      by_cases hbc : b = c
      · subst hbc
        rw [dist_cons_cons] at h
        rw [ih h]
      · simp [dist_of_ne hbc] at h

/-- A step down leads nearer if it is on the way, and farther otherwise. -/
theorem dist_snoc (p : List Bool) (b : Bool) (q : List Bool) :
    p ++ [b] <+: q ∧ dist p q = dist (p ++ [b]) q + 1 ∨
      ¬p ++ [b] <+: q ∧ dist (p ++ [b]) q = dist p q + 1 := by
  induction p generalizing q with
  | nil =>
    cases q with
    | nil => simp
    | cons c q =>
      by_cases hbc : b = c
      · subst hbc
        simp
      · simp [dist_of_ne hbc, hbc]
        omega
  | cons a p ih =>
    cases q with
    | nil => simp
    | cons c q =>
      by_cases hac : a = c
      · subst hac
        simpa [List.cons_prefix_cons] using ih q
      · simp [dist_of_ne hac, hac, List.cons_prefix_cons]
        omega

/-! ## Paths -/

/-- One of the two is the parent of the other. -/
def Edge (p q : List Bool) : Prop := (∃ b, q = p ++ [b]) ∨ ∃ b, p = q ++ [b]

theorem Edge.symm (h : Edge p x) : Edge x p := Or.symm h

theorem Edge.dist_cases (h : Edge p x) (q : List Bool) :
    dist p q = dist x q + 1 ∨ dist x q = dist p q + 1 := by
  rcases h with ⟨b, rfl⟩ | ⟨b, rfl⟩
  · rcases dist_snoc p b q with ⟨-, hdist⟩ | ⟨-, hdist⟩
    · exact .inl hdist
    · exact .inr hdist
  · rcases dist_snoc x b q with ⟨-, hdist⟩ | ⟨-, hdist⟩
    · exact .inr hdist
    · exact .inl hdist

/-- The neighbour that is nearer: a child on the way, or else the parent. -/
theorem Edge.near_cases (h : Edge p x) (hnear : dist x q < dist p q) :
    (∃ b, x = p ++ [b] ∧ x <+: q) ∨ ¬p <+: q ∧ ∃ b, p = x ++ [b] := by
  rcases h with ⟨b, rfl⟩ | ⟨b, rfl⟩
  · rcases dist_snoc p b q with ⟨hpre, -⟩ | ⟨-, hdist⟩
    · exact .inl ⟨b, rfl, hpre⟩
    · omega
  · rcases dist_snoc x b q with ⟨-, hdist⟩ | ⟨hpre, -⟩
    · omega
    · exact .inr ⟨hpre, b, rfl⟩

theorem near_unique (hx : Edge p x) (hy : Edge p y) (hxq : dist x q < dist p q)
    (hyq : dist y q < dist p q) : x = y := by
  have hon : ∀ b, p ++ [b] <+: q → p <+: q := fun b h => (List.prefix_append p [b]).trans h
  rcases hx.near_cases hxq with ⟨b, rfl, hb⟩ | ⟨hoff, b, hb⟩
  · rcases hy.near_cases hyq with ⟨c, rfl, hc⟩ | ⟨hoff, -⟩
    · exact (List.prefix_of_prefix_length_le hb hc (by simp)).eq_of_length (by simp)
    · exact absurd (hon b hb) hoff
  · rcases hy.near_cases hyq with ⟨c, rfl, hc⟩ | ⟨-, c, hc⟩
    · exact absurd (hon c hc) hoff
    · exact (List.append_inj' (hb.symm.trans hc) rfl).1

theorem exists_near (hp : IsNode t p) (hq : IsNode t q) (hne : p ≠ q) :
    ∃ x, IsNode t x ∧ Edge p x ∧ dist p q = dist x q + 1 := by
  by_cases hpre : p <+: q
  · obtain ⟨s, rfl⟩ := hpre
    cases s with
    | nil => simp at hne
    | cons b s =>
      have hstep : p ++ [b] <+: p ++ b :: s := ⟨s, by simp⟩
      rcases dist_snoc p b (p ++ b :: s) with ⟨-, hdist⟩ | ⟨hoff, -⟩
      · exact ⟨p ++ [b], hq.above hstep, .inl ⟨b, rfl⟩, hdist⟩
      · exact absurd hstep hoff
  · rcases List.eq_nil_or_concat' p with rfl | ⟨x, b, rfl⟩
    · exact absurd List.nil_prefix hpre
    · rcases dist_snoc x b q with ⟨hon, -⟩ | ⟨-, hdist⟩
      · exact absurd hon hpre
      · exact ⟨x, hp.above (List.prefix_append x [b]), .inr ⟨b, rfl⟩, hdist⟩

/-- A walk along the edges that comes to no node twice. -/
structure IsPath (t : BinaryTree α) (ps : List (List Bool)) : Prop where
  edges : ps.IsChain Edge
  nodup : ps.Nodup
  nodes : ∀ p ∈ ps, IsNode t p

/-- A path with `n` edges leads from `p` to `q`. -/
def PathOf (t : BinaryTree α) (p q : List Bool) (n : Nat) : Prop :=
  ∃ ps, IsPath t (p :: ps) ∧ (p :: ps).getLast? = some q ∧ ps.length = n

theorem IsPath.tail (h : IsPath t (p :: ps)) : IsPath t ps :=
  ⟨h.edges.tail, (List.nodup_cons.mp h.nodup).2, fun q hq => h.nodes q (List.mem_cons_of_mem p hq)⟩

/-- The first edge leads nearer to the end, and so do all of them. -/
theorem IsPath.length_eq (h : IsPath t (p :: ps)) (hq : (p :: ps).getLast? = some q) :
    ps.length = dist p q ∧ ∀ x, ps.head? = some x → dist x q < dist p q := by
  induction ps generalizing p with
  | nil =>
    obtain rfl : p = q := by simpa using hq
    simp
  | cons x ps ih =>
    rw [List.getLast?_cons_cons] at hq
    obtain ⟨hlen, hnext⟩ := ih h.tail hq
    have hedge : Edge p x := (List.isChain_cons_cons.mp h.edges).1
    rcases hedge.dist_cases q with hnear | hfar
    · refine ⟨by simp [hlen, hnear], ?_⟩
      intro y hy
      obtain rfl : x = y := by simpa using hy
      omega
    · cases ps with
      | nil =>
        obtain rfl : x = q := by simpa using hq
        simp at hfar
      | cons y ps =>
        -- the next edge would lead back
        have hyq := hnext y rfl
        have hback : p = y :=
          near_unique hedge.symm (List.isChain_cons_cons.mp h.tail.edges).1 (by omega) hyq
        have hfresh := (List.nodup_cons.mp h.nodup).1
        exact absurd (by simp [hback]) hfresh

theorem exists_path (hp : IsNode t p) (hq : IsNode t q) (hn : dist p q = n) :
    ∃ ps, IsPath t (p :: ps) ∧ (p :: ps).getLast? = some q ∧ ∀ y ∈ p :: ps, dist y q ≤ n := by
  induction n generalizing p with
  | zero =>
    obtain rfl := eq_of_dist_eq_zero hn
    exact ⟨[], ⟨.singleton p, by simp, by simpa using hp⟩, rfl, by simp⟩
  | succ n ih =>
    have hne : p ≠ q := by
      rintro rfl
      simp at hn
    obtain ⟨x, hx, hedge, hdist⟩ := exists_near hp hq hne
    obtain ⟨ps, hpath, hlast, hle⟩ := ih hx (by omega)
    have hfresh : p ∉ x :: ps := by
      intro hmem
      have hle' := hle p hmem
      omega
    refine ⟨x :: ps, ⟨List.isChain_cons_cons.mpr ⟨hedge, hpath.edges⟩,
      List.nodup_cons.mpr ⟨hfresh, hpath.nodup⟩, ?_⟩, ?_, ?_⟩
    · intro y hy
      rcases List.mem_cons.mp hy with rfl | hy
      · exact hp
      · exact hpath.nodes y hy
    · rwa [List.getLast?_cons_cons]
    · intro y hy
      rcases List.mem_cons.mp hy with rfl | hy
      · omega
      · have hle' := hle y hy
        omega

/-- Between two nodes there are paths, and all of one length. -/
theorem pathOf_iff : PathOf t p q n ↔ IsNode t p ∧ IsNode t q ∧ n = dist p q := by
  constructor
  · rintro ⟨ps, hpath, hlast, rfl⟩
    exact ⟨hpath.nodes p List.mem_cons_self, hpath.nodes q (List.mem_of_getLast? hlast),
      (hpath.length_eq hlast).1⟩
  · rintro ⟨hp, hq, rfl⟩
    obtain ⟨ps, hpath, hlast, -⟩ := exists_path hp hq rfl
    exact ⟨ps, hpath, hlast, (hpath.length_eq hlast).1⟩

/-! ## Levels -/

/-- The ways of `k` steps, from left to right. -/
def ways : Nat → List (List Bool)
  | 0 => [[]]
  | k + 1 => (ways k).map (false :: ·) ++ (ways k).map (true :: ·)

theorem mem_ways : p ∈ ways k ↔ p.length = k := by
  induction k generalizing p with
  | zero => simp [ways]
  | succ k ih =>
    cases p with
    | nil => simp [ways]
    | cons b p => cases b <;> simp [ways, ih]

def level (t : BinaryTree α) (k : Nat) : List α := (ways k).filterMap (valueAt t)

def levels (t : BinaryTree α) : List (List α) := (List.range t.height).map (level t)

@[simp] theorem level_nil (k : Nat) : level (.nil : BinaryTree α) k = [] := by
  simp [level]

@[simp] theorem level_zero (v : α) (l r : BinaryTree α) : level (.node v l r) 0 = [v] := by
  simp [level, ways]

@[simp] theorem level_succ (v : α) (l r : BinaryTree α) (k : Nat) :
    level (.node v l r) (k + 1) = level l k ++ level r k := by
  simp [level, ways, List.filterMap_append, List.filterMap_map, Function.comp_def]

theorem level_eq_nil (h : t.height ≤ k) : level t k = [] := by
  unfold level
  rw [List.filterMap_eq_nil_iff]
  intro p hp
  have hlen := mem_ways.mp hp
  by_contra hsome
  have hlt := IsNode.length_lt (t := t) (p := p) (Option.isSome_iff_ne_none.mpr hsome)
  omega

theorem level_ne_nil (h : k < t.height) : level t k ≠ [] := by
  have hne : t ≠ .nil := by
    rintro rfl
    exact absurd h (Nat.not_lt_zero k)
  obtain ⟨p, hp, hlen⟩ := exists_deepest hne
  obtain ⟨v, hv⟩ := isNode_iff.mp (hp.above (List.take_prefix k p))
  have hmem : v ∈ level t k :=
    List.mem_filterMap.mpr ⟨p.take k, mem_ways.mpr (by simp; omega), hv⟩
  exact List.ne_nil_of_mem hmem

end Training.Lib.Trees
