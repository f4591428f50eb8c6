/-
Training.TreeDiameter.Diameter — the diameter of a binary tree,
`C/job_interview/06_tree_node_distance.c`, is the length of the longest path.

Translation notes.

* `NULL` is the empty tree. The values of the nodes are read by nobody.
* The helper gives the height it returns and what it leaves in
  `*maxDiameter`. They are integers without bounds: a height is no more
  than the calls that are on the stack together, and the accumulator no
  more than two heights, and the stack has no room for 2^30 calls.
* `createNode` and `main` are left out.

Two nodes are in one half of the tree, or the way between them bends at
the root and is as long as the two ways down together. So what the helper
leaves in the accumulator is what was there or a distance of two nodes
(`helper_attained`), and no distance is greater (`dist_le_helper`).
-/
import Mathlib.Data.Tree.Basic
import Mathlib.Order.Bounds.Basic
import Training.Lib.Trees

namespace Training.TreeDiameter

def max (a b : Int) : Int := if a > b then a else b

def diameterOfBinaryTreeHelper : BinaryTree Int → Int → Int × Int
  | .nil, maxDiameter => (0, maxDiameter)
  | .node _ left right, maxDiameter =>
    let l := diameterOfBinaryTreeHelper left maxDiameter
    let r := diameterOfBinaryTreeHelper right l.2
    (max l.1 r.1 + 1, max r.2 (l.1 + r.1))

def diameterOfBinaryTree (root : BinaryTree Int) : Int := (diameterOfBinaryTreeHelper root 0).2

/-! ## The longest path -/

open Training.Lib.Trees

variable {t l r : BinaryTree Int} {p q : List Bool} {m : Int}

theorem max_cases (a b : Int) : a ≤ max a b ∧ b ≤ max a b ∧ (max a b = a ∨ max a b = b) := by
  unfold max
  split <;> omega

@[simp] theorem helper_height (t : BinaryTree Int) (m : Int) :
    (diameterOfBinaryTreeHelper t m).1 = t.height := by
  induction t generalizing m with
  | nil => rfl
  | node v l r ihl ihr =>
    simp only [diameterOfBinaryTreeHelper, ihl, ihr, BinaryTree.height, max]
    split <;> omega

theorem helper_node (v : Int) (l r : BinaryTree Int) (m : Int) :
    (diameterOfBinaryTreeHelper (.node v l r) m).2 =
      max (diameterOfBinaryTreeHelper r (diameterOfBinaryTreeHelper l m).2).2
        (l.height + r.height) := by
  simp [diameterOfBinaryTreeHelper]

/-- The accumulator grows. -/
theorem le_helper (t : BinaryTree Int) (m : Int) : m ≤ (diameterOfBinaryTreeHelper t m).2 := by
  induction t generalizing m with
  | nil => exact le_refl m
  | node v l r ihl ihr =>
    rw [helper_node]
    have hl := ihl m
    have hr := ihr (diameterOfBinaryTreeHelper l m).2
    have hmax := max_cases (diameterOfBinaryTreeHelper r (diameterOfBinaryTreeHelper l m).2).2
      (l.height + r.height)
    omega

/-- The way between two nodes stays in one half, or bends at the root. -/
theorem dist_node_cases {v : Int} (hp : IsNode (.node v l r) p) (hq : IsNode (.node v l r) q) :
    (∃ p' q', IsNode l p' ∧ IsNode l q' ∧ dist p q = dist p' q') ∨
      (∃ p' q', IsNode r p' ∧ IsNode r q' ∧ dist p q = dist p' q') ∨
      dist p q ≤ l.height + r.height := by
  have hdown : ∀ (b : Bool) (p' : List Bool), IsNode (.node v l r) (b :: p') →
      p'.length < (if b then r else l).height := fun b p' h => IsNode.length_lt h
  cases p with
  | nil =>
    refine .inr (.inr ?_)
    cases q with
    | nil => simp
    | cons c q =>
      have hlt := hdown c q hq
      cases c <;> simp at hlt ⊢ <;> omega
  | cons b p =>
    cases q with
    | nil =>
      have hlt := hdown b p hp
      refine .inr (.inr ?_)
      cases b <;> simp at hlt ⊢ <;> omega
    | cons c q =>
      by_cases hbc : b = c
      · subst hbc
        rw [dist_cons_cons]
        cases b with
        | false => exact .inl ⟨p, q, hp, hq, rfl⟩
        | true => exact .inr (.inl ⟨p, q, hp, hq, rfl⟩)
      · have hlt := hdown b p hp
        have hlt' := hdown c q hq
        refine .inr (.inr ?_)
        rw [dist_of_ne hbc]
        cases b <;> cases c <;> simp at hbc hlt hlt' ⊢ <;> omega

theorem dist_le_helper (hp : IsNode t p) (hq : IsNode t q) :
    dist p q ≤ (diameterOfBinaryTreeHelper t m).2 := by
  induction t generalizing p q m with
  | nil => simp [IsNode] at hp
  | node v l r ihl ihr =>
    rw [helper_node]
    have hmax := max_cases (diameterOfBinaryTreeHelper r (diameterOfBinaryTreeHelper l m).2).2
      (l.height + r.height)
    rcases dist_node_cases hp hq with ⟨p', q', hp', hq', hdist⟩ | ⟨p', q', hp', hq', hdist⟩ | hbend
    · have hle := ihl (m := m) hp' hq'
      have hgrow := le_helper r (diameterOfBinaryTreeHelper l m).2
      omega
    · have hle := ihr (m := (diameterOfBinaryTreeHelper l m).2) hp' hq'
      omega
    · omega

/-- Below the root there are nodes as far apart as the heights say. -/
theorem exists_bend (v : Int) (l r : BinaryTree Int) : ∃ p q, IsNode (.node v l r) p ∧
    IsNode (.node v l r) q ∧ dist p q = l.height + r.height := by
  have hside : ∀ (b : Bool) (s : BinaryTree Int), s = (if b then r else l) →
      ∃ p, IsNode (.node v l r) p ∧ p.length = s.height ∧ ∀ c p', p = c :: p' → c = b := by
    intro b s hs
    by_cases hnil : s = .nil
    · exact ⟨[], rfl, by simp [hnil, BinaryTree.height], by simp⟩
    · obtain ⟨p, hp, hlen⟩ := exists_deepest hnil
      refine ⟨b :: p, ?_, by simpa using hlen, by simp⟩
      rw [hs] at hp
      exact hp
  obtain ⟨p, hp, hlenp, hl⟩ := hside false l rfl
  obtain ⟨q, hq, hlenq, hr⟩ := hside true r rfl
  refine ⟨p, q, hp, hq, ?_⟩
  rw [← hlenp, ← hlenq]
  cases p with
  | nil => simp
  | cons b p =>
    cases q with
    | nil => simp
    | cons c q =>
      refine dist_of_ne ?_
      rw [hl b p rfl, hr c q rfl]
      decide

theorem helper_attained (t : BinaryTree Int) (m : Int) :
    (diameterOfBinaryTreeHelper t m).2 = m ∨
      ∃ p q, IsNode t p ∧ IsNode t q ∧ (diameterOfBinaryTreeHelper t m).2 = dist p q := by
  induction t generalizing m with
  | nil => exact .inl rfl
  | node v l r ihl ihr =>
    rw [helper_node]
    rcases (max_cases (diameterOfBinaryTreeHelper r (diameterOfBinaryTreeHelper l m).2).2
      (l.height + r.height)).2.2 with hold | hbend
    · rw [hold]
      rcases ihr (diameterOfBinaryTreeHelper l m).2 with hr | ⟨p, q, hp, hq, hdist⟩
      · rw [hr]
        rcases ihl m with hl | ⟨p, q, hp, hq, hdist⟩
        · exact .inl hl
        · exact .inr ⟨false :: p, false :: q, hp, hq, by simpa using hdist⟩
      · exact .inr ⟨true :: p, true :: q, hp, hq, by simpa using hdist⟩
    · obtain ⟨p, q, hp, hq, hdist⟩ := exists_bend v l r
      exact .inr ⟨p, q, hp, hq, by rw [hbend, hdist]; push_cast; rfl⟩

/-- The result is the greatest length of a path between two nodes, and 0
where there is one node or none. -/
theorem diameter_isGreatest (t : BinaryTree Int) : ∃ d : Nat, diameterOfBinaryTree t = d ∧
    (t.numNodes ≤ 1 → d = 0) ∧
    (t ≠ .nil → IsGreatest {n | ∃ p q, PathOf t p q n} d) := by
  have hattained : ∃ d : Nat, diameterOfBinaryTree t = d ∧
      (t = .nil ∧ d = 0 ∨ ∃ p q, IsNode t p ∧ IsNode t q ∧ d = dist p q) := by
    rcases helper_attained t 0 with h0 | ⟨p, q, hp, hq, hdist⟩
    · refine ⟨0, h0, ?_⟩
      by_cases hnil : t = .nil
      · exact .inl ⟨hnil, rfl⟩
      · exact .inr ⟨[], [], isNode_root hnil, isNode_root hnil, rfl⟩
    · exact ⟨dist p q, hdist, .inr ⟨p, q, hp, hq, rfl⟩⟩
  obtain ⟨d, hd, hcases⟩ := hattained
  have hbound : ∀ p q, IsNode t p → IsNode t q → dist p q ≤ d := by
    intro p q hp hq
    have hle := dist_le_helper (m := 0) hp hq
    change (dist p q : Int) ≤ diameterOfBinaryTree t at hle
    omega
  refine ⟨d, hd, ?_, ?_⟩
  · intro hone
    rcases hcases with ⟨-, h0⟩ | ⟨p, q, hp, hq, rfl⟩
    · exact h0
    · have hheight := BinaryTree.height_le_numNodes t
      have hlp := hp.length_lt
      have hlq := hq.length_lt
      obtain rfl : p = [] := List.length_eq_zero_iff.mp (by omega)
      obtain rfl : q = [] := List.length_eq_zero_iff.mp (by omega)
      rfl
  · intro hne
    rcases hcases with ⟨hnil, -⟩ | ⟨p, q, hp, hq, rfl⟩
    · exact absurd hnil hne
    · refine ⟨⟨p, q, pathOf_iff.mpr ⟨hp, hq, rfl⟩⟩, ?_⟩
      intro n hn
      obtain ⟨p', q', hpath⟩ := hn
      obtain ⟨hp', hq', rfl⟩ := pathOf_iff.mp hpath
      exact hbound p' q' hp' hq'

end Training.TreeDiameter
