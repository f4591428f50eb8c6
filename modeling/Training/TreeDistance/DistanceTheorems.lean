/-
Training.TreeDistance.DistanceTheorems — the distance is the length of the
path.

The search for the common ancestor comes back with `NULL` if neither value
is in the tree (`findLCA_eq_nil`), with the node of the one that is there
if the other is not (`findLCA_one`), and else with the node where the ways
to the two part: the levels below it add up to the distance
(`shortestDistance_eq_dist`). A value that is missing has the level -1,
and the other one is then at the level 0.
-/
import Training.TreeDistance.Distance

namespace Training.TreeDistance

open Training.Lib.Trees

variable {t l r : BinaryTree Int} {p q v target level : Int} {a b : List Bool}

theorem not_holds_nil : ¬Holds .nil v := by
  rintro ⟨a, ha⟩
  simp at ha

theorem holds_node : Holds (.node v l r) p ↔ v = p ∨ Holds l p ∨ Holds r p := by
  constructor
  · rintro ⟨a, ha⟩
    cases a with
    | nil => exact .inl (Option.some.inj ha)
    | cons b a =>
      cases b with
      | false => exact .inr (.inl ⟨a, ha⟩)
      | true => exact .inr (.inr ⟨a, ha⟩)
  · rintro (rfl | ⟨a, ha⟩ | ⟨a, ha⟩)
    · exact ⟨[], rfl⟩
    · exact ⟨false :: a, ha⟩
    · exact ⟨true :: a, ha⟩

theorem Distinct.left (h : Distinct (.node v l r)) : Distinct l :=
  fun a b w ha hb => (List.cons.inj (h (false :: a) (false :: b) w ha hb)).2

theorem Distinct.right (h : Distinct (.node v l r)) : Distinct r :=
  fun a b w ha hb => (List.cons.inj (h (true :: a) (true :: b) w ha hb)).2

theorem Distinct.not_both (h : Distinct (.node v l r)) (hl : Holds l p) : ¬Holds r p := by
  rintro ⟨b, hb⟩
  obtain ⟨a, ha⟩ := hl
  have heq := h (false :: a) (true :: b) p ha hb
  simp at heq

theorem Distinct.not_root (h : Distinct (.node v l r)) (hp : Holds l p ∨ Holds r p) : v ≠ p := by
  rintro rfl
  rcases hp with ⟨a, ha⟩ | ⟨a, ha⟩
  · have heq := h [] (false :: a) v rfl ha
    simp at heq
  · have heq := h [] (true :: a) v rfl ha
    simp at heq

theorem holds_side {x : Bool} (ha : valueAt (.node v l r) (x :: a) = some p) :
    Holds l p ∨ Holds r p := by
  cases x with
  | false => exact .inl ⟨a, ha⟩
  | true => exact .inr ⟨a, ha⟩

/-! ## Levels -/

theorem findLevel_absent (h : ¬Holds t target) : findLevel t target level = -1 := by
  induction t generalizing level with
  | nil => rfl
  | node v l r ihl ihr =>
    simp only [holds_node, not_or] at h
    simp [findLevel, h.1, ihl h.2.1, ihr h.2.2]

theorem findLevel_at (h : Distinct t) (ha : valueAt t a = some target) (hlevel : 0 ≤ level) :
    findLevel t target level = level + a.length := by
  induction t generalizing a level with
  | nil => simp at ha
  | node v l r ihl ihr =>
    cases a with
    | nil =>
      obtain rfl : v = target := Option.some.inj ha
      simp [findLevel]
    | cons b a =>
      cases b with
      | false =>
        have hroot : v ≠ target := h.not_root (.inl ⟨a, ha⟩)
        have hleft := ihl h.left ha (by omega : 0 ≤ level + 1)
        have hfound : level + 1 + (a.length : Int) ≠ -1 := by omega
        simp only [findLevel, if_neg hroot, hleft, if_pos hfound, List.length_cons]
        omega
      | true =>
        have hroot : v ≠ target := h.not_root (.inr ⟨a, ha⟩)
        have hleft : ¬Holds l target := fun hl => h.not_both hl ⟨a, ha⟩
        have hright := ihr h.right ha (by omega : 0 ≤ level + 1)
        simp only [findLevel, if_neg hroot, findLevel_absent hleft, ne_eq, not_true_eq_false,
          if_false, hright, List.length_cons]
        omega

/-! ## The common ancestor -/

theorem findLCA_eq_nil : findLCA t p q = .nil ↔ ¬Holds t p ∧ ¬Holds t q := by
  induction t with
  | nil => simp [findLCA, not_holds_nil]
  | node v l r ihl ihr =>
    simp only [findLCA, holds_node]
    split
    · rename_i hroot
      simp
      tauto
    · split
      · rename_i hboth
        simp only [ne_eq, ihl, ihr] at hboth
        simp
        tauto
      · split
        · rename_i hboth hleft
          simp only [ne_eq, ihl, ihr] at *
          tauto
        · rename_i hroot hboth hleft
          simp only [ne_eq, ihl, ihr] at *
          tauto

/-- What it finds is a part of the tree. -/
theorem findLCA_holds (h : Holds (findLCA t p q) v) : Holds t v := by
  induction t with
  | nil => exact h
  | node w l r ihl ihr =>
    simp only [findLCA] at h
    split at h
    · exact h
    · split at h
      · exact h
      · split at h
        · exact holds_node.mpr (.inr (.inl (ihl h)))
        · exact holds_node.mpr (.inr (.inr (ihr h)))

theorem findLCA_comm (t : BinaryTree Int) (p q : Int) : findLCA t p q = findLCA t q p := by
  induction t with
  | nil => rfl
  | node v l r ihl ihr => simp only [findLCA, ihl, ihr, or_comm]

/-- With one of the two missing it finds the other. -/
theorem findLCA_one (h : Distinct t) (hp : ¬Holds t p) (hq : Holds t q) :
    ∃ l r, findLCA t p q = .node q l r := by
  induction t with
  | nil => exact absurd hq not_holds_nil
  | node v l r ihl ihr =>
    simp only [holds_node, not_or] at hp
    by_cases hroot : v = q
    · subst hroot
      exact ⟨l, r, by simp [findLCA]⟩
    · have hnone : ¬(v = p ∨ v = q) := by tauto
      rcases holds_node.mp hq with heq | hl | hr
      · exact absurd heq hroot
      · obtain ⟨l', r', hfound⟩ := ihl h.left hp.2.1 hl
        have hright : findLCA r p q = .nil := findLCA_eq_nil.mpr ⟨hp.2.2, h.not_both hl⟩
        exact ⟨l', r', by simp [findLCA, hnone, hright, hfound]⟩
      · obtain ⟨l', r', hfound⟩ := ihr h.right hp.2.2 hr
        have hleft : findLCA l p q = .nil :=
          findLCA_eq_nil.mpr ⟨hp.2.1, fun hl => h.not_both hl hr⟩
        exact ⟨l', r', by simp [findLCA, hnone, hleft, hfound]⟩

/-- Two values on one side have their ancestor there. -/
theorem findLCA_side (h : Distinct (.node v l r)) {x : Bool}
    (ha : valueAt (.node v l r) (x :: a) = some p) (hb : valueAt (.node v l r) (x :: b) = some q) :
    findLCA (.node v l r) p q = findLCA (if x then r else l) p q := by
  have hvp := h.not_root (holds_side ha)
  have hvq := h.not_root (holds_side hb)
  cases x with
  | false =>
    have hright : findLCA r p q = .nil :=
      findLCA_eq_nil.mpr ⟨h.not_both ⟨a, ha⟩, h.not_both ⟨b, hb⟩⟩
    have hleft : findLCA l p q ≠ .nil := fun hnil => (findLCA_eq_nil.mp hnil).1 ⟨a, ha⟩
    simp [findLCA, hvp, hvq, hright, hleft]
  | true =>
    have hleft : findLCA l p q = .nil :=
      findLCA_eq_nil.mpr ⟨fun hl => h.not_both hl ⟨a, ha⟩, fun hl => h.not_both hl ⟨b, hb⟩⟩
    simp [findLCA, hvp, hvq, hleft]

/-- Two values on different sides have the root. -/
theorem findLCA_parted {x y : Bool} (hxy : x ≠ y) (ha : valueAt (.node v l r) (x :: a) = some p)
    (hb : valueAt (.node v l r) (y :: b) = some q) :
    findLCA (.node v l r) p q = .node v l r := by
  have hboth : findLCA l p q ≠ .nil ∧ findLCA r p q ≠ .nil := by
    simp only [ne_eq, findLCA_eq_nil, not_and_or, not_not]
    cases x with
    | false =>
      cases y with
      | false => exact absurd rfl hxy
      | true => exact ⟨.inl ⟨a, ha⟩, .inr ⟨b, hb⟩⟩
    | true =>
      cases y with
      | false => exact ⟨.inr ⟨b, hb⟩, .inl ⟨a, ha⟩⟩
      | true => exact absurd rfl hxy
  simp [findLCA, hboth]

/-! ## Distances -/

theorem shortestDistance_comm (t : BinaryTree Int) (p q : Int) :
    shortestDistance t p q = shortestDistance t q p := by
  simp only [shortestDistance, findLCA_comm t p q]
  omega

theorem shortestDistance_of_root (h : Distinct (.node v l r))
    (hroot : findLCA (.node v l r) p q = .node v l r)
    (ha : valueAt (.node v l r) a = some p) (hb : valueAt (.node v l r) b = some q) :
    shortestDistance (.node v l r) p q = a.length + b.length := by
  simp only [shortestDistance, hroot]
  rw [findLevel_at h ha (Int.le_refl 0), findLevel_at h hb (Int.le_refl 0)]
  omega

theorem shortestDistance_eq_dist (h : Distinct t) (ha : valueAt t a = some p)
    (hb : valueAt t b = some q) : shortestDistance t p q = dist a b := by
  induction t generalizing a b with
  | nil => simp at ha
  | node v l r ihl ihr =>
    cases a with
    | nil =>
      obtain rfl : v = p := Option.some.inj ha
      rw [shortestDistance_of_root h (by simp [findLCA]) ha hb]
      simp
    | cons x a =>
      cases b with
      | nil =>
        obtain rfl : v = q := Option.some.inj hb
        rw [shortestDistance_of_root h (by simp [findLCA]) ha hb]
        simp
      | cons y b =>
        by_cases hxy : x = y
        · subst hxy
          have hsame := findLCA_side h ha hb
          rw [dist_cons_cons]
          cases x with
          | false =>
            rw [← ihl h.left ha hb]
            simp [shortestDistance, hsame]
          | true =>
            rw [← ihr h.right ha hb]
            simp [shortestDistance, hsame]
        · rw [shortestDistance_of_root h (findLCA_parted hxy ha hb) ha hb, dist_of_ne hxy]
          push_cast
          rfl

theorem shortestDistance_absent (h : Distinct t) (hp : ¬Holds t p) :
    shortestDistance t p q < 0 := by
  have hlevel : findLevel (findLCA t p q) p 0 = -1 :=
    findLevel_absent fun hfound => hp (findLCA_holds hfound)
  simp only [shortestDistance, hlevel]
  by_cases hq : Holds t q
  · obtain ⟨l, r, hfound⟩ := findLCA_one h hp hq
    simp [hfound, findLevel]
  · rw [findLevel_absent fun hfound => hq (findLCA_holds hfound)]
    decide

/-- Of two values in the tree the length of the path between their nodes is
returned, and a negative number if one is not there. -/
theorem shortestDistance_correct (h : Distinct t) (p q : Int) :
    (∀ a b, valueAt t a = some p → valueAt t b = some q →
      ∀ n, PathOf t a b n ↔ shortestDistance t p q = n) ∧
      (¬Holds t p ∨ ¬Holds t q → shortestDistance t p q < 0) := by
  constructor
  · intro a b ha hb n
    rw [pathOf_iff, shortestDistance_eq_dist h ha hb, isNode_iff, isNode_iff]
    constructor
    · rintro ⟨-, -, rfl⟩
      rfl
    · intro hn
      exact ⟨⟨p, ha⟩, ⟨q, hb⟩, by omega⟩
  · rintro (hp | hq)
    · exact shortestDistance_absent h hp
    · rw [shortestDistance_comm]
      exact shortestDistance_absent h hq

/-- 2 and 3 below 1. -/
def threeNodes : BinaryTree Int := .node 1 (.node 2 .nil .nil) (.node 3 .nil .nil)

theorem shortestDistance_correct_three :
    (∀ a b, valueAt threeNodes a = some 2 → valueAt threeNodes b = some 3 →
      ∀ n, PathOf threeNodes a b n ↔ shortestDistance threeNodes 2 3 = n) ∧
      (¬Holds threeNodes 2 ∨ ¬Holds threeNodes 3 → shortestDistance threeNodes 2 3 < 0) := by
  refine shortestDistance_correct ?_ 2 3
  intro a b v ha hb
  rcases a with _ | ⟨_ | _, _ | ⟨_ | _, a⟩⟩ <;> rcases b with _ | ⟨_ | _, _ | ⟨_ | _, b⟩⟩ <;>
    simp [threeNodes] at ha hb ⊢ <;> omega

end Training.TreeDistance
