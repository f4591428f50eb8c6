/-
Training.Lib.NullLists — doubly linked lists that end in `NULL`.

`Listed next prev head xs` is the list of the nodes `xs` from `head` on: the
`prev` of the first and the `next` of the last are 0. It is the list of
`Doubly` between 0 and 0, where the links of 0 are the head and the last
node. A node is taken out (`Listed.remove`), put in front
(`Listed.push`) or replaced by another one (`Listed.replace`).
-/
import Training.Lib.Doubly

namespace Training.Lib.NullLists

open Training.Lib.Doubly

variable {next prev next' prev' : Nat → Nat} {head head' x y : Nat} {xs : List Nat}

/-- The links, with that of 0 added. -/
def link (head : Nat) (next : Nat → Nat) : Nat → Nat := fun c => if c = 0 then head else next c

@[simp] theorem link_zero (head : Nat) (next : Nat → Nat) : link head next 0 = head := rfl

theorem link_of_ne (h : x ≠ 0) : link head next x = next x := if_neg h

structure Listed (next prev : Nat → Nat) (head : Nat) (xs : List Nat) : Prop where
  nodup : (0 :: xs).Nodup
  between : ∃ last, Between (link head next) (link last prev) 0 0 xs

theorem listed_nil : Listed next prev 0 [] :=
  ⟨List.nodup_singleton 0, 0, rfl, rfl⟩

theorem Listed.ne_zero (h : Listed next prev head xs) (hx : x ∈ xs) : x ≠ 0 := by
  rintro rfl
  exact (List.nodup_cons.mp h.nodup).1 hx

theorem Listed.nodup_xs (h : Listed next prev head xs) : xs.Nodup := (List.nodup_cons.mp h.nodup).2

theorem Listed.nodup_append (h : Listed next prev head xs) : (xs ++ [0]).Nodup :=
  (List.perm_append_singleton 0 xs).nodup_iff.mpr h.nodup

theorem Listed.head_eq_zero (h : Listed next prev head xs) : head = 0 ↔ xs = [] := by
  obtain ⟨last, hbetween⟩ := h.between
  cases xs with
  | nil => exact iff_of_true hbetween.1 rfl
  | cons x xs =>
    have hx : head = x := hbetween.1
    exact iff_of_false (hx ▸ h.ne_zero List.mem_cons_self) (List.cons_ne_nil _ _)

theorem Listed.head_cons (h : Listed next prev head (x :: xs)) : head = x := by
  obtain ⟨last, hbetween⟩ := h.between
  exact hbetween.1

/-- The links of a node lead to nodes of the list or are `NULL`. -/
theorem Listed.next_mem (h : Listed next prev head xs) (hx : x ∈ xs) : next x ∈ 0 :: xs := by
  obtain ⟨last, hbetween⟩ := h.between
  have hmem := hbetween.next_mem (List.mem_cons_of_mem 0 hx)
  rw [link_of_ne (h.ne_zero hx)] at hmem
  exact (List.perm_append_singleton 0 xs).mem_iff.mp hmem

theorem Listed.prev_mem (h : Listed next prev head xs) (hx : x ∈ xs) : prev x ∈ 0 :: xs := by
  obtain ⟨last, hbetween⟩ := h.between
  have hmem := hbetween.prev_mem (List.mem_append_left [0] hx)
  rwa [link_of_ne (h.ne_zero hx)] at hmem

theorem Listed.prev_ne (h : Listed next prev head xs) (hx : x ∈ xs) : prev x ≠ x := by
  obtain ⟨last, hbetween⟩ := h.between
  have hne := hbetween.prev_ne h.nodup hx
  rwa [link_of_ne (h.ne_zero hx)] at hne

theorem Listed.congr (h : Listed next prev head xs) (hnext : ∀ y ∈ xs, next' y = next y)
    (hprev : ∀ y ∈ xs, prev' y = prev y) : Listed next' prev' head xs := by
  obtain ⟨last, hbetween⟩ := h.between
  refine ⟨h.nodup, last, hbetween.congr (fun y hy => ?_) fun y hy => ?_⟩
  · rcases List.mem_cons.mp hy with rfl | hy
    · rfl
    · rw [link_of_ne (h.ne_zero hy), link_of_ne (h.ne_zero hy), hnext y hy]
  · rcases List.mem_cons.mp ((List.perm_append_singleton 0 xs).mem_iff.mp hy) with rfl | hy
    · rfl
    · rw [link_of_ne (h.ne_zero hy), link_of_ne (h.ne_zero hy), hprev y hy]

theorem Listed.next_ne (h : Listed next prev head xs) (hx : x ∈ xs) : next x ≠ x := by
  obtain ⟨last, hbetween⟩ := h.between
  have hne := hbetween.next_ne h.nodup_append hx
  rwa [link_of_ne (h.ne_zero hx)] at hne

/-! ## The way through the list -/

/-- From `c` on the links lead through `xs` to `NULL`. -/
def Ahead (next : Nat → Nat) : Nat → List Nat → Prop
  | c, [] => c = 0
  | c, x :: xs => c = x ∧ x ≠ 0 ∧ Ahead next (next x) xs

theorem ahead_of_between {last a : Nat} (h : Between (link head next) (link last prev) a 0 xs)
    (hne : ∀ x ∈ xs, x ≠ 0) : Ahead next (link head next a) xs := by
  induction xs generalizing a with
  | nil => exact h.1
  | cons x xs ih =>
    have hx := hne x List.mem_cons_self
    have hrest := ih h.2.2 fun y hy => hne y (List.mem_cons_of_mem _ hy)
    rw [link_of_ne hx] at hrest
    exact ⟨h.1, hx, hrest⟩

theorem Listed.ahead (h : Listed next prev head xs) : Ahead next head xs := by
  obtain ⟨last, hbetween⟩ := h.between
  exact ahead_of_between hbetween fun x hx => h.ne_zero hx

/-! ## Edits -/

/-- The links around `x` skip it. -/
theorem Listed.remove (h : Listed next prev head xs) (hx : x ∈ xs)
    (hhead : head' = if prev x = 0 then next x else head)
    (hnext : ∀ y ∈ xs, next' y = if y = prev x then next x else next y)
    (hprev : ∀ y ∈ xs, prev' y = if y = next x then prev x else prev y) :
    Listed next' prev' head' (xs.erase x) := by
  obtain ⟨last, hbetween⟩ := h.between
  have hx0 := h.ne_zero hx
  have hnodup : (0 :: xs.erase x).Nodup := by
    have herase := h.nodup.erase x
    rwa [List.erase_cons_tail (by simpa using Ne.symm hx0)] at herase
  refine ⟨hnodup, if next x = 0 then prev x else last,
    hbetween.remove hx h.nodup h.nodup_append (fun y hy => ?_) fun y hy => ?_⟩
  · rw [link_of_ne hx0, link_of_ne hx0]
    rcases List.mem_cons.mp hy with rfl | hy
    · simp only [link_zero, hhead, eq_comm]
    · rw [link_of_ne (h.ne_zero hy), link_of_ne (h.ne_zero hy), hnext y hy]
  · rw [link_of_ne hx0, link_of_ne hx0]
    rcases List.mem_cons.mp ((List.perm_append_singleton 0 xs).mem_iff.mp hy) with rfl | hy
    · simp only [link_zero, eq_comm]
    · rw [link_of_ne (h.ne_zero hy), link_of_ne (h.ne_zero hy), hprev y hy]

/-- `x` is put in front. -/
theorem Listed.push (h : Listed next prev head xs) (hx : x ∉ 0 :: xs)
    (hnextx : next' x = head) (hprevx : prev' x = 0) (hnext : ∀ y ∈ xs, next' y = next y)
    (hprev : ∀ y ∈ xs, prev' y = if y = head then x else prev y) :
    Listed next' prev' x (x :: xs) := by
  obtain ⟨last, hbetween⟩ := h.between
  have hx0 : x ≠ 0 := fun heq => hx (heq ▸ List.mem_cons_self)
  have hnodup : (0 :: x :: xs).Nodup :=
    (List.Perm.swap 0 x xs).nodup_iff.mp (List.nodup_cons.mpr ⟨hx, h.nodup⟩)
  refine ⟨hnodup, if head = 0 then x else last,
    hbetween.insert h.nodup_append rfl ?_ ?_ (fun y hy => ?_) fun y hy => ?_⟩
  · rw [link_of_ne hx0, hnextx, link_zero]
  · rw [link_of_ne hx0, hprevx]
  · rw [link_of_ne (h.ne_zero hy), link_of_ne (h.ne_zero hy), hnext y hy]
  · rcases List.mem_cons.mp ((List.perm_append_singleton 0 xs).mem_iff.mp hy) with rfl | hy
    · simp only [link_zero, eq_comm]
    · rw [link_of_ne (h.ne_zero hy), link_of_ne (h.ne_zero hy), hprev y hy, link_zero]

theorem eq_iff_of_inverse {f g : Nat → Nat} (hy : g (f y) = y) (hx : f (g x) = x) :
    f y = x ↔ y = g x := by
  constructor
  · rintro rfl
    exact hy.symm
  · rintro rfl
    exact hx

/-- The links that lead to `x` are those of its neighbours. -/
theorem Listed.next_eq_iff (h : Listed next prev head xs) (hx : x ∈ xs) {z : Nat} (hz : z ∈ xs) :
    next z = x ↔ z = prev x := by
  obtain ⟨last, hbetween⟩ := h.between
  have hiff := eq_iff_of_inverse (hbetween.prev_next (List.mem_cons_of_mem 0 hz))
    (hbetween.next_prev (List.mem_append_left [0] hx))
  rwa [link_of_ne (h.ne_zero hz), link_of_ne (h.ne_zero hx)] at hiff

theorem Listed.prev_eq_iff (h : Listed next prev head xs) (hx : x ∈ xs) {z : Nat} (hz : z ∈ xs) :
    prev z = x ↔ z = next x := by
  obtain ⟨last, hbetween⟩ := h.between
  have hiff := eq_iff_of_inverse (hbetween.next_prev (List.mem_append_left [0] hz))
    (hbetween.prev_next (List.mem_cons_of_mem 0 hx))
  rwa [link_of_ne (h.ne_zero hz), link_of_ne (h.ne_zero hx)] at hiff

theorem Listed.head_eq_iff (h : Listed next prev head xs) (hx : x ∈ xs) :
    head = x ↔ prev x = 0 := by
  obtain ⟨last, hbetween⟩ := h.between
  have hiff := eq_iff_of_inverse (hbetween.prev_next List.mem_cons_self)
    (hbetween.next_prev (List.mem_append_left [0] hx))
  rwa [link_zero, link_of_ne (h.ne_zero hx), eq_comm (a := 0)] at hiff

/-- `y` is put in the place of `x`. -/
theorem Listed.replace (h : Listed next prev head xs) (hx : x ∈ xs) (hy : y ∉ 0 :: xs)
    (hhead : head' = if prev x = 0 then y else head)
    (hnexty : next' y = next x) (hprevy : prev' y = prev x)
    (hnext : ∀ z ∈ xs, z ≠ x → next' z = if z = prev x then y else next z)
    (hprev : ∀ z ∈ xs, z ≠ x → prev' z = if z = next x then y else prev z) :
    Listed next' prev' head' (xs.map fun z => if z = x then y else z) := by
  obtain ⟨last, hbetween⟩ := h.between
  have hx0 := h.ne_zero hx
  have hy0 : y ≠ 0 := fun heq => hy (heq ▸ List.mem_cons_self)
  have hyxs : y ∉ xs := fun hmem => hy (List.mem_cons_of_mem _ hmem)
  have hmap : Between (link head' next') (link (if last = x then y else last) prev')
      (if 0 = x then y else 0) (if 0 = x then y else 0) (xs.map fun z => if z = x then y else z) := by
    refine hbetween.map (fun z => if z = x then y else z) (fun z hz => ?_) fun z hz => ?_
    · rcases List.mem_cons.mp hz with rfl | hz
      · simp only [if_neg (Ne.symm hx0), link_zero, hhead, h.head_eq_iff hx]
      · rw [link_of_ne (h.ne_zero hz)]
        by_cases hzx : z = x
        · rw [if_pos hzx, hzx, link_of_ne hy0, hnexty, if_neg (h.next_ne hx)]
        · rw [if_neg hzx, link_of_ne (h.ne_zero hz), hnext z hz hzx]
          simp only [h.next_eq_iff hx hz]
    · rcases List.mem_cons.mp ((List.perm_append_singleton 0 xs).mem_iff.mp hz) with rfl | hz
      · rw [if_neg (Ne.symm hx0), link_zero, link_zero]
      · rw [link_of_ne (h.ne_zero hz)]
        by_cases hzx : z = x
        · rw [if_pos hzx, hzx, link_of_ne hy0, hprevy, if_neg (h.prev_ne hx)]
        · rw [if_neg hzx, link_of_ne (h.ne_zero hz), hprev z hz hzx]
          simp only [h.prev_eq_iff hx hz]
  rw [if_neg (Ne.symm hx0)] at hmap
  refine ⟨List.nodup_cons.mpr ⟨?_, ?_⟩, _, hmap⟩
  · intro hmem
    obtain ⟨z, hz, heq⟩ := List.mem_map.mp hmem
    split at heq
    · exact hy0 heq
    · exact h.ne_zero hz heq
  · refine List.Nodup.map_on (fun z hz w hw heq => ?_) h.nodup_xs
    split at heq <;> split at heq
    case isTrue.isTrue hzx hwx => rw [hzx, hwx]
    case isTrue.isFalse => exact absurd (heq ▸ hw) hyxs
    case isFalse.isTrue => exact absurd (heq ▸ hz) hyxs
    case isFalse.isFalse => exact heq

end Training.Lib.NullLists
