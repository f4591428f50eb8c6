/-
Training.Lib.Chains — singly linked lists in a heap of cells.

A pointer is `none` (the null pointer) or the address of a cell, and an
address without a cell holds `none`. `Chain h p xs` is the list from the
pointer `p` on, whose cells are at the addresses `xs`. A finite list never
comes back to a cell (`Chain.nodup`).

`relink h xs` is the heap after the cells `xs` have been strung together
in this order. It is what a function leaves that takes the cells of its
lists and returns them as one list.
-/
import Mathlib.Data.List.Nodup
import Mathlib.Logic.Function.Basic

namespace Training.Lib.Chains

universe u

/-- A value and a link. -/
structure Cell (α : Type u) where
  val : α
  next : Option Nat

abbrev Heap (α : Type u) : Type u := Nat → Option (Cell α)

variable {α : Type u} {h h' : Heap α} {p q : Option Nat} {a : Nat} {xs ys : List Nat} {c : Cell α}

def deref (h : Heap α) (p : Option Nat) : Option (Cell α) := p.bind h

/-- `p->next = q` -/
def setNext (h : Heap α) (p q : Option Nat) : Option (Heap α) :=
  p.bind fun a => (h a).map fun c => Function.update h a (some { c with next := q })

@[simp] theorem deref_some (h : Heap α) (a : Nat) : deref h (some a) = h a := rfl

theorem setNext_some (ha : h a = some c) (q : Option Nat) :
    setNext h (some a) q = some (Function.update h a (some { c with next := q })) := by
  simp [setNext, ha]

/-- A link is changed, and no value. -/
theorem update_next_val (ha : h a = some c) (q : Option Nat) (b : Nat) :
    (Function.update h a (some { c with next := q }) b).map Cell.val = (h b).map Cell.val := by
  by_cases hb : b = a
  · subst hb
    simp [ha]
  · rw [Function.update_of_ne hb]

/-! ## Lists -/

def Chain (h : Heap α) : Option Nat → List Nat → Prop
  | p, [] => p = none
  | p, x :: xs => p = some x ∧ ∃ c, h x = some c ∧ Chain h c.next xs

@[simp] theorem chain_nil : Chain h p [] ↔ p = none := Iff.rfl

@[simp] theorem chain_cons :
    Chain h p (a :: xs) ↔ p = some a ∧ ∃ c, h a = some c ∧ Chain h c.next xs := Iff.rfl

theorem Chain.eq_head (hc : Chain h p xs) : p = xs.head? := by
  cases xs with
  | nil => exact hc
  | cons x xs => exact hc.1

theorem Chain.isSome (hc : Chain h p xs) (ha : a ∈ xs) : (h a).isSome := by
  induction xs generalizing p with
  | nil => exact absurd ha List.not_mem_nil
  | cons x xs ih =>
    obtain ⟨-, c, hx, hrest⟩ := hc
    rcases List.mem_cons.mp ha with rfl | hmem
    · simp [hx]
    · exact ih hrest hmem

theorem Chain.congr (hc : Chain h p xs) (heq : ∀ x ∈ xs, h' x = h x) : Chain h' p xs := by
  induction xs generalizing p with
  | nil => exact hc
  | cons x xs ih =>
    obtain ⟨hp, c, hx, hrest⟩ := hc
    refine ⟨hp, c, ?_, ih hrest fun y hy => heq y (List.mem_cons_of_mem _ hy)⟩
    rw [heq x List.mem_cons_self, hx]

/-- There is one list from `p` on. -/
theorem Chain.unique (hx : Chain h p xs) (hy : Chain h p ys) : xs = ys := by
  induction xs generalizing p ys with
  | nil =>
    cases ys with
    | nil => rfl
    | cons y ys => exact absurd (hx.symm.trans hy.1) (by simp)
  | cons x xs ih =>
    obtain ⟨rfl, c, hc, hrest⟩ := hx
    cases ys with
    | nil => exact absurd hy (by simp)
    | cons y ys =>
      obtain ⟨hp, c', hc', hrest'⟩ := hy
      obtain rfl : x = y := Option.some.inj hp
      obtain rfl : c = c' := Option.some.inj (hc.symm.trans hc')
      rw [ih hrest hrest']

theorem Chain.append (hc : Chain h p (xs ++ a :: ys)) : Chain h (some a) (a :: ys) := by
  induction xs generalizing p with
  | nil => exact ⟨rfl, hc.2⟩
  | cons x xs ih =>
    obtain ⟨-, c, -, hrest⟩ := hc
    exact ih hrest

theorem Chain.nodup (hc : Chain h p xs) : xs.Nodup := by
  induction xs generalizing p with
  | nil => exact List.nodup_nil
  | cons x xs ih =>
    have hx : Chain h (some x) (x :: xs) := ⟨rfl, hc.2⟩
    obtain ⟨-, c, -, hrest⟩ := hc
    refine List.nodup_cons.mpr ⟨fun hmem => ?_, ih hrest⟩
    -- the list from `x` on would be a proper part of itself
    obtain ⟨before, behind, rfl⟩ := List.append_of_mem hmem
    have heq := congrArg List.length (hx.unique hrest.append)
    simp at heq
    omega

/-- The link of the cell at one place is the address at the next. -/
theorem Chain.next_getElem (hc : Chain h p xs) {k : Nat} (hk : k < xs.length) :
    ∃ c, h xs[k] = some c ∧ c.next = xs[k + 1]? := by
  induction xs generalizing p k with
  | nil => simp at hk
  | cons x xs ih =>
    obtain ⟨-, c, hx, hrest⟩ := hc
    cases k with
    | zero => exact ⟨c, hx, by simpa [List.head?_eq_getElem?] using hrest.eq_head⟩
    | succ k => exact ih hrest (by simpa using hk)

/-- The list is cut behind the cell at `a`. -/
theorem Chain.cut (hc : Chain h p (xs ++ a :: ys)) (ha : h a = some c) :
    Chain (Function.update h a (some { c with next := none })) p (xs ++ [a]) ∧
      Chain (Function.update h a (some { c with next := none })) c.next ys := by
  have hnodup := hc.nodup
  induction xs generalizing p with
  | nil =>
    obtain ⟨hp, c', hc', hrest⟩ := hc
    obtain rfl : c = c' := Option.some.inj (ha.symm.trans hc')
    refine ⟨⟨hp, _, Function.update_self .., rfl⟩, hrest.congr fun y hy => ?_⟩
    rw [Function.update_of_ne]
    rintro rfl
    exact (List.nodup_cons.mp hnodup).1 hy
  | cons x xs ih =>
    obtain ⟨hp, d, hd, hrest⟩ := hc
    obtain ⟨hx, hxs⟩ := List.nodup_cons.mp hnodup
    obtain ⟨hfront, hbehind⟩ := ih hrest hxs
    refine ⟨⟨hp, d, ?_, hfront⟩, hbehind⟩
    rw [Function.update_of_ne, hd]
    rintro rfl
    exact hx (by simp)

theorem Chain.cut_getElem (hc : Chain h p xs) {k : Nat} (hk : k < xs.length)
    (ha : h xs[k] = some c) :
    Chain (Function.update h xs[k] (some { c with next := none })) p (xs.take (k + 1)) ∧
      Chain (Function.update h xs[k] (some { c with next := none })) c.next (xs.drop (k + 1)) := by
  rw [← List.take_append_getElem hk]
  refine Chain.cut ?_ ha
  rwa [← List.drop_eq_getElem_cons hk, List.take_append_drop]

/-! ## Cells strung together -/

def relink (h : Heap α) : List Nat → Heap α
  | [] => h
  | x :: xs => Function.update (relink h xs) x ((h x).map fun c => { c with next := xs.head? })

theorem relink_of_notMem (ha : a ∉ xs) : relink h xs a = h a := by
  induction xs with
  | nil => rfl
  | cons x xs ih =>
    obtain ⟨hne, hxs⟩ := not_or.mp (List.mem_cons.not.mp ha)
    rw [relink, Function.update_of_ne hne, ih hxs]

/-- No value is changed. -/
theorem relink_val (h : Heap α) (xs : List Nat) (a : Nat) :
    (relink h xs a).map Cell.val = (h a).map Cell.val := by
  induction xs with
  | nil => rfl
  | cons x xs ih =>
    by_cases ha : a = x
    · subst ha
      rw [relink, Function.update_self, Option.map_map]
      rfl
    · rw [relink, Function.update_of_ne ha, ih]

theorem chain_relink (hnodup : xs.Nodup) (hsome : ∀ x ∈ xs, (h x).isSome) :
    Chain (relink h xs) xs.head? xs := by
  induction xs with
  | nil => rfl
  | cons x xs ih =>
    obtain ⟨hx, hxs⟩ := List.nodup_cons.mp hnodup
    obtain ⟨c, hc⟩ := Option.isSome_iff_exists.mp (hsome x List.mem_cons_self)
    have hrest := ih hxs fun y hy => hsome y (List.mem_cons_of_mem _ hy)
    refine ⟨rfl, { c with next := xs.head? }, by simp [relink, hc], ?_⟩
    refine hrest.congr fun y hy => ?_
    rw [relink, Function.update_of_ne]
    rintro rfl
    exact hx hy

/-- A list is strung together as it is. -/
theorem Chain.relink_eq (hc : Chain h p xs) : relink h xs = h := by
  induction xs generalizing p with
  | nil => rfl
  | cons x xs ih =>
    obtain ⟨-, c, hx, hrest⟩ := hc
    rw [relink, ih hrest, ← hrest.eq_head, hx]
    exact Function.update_eq_self_iff.mpr hx.symm

/-- Only the links of the cells that are strung together may differ. -/
theorem relink_congr (hother : ∀ a, a ∉ xs → h' a = h a)
    (hval : ∀ a, (h' a).map Cell.val = (h a).map Cell.val) : relink h' xs = relink h xs := by
  have hcell : ∀ (a : Nat) (q : Option Nat),
      ((h' a).map fun c => { c with next := q }) = (h a).map fun c => { c with next := q } := by
    intro a q
    have heq := congrArg (Option.map fun v => (⟨v, q⟩ : Cell α)) (hval a)
    simpa [Option.map_map, Function.comp_def] using heq
  have hall : ∀ (ys : List Nat) (a : Nat), a ∈ ys ∨ a ∉ xs → relink h' ys a = relink h ys a := by
    intro ys
    induction ys with
    | nil =>
      intro a ha
      exact hother a (ha.resolve_left List.not_mem_nil)
    | cons y ys ih =>
      intro a ha
      by_cases hay : a = y
      · subst hay
        simp only [relink, Function.update_self, hcell]
      · simp only [relink, Function.update_of_ne hay]
        refine ih a (ha.imp_left fun hmem => ?_)
        exact (List.mem_cons.mp hmem).resolve_left hay
  funext a
  exact hall xs a (em (a ∈ xs))

theorem relink_update (ha : a ∉ xs) (x : Option (Cell α)) :
    relink (Function.update h a x) xs = Function.update (relink h xs) a x := by
  induction xs with
  | nil => rfl
  | cons y xs ih =>
    obtain ⟨hne, hxs⟩ := not_or.mp (List.mem_cons.not.mp ha)
    rw [relink, relink, ih hxs, Function.update_of_ne (Ne.symm hne), Function.update_comm hne]

/-- A cell is put in front of cells that are strung together. -/
theorem relink_cons (hc : h a = some c) (ha : a ∉ xs) :
    relink (Function.update h a (some { c with next := xs.head? })) xs = relink h (a :: xs) := by
  rw [relink_update ha, relink, hc, Option.map_some]

end Training.Lib.Chains
