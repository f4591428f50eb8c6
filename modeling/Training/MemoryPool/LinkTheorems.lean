/-
Training.MemoryPool.LinkTheorems — the list macros on the heap.

`Headers S` says that the headers at the addresses `S` lie apart, so that
a store to one of them is seen there only (`Headers.get_set`). Each macro
is then a list edit of `NullLists`: `MP_DLINKLIST_DEL` takes a chunk out
(`listed_del`), `MP_DLINKLIST_INS_FRT` puts one in front
(`listed_insFrt`), and the remainder of a chunk that is split takes its
place (`listed_relink`). What they do to other words is said once for all
stores to headers: `Edits S h h'`.
-/
import Training.Lib.NullLists
import Training.MemoryPool.HeapTheorems

namespace Training.MemoryPool

open Training.Lib.Memory Training.Lib.NullLists

variable {h h' h'' : Heap} {f g : Field} {S xs : List Nat} {head x y a n e v total : Nat}

/-! ## Headers -/

structure Headers (S : List Nat) : Prop where
  apart : ∀ x ∈ S, ∀ y ∈ S, x ≠ y → Apart chunkHeader x y
  ne_zero : ∀ x ∈ S, x ≠ 0
  lt : ∀ x ∈ S, x < memSizeT

theorem Headers.get_set (hS : Headers S) (f : Field) (hx : x ∈ S) (hy : y ∈ S)
    (hv : v < 256 ^ f.width) :
    (h.set f x v).get g y = if g = f ∧ y = x then v else h.get g y := by
  by_cases hyx : y = x
  · subst hyx
    by_cases hgf : g = f
    · rw [if_pos ⟨hgf, rfl⟩, hgf]
      exact get_set_self hv
    · rw [if_neg fun hand => hgf hand.1]
      exact get_set_ne (Ne.symm hgf)
  · rw [if_neg fun hand => hyx hand.2]
    exact get_set_of_apart (hS.apart x hx y hy (Ne.symm hyx))

/-- The heap after stores to headers at `S`. -/
inductive Edits (S : List Nat) (h : Heap) : Heap → Prop
  | refl : Edits S h h
  | set {h' : Heap} (f : Field) {x : Nat} (v : Nat) (hx : x ∈ S) (hed : Edits S h h') :
      Edits S h (h'.set f x v)

theorem Edits.trans (hfirst : Edits S h h') (hsecond : Edits S h' h'') : Edits S h h'' := by
  induction hsecond with
  | refl => exact hfirst
  | set f v hx _ ih => exact ih.set f v hx

theorem Edits.footer (hed : Edits S h h') (he : chunkEnd ≤ e)
    (hout : ∀ x ∈ S, x + chunkHeader ≤ e - chunkEnd ∨ e ≤ x) : h'.footer e = h.footer e := by
  induction hed with
  | refl => rfl
  | set f v hx _ ih => rw [footer_set (hout _ hx) he, ih]

theorem Edits.sameOutside (hed : Edits S h h') (hin : ∀ x ∈ S, a ≤ x ∧ x + chunkHeader ≤ a + n) :
    SameOutside a n h h' := by
  induction hed with
  | refl => exact .refl a n h
  | set f v hx _ ih => exact ih.set (hin _ hx).1 (hin _ hx).2

/-! ## The macros -/

/-- The neighbours of `x` in its list have headers at `S`, or are `NULL`. -/
structure Linked (h : Heap) (S : List Nat) (x : Nat) : Prop where
  mem : x ∈ S
  prev : h.get .prev x = 0 ∨ h.get .prev x ∈ S
  next : h.get .next x = 0 ∨ h.get .next x ∈ S
  prev_ne : h.get .prev x ≠ x
  next_ne : h.get .next x ≠ x

theorem linked_of_listed (hl : Listed (h.get .next) (h.get .prev) head xs) (hx : x ∈ xs)
    (hsub : ∀ y ∈ xs, y ∈ S) : Linked h S x where
  mem := hsub x hx
  prev := (List.mem_cons.mp (hl.prev_mem hx)).imp_right (hsub _)
  next := (List.mem_cons.mp (hl.next_mem hx)).imp_right (hsub _)
  prev_ne := hl.prev_ne hx
  next_ne := hl.next_ne hx

/-- A store through a pointer that may be `NULL`. -/
def Heap.link (h : Heap) (f : Field) (x v : Nat) : Heap := if x = 0 then h else h.set f x v

theorem Headers.get_link (hS : Headers S) (f : Field) (hx : x = 0 ∨ x ∈ S) (hy : y ∈ S)
    (hv : v < 256 ^ f.width) :
    (h.link f x v).get g y = if g = f ∧ y = x then v else h.get g y := by
  unfold Heap.link
  split
  · rename_i hzero
    rw [if_neg fun hand => hS.ne_zero y hy (hand.2.trans hzero)]
  · rename_i hne
    exact hS.get_set f (hx.resolve_left hne) hy hv

theorem Edits.link (f : Field) (v : Nat) (hx : x = 0 ∨ x ∈ S) (hed : Edits S h h') :
    Edits S h (h'.link f x v) := by
  unfold Heap.link
  split
  · exact hed
  · rename_i hne
    exact hed.set f v (hx.resolve_left hne)

theorem link_fits (h : Heap) (x : Nat) (hf : f ≠ .isFree) : h.get f x < 256 ^ 8 := get_lt h x hf

theorem Headers.fits (hS : Headers S) (hx : x = 0 ∨ x ∈ S) : x < 256 ^ 8 := by
  rcases hx with rfl | hx
  · decide
  · exact hS.lt x hx

theorem dlinklistDel_eq (hS : Headers S) (hx : Linked h S x) :
    dlinklistDel h head x =
      ((h.link .next (h.get .prev x) (h.get .next x)).link .prev (h.get .next x) (h.get .prev x),
        if h.get .prev x = 0 then h.get .next x else head) := by
  unfold dlinklistDel Heap.link
  split
  · rename_i hprev
    simp only [hprev, ne_eq, ite_not]
  · rename_i hprev
    have hp := hx.prev.resolve_left hprev
    have hkeep : ∀ g, (h.set .next (h.get .prev x) (h.get .next x)).get g x = h.get g x := by
      intro g
      rw [hS.get_set .next hp hx.mem (link_fits h x (by decide)),
        if_neg fun hand => hx.prev_ne hand.2.symm]
    simp only [hkeep, ne_eq, ite_not]

theorem edits_del (hS : Headers S) (hx : Linked h S x) : Edits S h (dlinklistDel h head x).1 := by
  rw [dlinklistDel_eq hS hx]
  exact (Edits.refl.link .next _ hx.prev).link .prev _ hx.next

theorem get_del (hS : Headers S) (hx : Linked h S x) (hy : y ∈ S) :
    (dlinklistDel h head x).1.get g y =
      if g = .next ∧ y = h.get .prev x then h.get .next x
      else if g = .prev ∧ y = h.get .next x then h.get .prev x else h.get g y := by
  rw [dlinklistDel_eq hS hx]
  dsimp only
  rw [hS.get_link .prev hx.next hy (link_fits h x (by decide)),
    hS.get_link .next hx.prev hy (link_fits h x (by decide))]
  cases g <;> simp

theorem edits_insFrt (hx : x ∈ S) (hhead : head = 0 ∨ head ∈ S) :
    Edits S h (dlinklistInsFrt h head x) := by
  have hed := ((Edits.refl (S := S) (h := h)).set .prev 0 hx).set .next head hx
  have hlink := hed.link .prev x hhead
  unfold Heap.link at hlink
  simp only [dlinklistInsFrt, ne_eq, ite_not]
  exact hlink

theorem get_insFrt (hS : Headers S) (hx : x ∈ S) (hhead : head = 0 ∨ head ∈ S) (hy : y ∈ S) :
    (dlinklistInsFrt h head x).get g y =
      if g = .prev ∧ y = head then x
      else if y = x then (if g = .next then head else if g = .prev then 0 else h.get g x)
      else h.get g y := by
  have heq : dlinklistInsFrt h head x = ((h.set .prev x 0).set .next x head).link .prev head x := by
    simp only [dlinklistInsFrt, Heap.link, ne_eq, ite_not]
  rw [heq, hS.get_link .prev hhead hy (hS.fits (Or.inr hx)),
    hS.get_set .next hx hy (hS.fits hhead), hS.get_set .prev hx hy (by decide)]
  by_cases hyx : y = x
  · subst hyx
    cases g <;> simp
  · simp [hyx]

/-- The links of `x` lead around it. -/
theorem relink_eq (hS : Headers S) (hx : Linked h S x) :
    relink h head x = ((h.link .next (h.get .prev x) x).link .prev (h.get .next x) x,
      if h.get .prev x = 0 then x else head) := by
  unfold relink Heap.link
  split
  · rename_i hprev
    simp only [ne_eq, ite_not]
  · rename_i hprev
    have hp := hx.prev.resolve_left hprev
    have hkeep : ∀ g, (h.set .next (h.get .prev x) x).get g x = h.get g x := by
      intro g
      rw [hS.get_set .next hp hx.mem (hS.fits (Or.inr hx.mem)),
        if_neg fun hand => hx.prev_ne hand.2.symm]
    simp only [hkeep, ne_eq, ite_not]

theorem edits_relink (hS : Headers S) (hx : Linked h S x) : Edits S h (relink h head x).1 := by
  rw [relink_eq hS hx]
  exact (Edits.refl.link .next _ hx.prev).link .prev _ hx.next

theorem get_relink (hS : Headers S) (hx : Linked h S x) (hy : y ∈ S) :
    (relink h head x).1.get g y =
      if g = .next ∧ y = h.get .prev x then x
      else if g = .prev ∧ y = h.get .next x then x else h.get g y := by
  rw [relink_eq hS hx]
  dsimp only
  rw [hS.get_link .prev hx.next hy (hS.fits (Or.inr hx.mem)),
    hS.get_link .next hx.prev hy (hS.fits (Or.inr hx.mem))]
  cases g <;> simp

/-! ## Lists -/

/-- The lists of a heap. -/
abbrev Heap.Lists (h : Heap) (head : Nat) (xs : List Nat) : Prop :=
  Listed (h.get .next) (h.get .prev) head xs

theorem Heap.Lists.head_mem (hl : h.Lists head xs) (hsub : ∀ y ∈ xs, y ∈ S) :
    head = 0 ∨ head ∈ S := by
  cases xs with
  | nil => exact Or.inl (hl.head_eq_zero.mpr rfl)
  | cons x xs => exact Or.inr (hl.head_cons ▸ hsub x List.mem_cons_self)

theorem lists_del (hS : Headers S) (hl : h.Lists head xs) (hx : x ∈ xs) (hsub : ∀ y ∈ xs, y ∈ S) :
    (dlinklistDel h head x).1.Lists (dlinklistDel h head x).2 (xs.erase x) := by
  have hlinked := linked_of_listed hl hx hsub
  refine hl.remove hx ?_ (fun y hy => ?_) fun y hy => ?_
  · rw [dlinklistDel_eq hS hlinked]
  · rw [get_del hS hlinked (hsub y hy)]
    simp
  · rw [get_del hS hlinked (hsub y hy)]
    simp

/-- A list that `x` is not in. -/
theorem lists_del_other (hS : Headers S) (hl : h.Lists head xs) (hx : x ∈ xs)
    (hsub : ∀ y ∈ xs, y ∈ S) {ys : List Nat} {other : Nat} (hys : h.Lists other ys)
    (hysub : ∀ y ∈ ys, y ∈ S) (hdisj : ∀ y ∈ ys, y ∉ xs) :
    (dlinklistDel h head x).1.Lists other ys := by
  have hlinked := linked_of_listed hl hx hsub
  have hout : ∀ y ∈ ys, ∀ z ∈ 0 :: xs, y ≠ z := by
    rintro y hy z hz rfl
    rcases List.mem_cons.mp hz with rfl | hz
    · exact hys.ne_zero hy rfl
    · exact hdisj y hy hz
  refine hys.congr (fun y hy => ?_) fun y hy => ?_
  · rw [get_del hS hlinked (hysub y hy)]
    simp [hout y hy _ (hl.prev_mem hx)]
  · rw [get_del hS hlinked (hysub y hy)]
    simp [hout y hy _ (hl.next_mem hx)]

theorem lists_insFrt (hS : Headers S) (hl : h.Lists head xs) (hx : x ∈ S) (hnot : x ∉ xs)
    (hsub : ∀ y ∈ xs, y ∈ S) : (dlinklistInsFrt h head x).Lists x (x :: xs) := by
  have hhead := hl.head_mem hsub
  have hx0 := hS.ne_zero x hx
  have hne : x ≠ head := by
    rintro rfl
    cases xs with
    | nil => exact hx0 (hl.head_eq_zero.mpr rfl)
    | cons y ys => exact hnot (hl.head_cons ▸ List.mem_cons_self)
  have hother : ∀ y ∈ xs, y ≠ x := fun y hy heq => hnot (heq ▸ hy)
  refine hl.push ?_ ?_ ?_ (fun y hy => ?_) fun y hy => ?_
  · exact fun hmem => (List.mem_cons.mp hmem).elim hx0 hnot
  · rw [get_insFrt hS hx hhead hx]
    simp
  · rw [get_insFrt hS hx hhead hx]
    simp [hne]
  · rw [get_insFrt hS hx hhead (hsub y hy)]
    simp [hother y hy]
  · rw [get_insFrt hS hx hhead (hsub y hy)]
    simp [hother y hy]

theorem lists_insFrt_other (hS : Headers S) (hl : h.Lists head xs) (hx : x ∈ S)
    (hsub : ∀ y ∈ xs, y ∈ S) {ys : List Nat} {other : Nat} (hys : h.Lists other ys)
    (hysub : ∀ y ∈ ys, y ∈ S) (hdisj : ∀ y ∈ ys, y ∉ xs) (hnot : x ∉ ys) :
    (dlinklistInsFrt h head x).Lists other ys := by
  have hhead := hl.head_mem hsub
  have hout : ∀ y ∈ ys, y ≠ head := by
    rintro y hy rfl
    cases xs with
    | nil => exact hys.ne_zero hy (hl.head_eq_zero.mpr rfl)
    | cons z zs => exact hdisj y hy (hl.head_cons ▸ List.mem_cons_self)
  have hother : ∀ y ∈ ys, y ≠ x := fun y hy heq => hnot (heq ▸ hy)
  refine hys.congr (fun y hy => ?_) fun y hy => ?_
  · rw [get_insFrt hS hx hhead (hysub y hy)]
    simp [hother y hy]
  · rw [get_insFrt hS hx hhead (hysub y hy)]
    simp [hother y hy, hout y hy]

/-- A store to another field leaves the lists alone. -/
theorem lists_set (hS : Headers S) (hl : h.Lists head xs) (hx : x ∈ S) (hsub : ∀ y ∈ xs, y ∈ S)
    (hnext : f ≠ .next) (hprev : f ≠ .prev) (hv : v < 256 ^ f.width) :
    (h.set f x v).Lists head xs :=
  hl.congr (fun y hy => by rw [hS.get_set f hx (hsub y hy) hv, if_neg fun hand => hnext hand.1.symm])
    fun y hy => by rw [hS.get_set f hx (hsub y hy) hv, if_neg fun hand => hprev hand.1.symm]

/-- The other fields are as before. -/
theorem get_del_of_ne (hS : Headers S) (hx : Linked h S x) (hy : y ∈ S) (hnext : g ≠ .next)
    (hprev : g ≠ .prev) : (dlinklistDel h head x).1.get g y = h.get g y := by
  rw [get_del hS hx hy, if_neg fun hand => hnext hand.1, if_neg fun hand => hprev hand.1]

theorem get_insFrt_of_ne (hS : Headers S) (hx : x ∈ S) (hhead : head = 0 ∨ head ∈ S) (hy : y ∈ S)
    (hnext : g ≠ .next) (hprev : g ≠ .prev) : (dlinklistInsFrt h head x).get g y = h.get g y := by
  rw [get_insFrt hS hx hhead hy, if_neg fun hand => hprev hand.1, if_neg hnext, if_neg hprev]
  split
  · rename_i hyx
    rw [hyx]
  · rfl

/-! ## The header of a remainder -/

theorem get_copyChunk (hS : Headers S) (hx : x ∈ S) (z : Nat) (hy : y ∈ S) :
    (h.copyChunk x z).get g y = if y = x then h.get g z else h.get g y := by
  have hfits : ∀ f, h.get f z < 256 ^ f.width := fun f => load_lt _ _ _
  unfold Heap.copyChunk
  rw [hS.get_set .isFree hx hy (hfits _), hS.get_set .next hx hy (hfits _),
    hS.get_set .prev hx hy (hfits _), hS.get_set .allocMem hx hy (hfits _)]
  by_cases hyx : y = x
  · subst hyx
    cases g <;> simp
  · simp [hyx]

theorem edits_copyChunk (hx : x ∈ S) {z : Nat} : Edits S h (h.copyChunk x z) :=
  (((Edits.refl.set .allocMem _ hx).set .prev _ hx).set .next _ hx).set .isFree _ hx

end Training.MemoryPool
