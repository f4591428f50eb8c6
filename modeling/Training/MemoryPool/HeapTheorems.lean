/-
Training.MemoryPool.HeapTheorems — the words of the heap.

A word that is written is read back, and the headers and footers of other
chunks keep theirs (`get_set_self`, `get_set_of_apart`, `footer_set`, …).
`SameOutside a n h h'` says that two heaps differ only in the `n` bytes
from `a` on, and words of other places are the same in both.
-/
import Training.MemoryPool.Pool

namespace Training.MemoryPool

open Training.Lib.Memory

variable {h h' h'' : Heap} {f g : Field} {a c u v e e' n : Nat}

/-! ## Words -/

theorem Field.fits (f : Field) : f.offset + f.width ≤ chunkHeader := by
  cases f <;> decide

/-- Two fields of one header. -/
theorem Field.apart (hne : f ≠ g) :
    f.offset + f.width ≤ g.offset ∨ g.offset + g.width ≤ f.offset := by
  cases f <;> cases g <;> first | exact absurd rfl hne | decide

theorem get_set_self (hv : v < 256 ^ f.width) : (h.set f c v).get f c = v :=
  load_store hv

@[simp] theorem get_set_ne (hne : f ≠ g) : (h.set f c v).get g c = h.get g c := by
  have hapart := Field.apart hne
  exact load_store_of_apart (by omega)

/-- The header of another chunk. -/
theorem get_set_of_apart (hcu : Apart chunkHeader c u) : (h.set f c v).get g u = h.get g u := by
  have hf := f.fits
  have hg := g.fits
  unfold Apart at hcu
  exact load_store_of_apart (by omega)

theorem footer_set (hce : c + chunkHeader ≤ e - chunkEnd ∨ e ≤ c) (he : chunkEnd ≤ e) :
    (h.set f c v).footer e = h.footer e := by
  have hf := f.fits
  unfold chunkEnd at he hce
  exact load_store_of_apart (by unfold chunkEnd; omega)

theorem get_setFooter (hce : c + chunkHeader ≤ e - chunkEnd ∨ e ≤ c) (he : chunkEnd ≤ e) :
    (h.setFooter e v).get f c = h.get f c := by
  have hf := f.fits
  unfold chunkEnd at he hce
  exact load_store_of_apart (by unfold chunkEnd; omega)

theorem footer_setFooter (hv : v < memSizeT) : (h.setFooter e v).footer e = v :=
  load_store (by unfold memSizeT at hv; simpa [chunkEnd] using hv)

theorem footer_setFooter_of_apart (he : chunkEnd ≤ e) (he' : chunkEnd ≤ e')
    (hee' : e + chunkEnd ≤ e' ∨ e' + chunkEnd ≤ e) : (h.setFooter e v).footer e' = h.footer e' :=
  load_store_of_apart (by omega)

theorem get_lt (h : Heap) (c : Nat) (hf : f ≠ .isFree) : h.get f c < memSizeT := by
  have hlt := load_lt f.width h (c + f.offset)
  have hwidth : f.width = 8 := by cases f <;> first | exact absurd rfl hf | rfl
  unfold Heap.get
  rw [hwidth] at hlt ⊢
  simpa [memSizeT] using hlt

/-! ## Bytes -/

def SameOutside (a n : Nat) (h h' : Heap) : Prop := ∀ i, i < a ∨ a + n ≤ i → h' i = h i

theorem SameOutside.refl (a n : Nat) (h : Heap) : SameOutside a n h h := fun _ _ => rfl

theorem SameOutside.trans (hfirst : SameOutside a n h h') (hsecond : SameOutside a n h' h'') :
    SameOutside a n h h'' := fun i hi => (hsecond i hi).trans (hfirst i hi)

/-- A header that lies inside is written. -/
theorem SameOutside.set (hsame : SameOutside a n h h') (hlo : a ≤ c)
    (hhi : c + chunkHeader ≤ a + n) : SameOutside a n h (h'.set f c v) := fun i hi => by
  have hf := f.fits
  have hkeep : (h'.set f c v) i = h' i := store_of_ne (by omega)
  rw [hkeep, hsame i hi]

theorem SameOutside.setFooter (hsame : SameOutside a n h h') (hlo : a + chunkEnd ≤ e)
    (hhi : e ≤ a + n) : SameOutside a n h (h'.setFooter e v) := fun i hi => by
  have hkeep : (h'.setFooter e v) i = h' i := store_of_ne (by omega)
  rw [hkeep, hsame i hi]

theorem SameOutside.get (hsame : SameOutside a n h h') (hc : c + chunkHeader ≤ a ∨ a + n ≤ c) :
    h'.get f c = h.get f c := by
  have hf := f.fits
  exact load_congr fun i hi hi' => hsame i (by omega)

theorem SameOutside.footer (hsame : SameOutside a n h h') (he : chunkEnd ≤ e)
    (hout : e ≤ a ∨ a + n + chunkEnd ≤ e) : h'.footer e = h.footer e :=
  load_congr fun i hi hi' => hsame i (by omega)

end Training.MemoryPool
