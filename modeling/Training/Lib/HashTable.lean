/-
Training.Lib.HashTable — what linear probing finds.

A `Table` has each of the things `xs` in one slot, and the slots from the
home of its key up to that slot are taken. So a probe that stops at an
empty slot or at the key finds a thing that is there (`Table.find`), and
ends at an empty slot for a key that is not (`Table.find_absent`). A slot
that is emptied may cut other things off: `taken` keeps it until it is
filled, or until nothing is behind it (`Table.retake`).
-/
import Mathlib.Data.List.Basic
import Mathlib.Logic.Function.Basic
import Training.Lib.Probing

namespace Training.Lib.Probing

universe u v

variable {ν : Type u} {κ : Type v} {size i e : Nat} {empty x : ν} {k : κ} {slots : Nat → ν}
  {key key' : ν → κ} {home : κ → Nat} {taken taken' : Nat → Prop} {xs ys : List ν}

structure Table (size : Nat) (empty : ν) (slots : Nat → ν) (key : ν → κ) (home : κ → Nat)
    (taken : Nat → Prop) (xs : List ν) : Prop where
  stored : ∀ i, i < size → slots i ≠ empty → slots i ∈ xs
  placed : ∀ x ∈ xs, ∃ i, i < size ∧ slots i = x ∧ Reaches size taken (home (key x)) i
  slot_inj : ∀ i j, i < size → j < size → slots i ≠ empty → slots i = slots j → i = j
  key_inj : ∀ x ∈ xs, ∀ y ∈ xs, key x = key y → x = y
  nonempty : empty ∉ xs

/-- What a probe for `k` stops at. -/
def stops [DecidableEq ν] [DecidableEq κ] (empty : ν) (slots : Nat → ν) (key : ν → κ) (k : κ)
    (i : Nat) : Bool :=
  slots i = empty ∨ key (slots i) = k

namespace Table

/-! ## Probes -/

section Probe

variable [DecidableEq ν] [DecidableEq κ]
  (h : Table size empty slots key home (fun i => slots i ≠ empty) xs) (hhome : ∀ k, home k < size)

include h hhome

theorem find (hx : x ∈ xs) :
    ∃ i, i < size ∧ slots i = x ∧
      probe size (stops empty slots key (key x)) size (home (key x)) = some i := by
  obtain ⟨i, hi, hslot, hreach⟩ := h.placed x hx
  refine ⟨i, hi, hslot, (probe_eq_some (hhome _)).mpr ⟨hi, by simp [stops, hslot], ?_⟩⟩
  intro e he hlt
  have hne := hreach e he hlt
  refine decide_eq_false ?_
  rintro (heq | heq)
  · exact hne heq
  · have hsame := h.key_inj _ (h.stored e he hne) x hx heq
    have hei := h.slot_inj e i he hi hne (hsame.trans hslot.symm)
    rw [hei] at hlt
    exact Nat.lt_irrefl _ hlt

omit h [DecidableEq κ] in
/-- The empty slot that a probe ends at is reached over taken ones. -/
theorem reaches_of_probe
    (hi : probe size (fun i => decide (slots i = empty)) size (home k) = some i) :
    i < size ∧ slots i = empty ∧ Reaches size (fun i => slots i ≠ empty) (home k) i := by
  obtain ⟨hlt, hstop, hfirst⟩ := (probe_eq_some (hhome k)).mp hi
  exact ⟨hlt, of_decide_eq_true hstop, fun e he hd => of_decide_eq_false (hfirst e he hd)⟩

theorem find_absent (hk : ∀ x ∈ xs, key x ≠ k)
    (hi : probe size (stops empty slots key k) size (home k) = some i) : slots i = empty := by
  obtain ⟨hlt, hstop, -⟩ := (probe_eq_some (hhome k)).mp hi
  by_contra hne
  rcases of_decide_eq_true hstop with heq | heq
  · exact hne heq
  · exact hk _ (h.stored i hlt hne) heq

end Probe

/-! ## Edits -/

theorem congr (h : Table size empty slots key home taken xs) (hmem : ∀ x, x ∈ ys ↔ x ∈ xs)
    (hkey : ∀ x ∈ xs, key' x = key x) : Table size empty slots key' home taken ys where
  stored i hi hne := (hmem _).mpr (h.stored i hi hne)
  placed x hx := by
    obtain ⟨i, hi, hslot, hreach⟩ := h.placed x ((hmem x).mp hx)
    exact ⟨i, hi, hslot, by rwa [hkey x ((hmem x).mp hx)]⟩
  slot_inj := h.slot_inj
  key_inj x hx y hy heq := by
    have hx := (hmem x).mp hx
    have hy := (hmem y).mp hy
    rw [hkey x hx, hkey y hy] at heq
    exact h.key_inj x hx y hy heq
  nonempty hmem' := h.nonempty ((hmem _).mp hmem')

/-- The slots on the way are taken in another sense. -/
theorem retake (h : Table size empty slots key home taken xs)
    (hreach : ∀ i, i < size → slots i ∈ xs → Reaches size taken (home (key (slots i))) i →
      Reaches size taken' (home (key (slots i))) i) :
    Table size empty slots key home taken' xs := by
  refine ⟨h.stored, fun x hx => ?_, h.slot_inj, h.key_inj, h.nonempty⟩
  obtain ⟨i, hi, rfl, hold⟩ := h.placed x hx
  exact ⟨i, hi, rfl, hreach i hi hx hold⟩

/-- The slot of `x` is emptied; the way of the others still goes over it. -/
theorem remove [DecidableEq ν] (h : Table size empty slots key home taken xs) (hxs : xs.Nodup)
    (he : e < size) (hslot : slots e = x) :
    Table size empty (Function.update slots e empty) key home taken (xs.erase x) where
  stored i hi hne := by
    by_cases hie : i = e
    · subst hie
      rw [Function.update_self] at hne
      exact absurd rfl hne
    · rw [Function.update_of_ne hie] at hne ⊢
      refine (List.mem_erase_of_ne ?_).mpr (h.stored i hi hne)
      intro heq
      exact hie (h.slot_inj i e hi he hne (heq.trans hslot.symm))
  placed y hy := by
    obtain ⟨hne, hmem⟩ := hxs.mem_erase_iff.mp hy
    obtain ⟨i, hi, hiy, hreach⟩ := h.placed y hmem
    have hie : i ≠ e := by
      rintro rfl
      exact hne (hiy.symm.trans hslot)
    exact ⟨i, hi, by rwa [Function.update_of_ne hie], hreach⟩
  slot_inj i j hi hj hne heq := by
    by_cases hie : i = e
    · subst hie
      rw [Function.update_self] at hne
      exact absurd rfl hne
    · rw [Function.update_of_ne hie] at hne heq
      by_cases hje : j = e
      · subst hje
        rw [Function.update_self] at heq
        exact absurd heq hne
      · rw [Function.update_of_ne hje] at heq
        exact h.slot_inj i j hi hj hne heq
  key_inj y hy z hz := h.key_inj y (List.mem_of_mem_erase hy) z (List.mem_of_mem_erase hz)
  nonempty hmem := h.nonempty (List.mem_of_mem_erase hmem)

/-- `x` is put into an empty slot. -/
theorem insert (h : Table size empty slots key home taken xs) (hi : i < size)
    (hfree : slots i = empty) (hx : x ≠ empty) (hxs : x ∉ xs) (hkey : ∀ y ∈ xs, key y ≠ key x)
    (hreach : Reaches size taken (home (key x)) i) :
    Table size empty (Function.update slots i x) key home taken (x :: xs) where
  stored j hj hne := by
    by_cases hji : j = i
    · subst hji
      rw [Function.update_self]
      exact List.mem_cons_self
    · rw [Function.update_of_ne hji] at hne ⊢
      exact List.mem_cons_of_mem _ (h.stored j hj hne)
  placed y hy := by
    rcases List.mem_cons.mp hy with rfl | hy
    · exact ⟨i, hi, Function.update_self .., hreach⟩
    · obtain ⟨j, hj, hjy, hr⟩ := h.placed y hy
      have hji : j ≠ i := by
        rintro rfl
        rw [← hjy, hfree] at hy
        exact h.nonempty hy
      exact ⟨j, hj, by rwa [Function.update_of_ne hji], hr⟩
  slot_inj j l hj hl hne heq := by
    have hother : ∀ m, m < size → m ≠ i → Function.update slots i x m = x → False := by
      intro m hm hmi hmx
      rw [Function.update_of_ne hmi] at hmx
      exact hxs (hmx ▸ h.stored m hm (hmx ▸ hx))
    by_cases hji : j = i
    · subst hji
      rw [Function.update_self] at heq
      by_contra hlj
      exact hother l hl (Ne.symm hlj) heq.symm
    · by_cases hli : l = i
      · subst hli
        rw [Function.update_self] at heq
        exact absurd (hother j hj hji heq) id
      · rw [Function.update_of_ne hji] at hne heq
        rw [Function.update_of_ne hli] at heq
        exact h.slot_inj j l hj hl hne heq
  key_inj y hy z hz heq := by
    rcases List.mem_cons.mp hy with rfl | hy'
    · rcases List.mem_cons.mp hz with rfl | hz'
      · rfl
      · exact absurd heq.symm (hkey z hz')
    · rcases List.mem_cons.mp hz with rfl | hz'
      · exact absurd heq (hkey y hy')
      · exact h.key_inj y hy' z hz' heq
  nonempty hmem := by
    rcases List.mem_cons.mp hmem with heq | hmem
    · exact hx heq.symm
    · exact h.nonempty hmem

end Table

end Training.Lib.Probing
