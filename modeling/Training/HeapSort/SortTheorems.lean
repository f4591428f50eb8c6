/-
Training.HeapSort.SortTheorems — heap sort sorts.

The proofs are about any test that is a strict weak order. `heapify`
makes a heap where only its root may be out of place
(`heapifyWith_spec`), and it moves elements inside the heap only
(`Within`). So the first loop builds a heap from the last parent
backwards, and the second one keeps a heap in front of a sorted suffix
whose elements are not below any of the heap (`Selected`).
-/
import Training.HeapSort.Heapify
import Training.Lib.Heaps

namespace Training.HeapSort

open Training.Lib Training.Lib.Arrays Training.Lib.Heaps

section Generic

variable {α : Type} {above : α → α → Bool} {arr : List α} {f g : Nat → α}
  {lo n i k fuel : Nat}

/-- A strict weak order. -/
structure Orders (above : α → α → Bool) : Prop where
  asymm : ∀ x y, above x y = true → above y x = false
  trans : ∀ x y z, above x y = false → above y z = false → above x z = false

def NotAbove (above : α → α → Bool) (x y : α) : Prop := above x y = false

theorem Orders.refl (h : Orders above) (x : α) : NotAbove above x x := by
  cases hx : above x x with
  | false => exact hx
  | true => exact absurd (hx.symm.trans (h.asymm x x hx)) (by simp)

/-! ## What is to be kept -/

/-- The choice among two places. -/
def pick (above : α → α → Bool) (f : Nat → α) (n j large : Nat) : Nat :=
  if j < n ∧ above (f j) (f large) then j else large

/-- The greatest of the element at `i` and its children. -/
theorem pick_spec (hord : Orders above) (f : Nat → α) (n i : Nat) {large : Nat}
    (h : large = pick above f n (i * 2 + 2) (pick above f n (i * 2 + 1) i)) :
    (large = i ∨ Child i large ∧ large < n ∧ NotAbove above (f i) (f large)) ∧
      ∀ j, Child i j → j < n → NotAbove above (f j) (f large) := by
  have hleft : i * 2 + 1 = 2 * i + 1 := by omega
  have hright : i * 2 + 2 = 2 * i + 2 := by omega
  rw [hleft, hright] at h
  by_cases h1 : 2 * i + 1 < n ∧ above (f (2 * i + 1)) (f i) = true
  · rw [show pick above f n (2 * i + 1) i = 2 * i + 1 from if_pos h1] at h
    have hi1 : NotAbove above (f i) (f (2 * i + 1)) := hord.asymm _ _ h1.2
    by_cases h2 : 2 * i + 2 < n ∧ above (f (2 * i + 2)) (f (2 * i + 1)) = true
    · rw [pick, if_pos h2] at h
      subst h
      have h12 : NotAbove above (f (2 * i + 1)) (f (2 * i + 2)) := hord.asymm _ _ h2.2
      refine ⟨.inr ⟨.inr rfl, h2.1, hord.trans _ _ _ hi1 h12⟩, ?_⟩
      rintro j (rfl | rfl) _
      · exact h12
      · exact hord.refl _
    · rw [pick, if_neg h2] at h
      subst h
      refine ⟨.inr ⟨.inl rfl, h1.1, hi1⟩, ?_⟩
      rintro j (rfl | rfl) hj
      · exact hord.refl _
      · exact Bool.eq_false_iff.mpr fun habove => h2 ⟨hj, habove⟩
  · rw [show pick above f n (2 * i + 1) i = i from if_neg h1] at h
    have h1i : 2 * i + 1 < n → NotAbove above (f (2 * i + 1)) (f i) := fun hj =>
      Bool.eq_false_iff.mpr fun habove => h1 ⟨hj, habove⟩
    by_cases h2 : 2 * i + 2 < n ∧ above (f (2 * i + 2)) (f i) = true
    · rw [pick, if_pos h2] at h
      subst h
      have hi2 : NotAbove above (f i) (f (2 * i + 2)) := hord.asymm _ _ h2.2
      refine ⟨.inr ⟨.inr rfl, h2.1, hi2⟩, ?_⟩
      rintro j (rfl | rfl) hj
      · exact hord.trans _ _ _ (h1i hj) hi2
      · exact hord.refl _
    · rw [pick, if_neg h2] at h
      subst h
      refine ⟨.inl rfl, ?_⟩
      rintro j (rfl | rfl) hj
      · exact h1i hj
      · exact Bool.eq_false_iff.mpr fun habove => h2 ⟨hj, habove⟩

/-- The first `m` of `n` elements are a heap, and the others are sorted and
not below the heap. -/
structure Selected (above : α → α → Bool) (m n : Nat) (f : Nat → α) : Prop where
  heap : HeapFrom (NotAbove above) 0 m f
  suffix : ∀ a b : Nat, a < b → m ≤ b → b < n → NotAbove above (f a) (f b)

/-- The root is put in front of the suffix. -/
theorem Selected.takeRoot (hord : Orders above) (h : Selected above (k + 2) n f)
    (hheap : HeapFrom (NotAbove above) 0 (k + 1) g)
    (hwithin : Within (k + 1) (swapped f 0 (k + 1)) g) : Selected above (k + 1) n g := by
  have hroot : ∀ c, c < k + 2 → NotAbove above (f c) (f 0) := fun c hc =>
    h.heap.root hord.refl hord.trans hc
  -- in front of the suffix there is still an element of the heap
  have hfront : ∀ a, a < k + 1 → ∃ c, c < k + 2 ∧ g a = f c := by
    intro a ha
    obtain ⟨b, hb, hgb⟩ := hwithin.1 a ha
    by_cases hzero : b = 0
    · exact ⟨k + 1, by omega, by rw [hgb, hzero, swapped_left]⟩
    · exact ⟨b, by omega, by rw [hgb, swapped_of_ne _ hzero (by omega)]⟩
  have hmid : g (k + 1) = f 0 := by
    rw [hwithin.2 (k + 1) (Nat.le_refl _), swapped_right _ (Nat.succ_ne_zero k)]
  have hbehind : ∀ b, k + 1 < b → g b = f b := by
    intro b hb
    rw [hwithin.2 b (by omega), swapped_of_ne _ (by omega) (by omega)]
  refine ⟨hheap, fun a b hab hb hbn => ?_⟩
  by_cases hbk : b = k + 1
  · obtain ⟨c, hc, hga⟩ := hfront a (by omega)
    rw [hbk, hmid, hga]
    exact hroot c hc
  · rw [hbehind b (by omega)]
    rcases Nat.lt_trichotomy a (k + 1) with hak | rfl | hak
    · obtain ⟨c, hc, hga⟩ := hfront a hak
      rw [hga]
      exact h.suffix c b (by omega) (by omega) hbn
    · rw [hmid]
      exact h.suffix 0 b (by omega) (by omega) hbn
    · rw [hbehind a hak]
      exact h.suffix a b hab (by omega) hbn

/-! ## Calls of heapify -/

variable [Inhabited α]

theorem swap_spec (hi : i < arr.length) (hk : k < arr.length) (hne : i ≠ k) :
    ∃ arr', swap arr i k = some arr' ∧ arr'.Perm arr ∧ view arr' = swapped (view arr) i k := by
  have hk' : k < (arr.set i arr[k]).length := by simpa using hk
  refine ⟨(arr.set i arr[k]).set k arr[i], ?_, ?_, ?_⟩
  · simp [swap, read_eq hi, read_eq hk, write_eq hi, write_eq hk']
  · have hperm := set_set_perm hi hk hne (x := arr[i])
    rwa [List.set_getElem_self] at hperm
  · funext a
    simp only [view]
    rw [getD_set hk', getD_set hi]
    by_cases hai : a = i
    · rw [if_neg (by omega), if_pos hai, hai, swapped_left, view_eq hk]
    · by_cases hak : a = k
      · rw [if_pos hak, hak, swapped_right _ (Ne.symm hne), view_eq hi]
      · rw [if_neg hak, if_neg hai, swapped_of_ne _ hai hak]
        rfl

theorem larger_eq (hn : n ≤ arr.length) {j large : Nat} (hlarge : large < arr.length) :
    larger above arr n j large = some (pick above (view arr) n j large) := by
  by_cases hj : j < n
  · have hj' : j < arr.length := Nat.lt_of_lt_of_le hj hn
    simp [larger, pick, hj, read_eq hj', read_eq hlarge, view_eq hj', view_eq hlarge]
  · simp [larger, pick, hj]

theorem heapifyWith_spec (hord : Orders above) (hn : n ≤ arr.length) (hmax : 2 * n ≤ intMax)
    (hi : i < n) (hlo : lo ≤ i) (h : HeapExcept (NotAbove above) lo n i (view arr))
    (hfuel : n < i + fuel) :
    ∃ arr', heapifyWith above fuel arr n i = some arr' ∧ arr'.Perm arr ∧
      HeapFrom (NotAbove above) lo n (view arr') ∧ Within n (view arr) (view arr') := by
  induction fuel generalizing arr i with
  | zero => omega
  | succ fuel ih =>
    obtain ⟨large, hlarge⟩ : ∃ large,
        large = pick above (view arr) n (i * 2 + 2) (pick above (view arr) n (i * 2 + 1) i) :=
      ⟨_, rfl⟩
    obtain ⟨hchoice, hgreat⟩ := pick_spec hord (view arr) n i hlarge
    have hleft : child i 1 = some (i * 2 + 1) := if_pos (by omega)
    have hright : child i 2 = some (i * 2 + 2) := if_pos (by omega)
    have hpick1 : pick above (view arr) n (i * 2 + 1) i < arr.length := by
      unfold pick
      split <;> omega
    have hlarger1 : larger above arr n (i * 2 + 1) i =
        some (pick above (view arr) n (i * 2 + 1) i) :=
      larger_eq hn (Nat.lt_of_lt_of_le hi hn)
    have hlarger2 : larger above arr n (i * 2 + 2) (pick above (view arr) n (i * 2 + 1) i) =
        some (pick above (view arr) n (i * 2 + 2) (pick above (view arr) n (i * 2 + 1) i)) :=
      larger_eq hn hpick1
    rw [← hlarge] at hlarger2
    rcases hchoice with heq | ⟨hchild, hlt, hup⟩
    · rw [heq] at hlarger2 hgreat
      refine ⟨arr, ?_, List.Perm.refl arr, h.done hgreat, Within.refl n _⟩
      simp [heapifyWith, hleft, hright, hlarger1, hlarger2]
    · have hdown := hchild.lt
      obtain ⟨arr₁, hswap, hperm, hview⟩ :=
        swap_spec (Nat.lt_of_lt_of_le hi hn) (Nat.lt_of_lt_of_le hlt hn) (Nat.ne_of_lt hdown)
      have h₁ : HeapExcept (NotAbove above) lo n large (view arr₁) :=
        hview ▸ h.down hlo hchild hlt hup hgreat
      obtain ⟨arr', hrec, hperm', hheap, hwithin⟩ :=
        ih (by rwa [hperm.length_eq]) hlt (by omega) h₁ (by omega)
      refine ⟨arr', ?_, hperm'.trans hperm, hheap, ?_⟩
      · simp [heapifyWith, hleft, hright, hlarger1, hlarger2, Ne.symm (Nat.ne_of_lt hdown), hswap,
          hrec]
      · exact (hview ▸ within_swapped hi hlt).trans hwithin

/-! ## The loops -/

/-- The first loop builds a heap. -/
theorem build_spec (hord : Orders above) (hmax : 2 * arr.length ≤ intMax)
    (hfuel : arr.length < fuel) :
    ∃ arr', downLoop (fun i arr' => heapifyWith above fuel arr' arr.length i)
        (arr.length / 2) arr = some arr' ∧ arr'.Perm arr ∧
      HeapFrom (NotAbove above) 0 arr.length (view arr') := by
  have hturn : ∀ k arr', k < arr.length / 2 →
      (arr'.Perm arr ∧ HeapFrom (NotAbove above) (k + 1) arr.length (view arr')) →
      ∃ arr'', heapifyWith above fuel arr' arr.length k = some arr'' ∧ arr''.Perm arr ∧
        HeapFrom (NotAbove above) k arr.length (view arr'') := by
    rintro k arr' hk ⟨hperm, hheap⟩
    have hn := Nat.le_of_eq hperm.length_eq.symm
    have hlt : k < arr.length := by omega
    have hdeep : arr.length < k + fuel := by omega
    obtain ⟨arr'', hcall, hperm', hheap', -⟩ :=
      heapifyWith_spec hord hn hmax hlt (Nat.le_refl k) hheap.extend hdeep
    exact ⟨arr'', hcall, hperm'.trans hperm, hheap'⟩
  -- the elements of the second half have no children
  have hstart : HeapFrom (NotAbove above) (arr.length / 2) arr.length (view arr) := by
    rintro i j hi (rfl | rfl) hj <;> omega
  exact downLoop_spec
    (I := fun k arr' => arr'.Perm arr ∧ HeapFrom (NotAbove above) k arr.length (view arr'))
    hturn ⟨List.Perm.refl arr, hstart⟩

/-- The second loop moves the roots to the suffix. -/
theorem select_spec (hord : Orders above) (hmax : 2 * arr.length ≤ intMax)
    (hfuel : arr.length < fuel) (hheap : HeapFrom (NotAbove above) 0 arr.length (view arr)) :
    ∃ arr', downLoop (takeRoot above fuel) (arr.length - 1) arr = some arr' ∧ arr'.Perm arr ∧
      Selected above 1 arr.length (view arr') := by
  have hturn : ∀ k arr', k < arr.length - 1 →
      (arr'.Perm arr ∧ Selected above (k + 1 + 1) arr.length (view arr')) →
      ∃ arr'', takeRoot above fuel k arr' = some arr'' ∧ arr''.Perm arr ∧
        Selected above (k + 1) arr.length (view arr'') := by
    rintro k arr' hk ⟨hperm, hselected⟩
    have hlen := hperm.length_eq
    obtain ⟨arr'', hswap, hperm', hview⟩ : ∃ arr'', swap arr' 0 (k + 1) = some arr'' ∧
        arr''.Perm arr' ∧ view arr'' = swapped (view arr') 0 (k + 1) :=
      swap_spec (by omega) (by omega) (by omega)
    have hexcept : HeapExcept (NotAbove above) 0 (k + 1) 0 (view arr'') :=
      hview ▸ hselected.heap.dropRoot
    have hlen' := hperm'.length_eq
    have hn : k + 1 ≤ arr''.length := by omega
    have hdeep : k + 1 < 0 + fuel := by omega
    obtain ⟨arr₃, hcall, hperm'', hheap', hwithin⟩ := heapifyWith_spec hord hn (by omega)
      (Nat.succ_pos k) (Nat.le_refl 0) hexcept hdeep
    refine ⟨arr₃, ?_, (hperm''.trans hperm').trans hperm, ?_⟩
    · simp [takeRoot, hswap, hcall]
    · exact hselected.takeRoot hord hheap' (hview ▸ hwithin)
  have hstart : Selected above (arr.length - 1 + 1) arr.length (view arr) := by
    constructor
    · intro i j hi hchild hj
      have hlt := hchild.lt
      exact hheap i j hi hchild (by omega)
    · intro a b hab hb hbn
      omega
  exact downLoop_spec
    (I := fun k arr' => arr'.Perm arr ∧ Selected above (k + 1) arr.length (view arr'))
    hturn ⟨List.Perm.refl arr, hstart⟩

theorem heapifySortWith_spec (hord : Orders above) (hmax : 2 * arr.length ≤ intMax)
    (hfuel : arr.length < fuel) :
    ∃ arr', heapifySortWith above fuel arr arr.length = some arr' ∧ arr'.Perm arr ∧
      arr'.Pairwise (NotAbove above) := by
  obtain ⟨arr₁, hbuild, hperm₁, hheap⟩ := build_spec hord hmax hfuel
  have hlen := hperm₁.length_eq
  rw [← hlen] at hheap hmax hfuel
  obtain ⟨arr₂, hselect, hperm₂, hselected⟩ := select_spec hord hmax hfuel hheap
  rw [hlen] at hselect
  refine ⟨arr₂, by simp [heapifySortWith, hbuild, hselect], hperm₂.trans hperm₁, ?_⟩
  rw [List.pairwise_iff_getElem]
  intro a b ha hb hab
  have hle := hselected.suffix a b hab (by omega) (by rwa [hperm₂.length_eq] at hb)
  rwa [view_eq ha, view_eq hb] at hle

end Generic

theorem orders_gt : Orders (fun x y : Int => decide (x > y)) := by
  constructor
  · intro x y h
    simp only [decide_eq_true_eq, decide_eq_false_iff_not] at *
    omega
  · intro x y z hxy hyz
    simp only [decide_eq_false_iff_not] at *
    omega

/-- The array is sorted, with no index outside it and none that overflows. -/
theorem heapifySort_sorts (arr : List Int) (hlen : arr.length < 2 ^ 30) :
    ∃ turns, ∀ fuel, turns ≤ fuel → ∃ arr', heapifySort fuel arr arr.length = some arr' ∧
      arr'.Perm arr ∧ arr'.Pairwise (· ≤ ·) := by
  refine ⟨arr.length + 1, fun fuel hfuel => ?_⟩
  have hmax : 2 * arr.length ≤ intMax := by
    unfold intMax
    omega
  obtain ⟨arr', hsort, hperm, hpairs⟩ := heapifySortWith_spec orders_gt hmax hfuel
  refine ⟨arr', hsort, hperm, hpairs.imp fun h => ?_⟩
  exact Int.not_lt.mp (of_decide_eq_false h)

theorem heapifySort_sorts_six : ∃ turns, ∀ fuel, turns ≤ fuel →
    ∃ arr', heapifySort fuel [1, 7, 2, 10, 8, 5] 6 = some arr' ∧ arr'.Perm [1, 7, 2, 10, 8, 5] ∧
      arr'.Pairwise (· ≤ ·) :=
  heapifySort_sorts [1, 7, 2, 10, 8, 5] (by decide)

end Training.HeapSort
