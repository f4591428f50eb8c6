/-
Training.SumOfThree.ThreeSumTheorems — when the triples are returned.

The loops follow the two borders of `Sweeping`, and what they store reads
back as the triples that have been found (`store_eq`). So the function
returns all of them where no sum and no index overflows and the memory
has room (`threeSum_spec`), and it returns nothing defined where one does
(`roomFor_of_correct`, `pairsFit_of_correct`).
-/
import Mathlib.Data.List.ProdSigma
import Training.SumOfThree.SweepTheorems

namespace Training.SumOfThree

open Training.Lib Training.Lib.Arrays

variable {nums sorted : List Int} {r r' : Results} {s : Sweep} {a b c junk : Int}
  {i left right k fuel cap : Nat} {found : List Triple} {t : Triple}

/-! ## The memory of the results -/

/-- There is room for one more triple, and its last index is an `int`. -/
def Room (r : Results) : Prop :=
  Fits (r.returnSize * 3 + 2 : Nat) ∧ r.returnSize * 3 + 2 < r.result.length

theorem triples_length (r : Results) : r.triples.length = r.returnSize := by
  simp [Results.triples]

theorem fits_of_le {m n : Nat} (h : Fits n) (hle : m ≤ n) : Fits m := by
  have hlow : intMin ≤ 0 := by decide
  exact ⟨Int.le_trans hlow (Int.natCast_nonneg m), Int.le_trans (Int.ofNat_le.mpr hle) h.2⟩

theorem put_eq {result : List Int} {size : Nat} (hfit : Fits (size * 3 + k : Nat))
    (hlen : size * 3 + k < result.length) (x : Int) :
    put k x { result, returnSize := size } =
      some { result := result.set (size * 3 + k) x, returnSize := size } := by
  rw [put, if_pos hfit, write_eq hlen, Option.map_some]

theorem of_put {x : Int} (h : put k x r = some r') :
    Fits (r.returnSize * 3 + k : Nat) ∧ r.returnSize * 3 + k < r.result.length ∧
      r'.returnSize = r.returnSize ∧ r'.result.length = r.result.length := by
  by_cases hfit : Fits (r.returnSize * 3 + k : Nat)
  · rw [put, if_pos hfit] at h
    by_cases hlen : r.returnSize * 3 + k < r.result.length
    · rw [write_eq hlen, Option.map_some, Option.some.injEq] at h
      subst h
      exact ⟨hfit, hlen, rfl, by simp⟩
    · have hnone : write r.result (r.returnSize * 3 + k : Nat) x = none := by
        refine if_neg ?_
        omega
      rw [hnone] at h
      exact absurd h (by simp)
  · rw [put, if_neg hfit] at h
    exact absurd h (by simp)

theorem store_bind (a b c : Int) (r : Results) : store a b c r =
    (put 0 a r).bind fun r => (put 1 b r).bind fun r => (put 2 c r).bind fun r =>
      some { r with returnSize := r.returnSize + 1 } := rfl

theorem store_eq (h : Room r) : ∃ r', store a b c r = some r' ∧
    r'.triples = r.triples ++ [{ fst := a, snd := b, trd := c }] ∧
    r'.result.length = r.result.length := by
  obtain ⟨result, size⟩ := r
  obtain ⟨hlast, hroom⟩ := h
  simp only at hlast hroom
  have h0 : size * 3 < result.length := by omega
  have h1 : size * 3 + 1 < (result.set (size * 3) a).length := by
    rw [List.length_set]
    omega
  have h2 : size * 3 + 2 < ((result.set (size * 3) a).set (size * 3 + 1) b).length := by
    rw [List.length_set, List.length_set]
    exact hroom
  refine ⟨{
      result := ((result.set (size * 3) a).set (size * 3 + 1) b).set (size * 3 + 2) c
      returnSize := size + 1 }, ?_, ?_, by simp⟩
  · have hput0 : put 0 a { result, returnSize := size } =
        some { result := result.set (size * 3) a, returnSize := size } :=
      put_eq (fits_of_le hlast (by omega)) h0 a
    have hput1 := put_eq (fits_of_le hlast (show size * 3 + 1 ≤ size * 3 + 2 by omega)) h1 b
    have hput2 := put_eq hlast h2 c
    rw [store_bind, hput0, Option.bind_some, hput1, Option.bind_some, hput2, Option.bind_some]
  · have hread : ∀ e, (((result.set (size * 3) a).set (size * 3 + 1) b).set
        (size * 3 + 2) c).getD e 0 = if e = size * 3 + 2 then c
          else if e = size * 3 + 1 then b else if e = size * 3 then a else result.getD e 0 := by
      intro e
      rw [getD_set h2, getD_set h1, getD_set h0]
    simp only [Results.triples, List.range_succ, List.map_append, List.map_singleton]
    congr 1
    · refine List.map_congr_left fun e he => ?_
      rw [List.mem_range] at he
      simp only [hread]
      rw [if_neg (by omega), if_neg (by omega), if_neg (by omega), if_neg (by omega),
        if_neg (by omega), if_neg (by omega), if_neg (by omega), if_neg (by omega),
        if_neg (by omega)]
    · simp only [hread]
      simp

theorem room_of_store (h : store a b c r = some r') :
    Room r ∧ r'.returnSize = r.returnSize + 1 ∧ r'.result.length = r.result.length := by
  simp only [store_bind, Option.bind_eq_some_iff] at h
  obtain ⟨r₁, h1, r₂, h2, r₃, h3, heq⟩ := h
  obtain ⟨-, -, hsize1, hlen1⟩ := of_put h1
  obtain ⟨-, -, hsize2, hlen2⟩ := of_put h2
  obtain ⟨hfit, hlen, hsize3, hlen3⟩ := of_put h3
  rw [hsize2, hsize1] at hfit hlen
  rw [hlen2, hlen1] at hlen
  obtain rfl := Option.some.inj heq
  refine ⟨⟨hfit, hlen⟩, ?_, ?_⟩
  · simp only
    omega
  · simp only
    omega

/-! ## The loops -/

theorem skipLeftTest_eq {l : Nat} (hl : l < right) (hright : right < sorted.length) :
    skipLeftTest sorted right l = some (decide (view sorted l = view sorted (l + 1))) := by
  simp [skipLeftTest, hl, getElem?_eq_view (show l < sorted.length by omega),
    getElem?_eq_view (show l + 1 < sorted.length by omega)]

theorem skipRightTest_eq {e : Nat} (he : left < e) (hlen : e < sorted.length) :
    skipRightTest sorted left e = some (decide (view sorted e = view sorted (e - 1))) := by
  simp [skipRightTest, he, getElem?_eq_view hlen,
    getElem?_eq_view (show e - 1 < sorted.length by omega)]

/-- Where the left border has been, there were equal elements. -/
def SameFrom (sorted : List Int) (left right l : Nat) : Prop :=
  left ≤ l ∧ l ≤ right ∧ ∀ q, left ≤ q → q ≤ l → view sorted q = view sorted left

/-- The same for the right border. -/
def SameTo (sorted : List Int) (left right e : Nat) : Prop :=
  left ≤ e ∧ e ≤ right ∧ ∀ r, e ≤ r → r ≤ right → view sorted r = view sorted right

theorem skipLeft_spec (hlt : left < right) (hright : right < sorted.length)
    (hfuel : right < left + fuel) :
    ∃ left', loop (skipLeftTest sorted right) (fun left => some (left + 1)) fuel left = some left' ∧
      SameFrom sorted left right left' ∧
      (left' = right ∨ view sorted left' ≠ view sorted (left' + 1)) := by
  have hturn : ∀ l, SameFrom sorted left right l → skipLeftTest sorted right l = some false ∨
      skipLeftTest sorted right l = some true ∧ ∃ l', some (l + 1) = some l' ∧
        SameFrom sorted left right l' ∧ right - l' < right - l := by
    rintro l ⟨hl, hr, hall⟩
    by_cases hlr : l < right
    · have htest := skipLeftTest_eq hlr hright
      by_cases heq : view sorted l = view sorted (l + 1)
      · rw [decide_eq_true heq] at htest
        refine .inr ⟨htest, l + 1, rfl, ⟨by omega, hlr, fun q hq hql => ?_⟩, by omega⟩
        by_cases hlast : q = l + 1
        · rw [hlast, ← heq]
          exact hall l hl (Nat.le_refl l)
        · exact hall q hq (by omega)
      · rw [decide_eq_false heq] at htest
        exact .inl htest
    · exact .inl (if_neg hlr)
  have hstart : SameFrom sorted left right left :=
    ⟨Nat.le_refl left, Nat.le_of_lt hlt, fun q hq hql => by rw [Nat.le_antisymm hql hq]⟩
  have henough : right - left < fuel := by omega
  obtain ⟨left', hloop, hsame, hend⟩ := loop_spec (fun l => right - l) hturn hstart henough
  refine ⟨left', hloop, hsame, ?_⟩
  by_cases hlr : left' < right
  · rw [skipLeftTest_eq hlr hright, Option.some.injEq, decide_eq_false_iff_not] at hend
    exact .inr hend
  · have hle := hsame.2.1
    exact .inl (by omega)

theorem skipRight_spec (hle : left ≤ right) (hright : right < sorted.length)
    (hfuel : right < left + fuel) :
    ∃ right', loop (skipRightTest sorted left) (fun right => some (right - 1)) fuel right =
        some right' ∧ SameTo sorted left right right' := by
  have hturn : ∀ e, SameTo sorted left right e → skipRightTest sorted left e = some false ∨
      skipRightTest sorted left e = some true ∧ ∃ e', some (e - 1) = some e' ∧
        SameTo sorted left right e' ∧ e' - left < e - left := by
    rintro e ⟨hl, hr, hall⟩
    by_cases hle : left < e
    · have htest := skipRightTest_eq hle (Nat.lt_of_le_of_lt hr hright)
      by_cases heq : view sorted e = view sorted (e - 1)
      · rw [decide_eq_true heq] at htest
        refine .inr ⟨htest, e - 1, rfl, ⟨by omega, by omega, fun r her hrr => ?_⟩, by omega⟩
        by_cases hfirst : r = e - 1
        · rw [hfirst, ← heq]
          exact hall e (Nat.le_refl e) hr
        · exact hall r (by omega) hrr
      · rw [decide_eq_false heq] at htest
        exact .inl htest
    · exact .inl (if_neg hle)
  have hstart : SameTo sorted left right right :=
    ⟨hle, Nat.le_refl right, fun r hr hrr => by rw [Nat.le_antisymm hrr hr]⟩
  have henough : right - left < fuel := by omega
  obtain ⟨right', hloop, hsame, -⟩ := loop_spec (fun e => e - left) hturn hstart henough
  exact ⟨right', hloop, hsame⟩

/-- What is promised of the sums and the number of triples, in the sorted array. -/
structure Safe (sorted : List Int) (cap : Nat) : Prop where
  ascending : Ascending (view sorted) sorted.length
  sums : ∀ p q r : Nat, p < q → q < r → r < sorted.length →
    Fits (view sorted p + view sorted q + view sorted r)
  pairs : ∀ p q : Nat, p < q → q < sorted.length → intMin ≤ view sorted p + view sorted q
  room : ∀ ts : List Triple, ts.Nodup →
    (∀ t ∈ ts, HitsBefore (view sorted) sorted.length sorted.length t) →
    (ts.length * 3 : Int) ≤ intMax + 1 ∧ ts.length * 3 ≤ cap

/-- The sum of the two smaller elements fits too. -/
theorem Safe.add_pair (h : Safe sorted cap) {p q r : Nat} (hpq : p < q) (hqr : q < r)
    (hr : r < sorted.length) :
    add (view sorted p) (view sorted q) = some (view sorted p + view sorted q) := by
  have hsum := (h.sums p q r hpq hqr hr).2
  have h1 := h.ascending p q (Nat.le_of_lt hpq) (by omega)
  have h2 := h.ascending q r (Nat.le_of_lt hqr) hr
  refine if_pos ⟨h.pairs p q hpq (by omega), ?_⟩
  unfold intMax at *
  omega

theorem hitsBefore_mono {g : Nat → Int} {n m : Nat} (h : HitsBefore g n i t) (hle : i ≤ m) :
    HitsBefore g n m t := by
  obtain ⟨p, hp, hhit⟩ := h
  exact ⟨p, by omega, hhit⟩

theorem Safe.room_for (h : Safe sorted cap) (hi : i < sorted.length)
    (hnodup : (r.triples ++ [t]).Nodup)
    (hhits : ∀ t' ∈ r.triples ++ [t], HitsBefore (view sorted) sorted.length (i + 1) t')
    (hcap : r.result.length = cap) : Room r := by
  obtain ⟨hmax, hlen⟩ := h.room _ hnodup fun t' ht' => hitsBefore_mono (hhits t' ht') hi
  rw [List.length_append, triples_length, List.length_singleton] at hmax hlen
  have hlow : intMin ≤ 0 := by decide
  exact ⟨⟨Int.le_trans hlow (Int.natCast_nonneg _), by omega⟩, by omega⟩

theorem sweepTurn_spec (h : Safe sorted cap) (hfuel : sorted.length < fuel)
    (hsweep : Sweeping (view sorted) sorted.length i s.left s.right s.results.triples)
    (hcap : s.results.result.length = cap) (hlt : s.left < s.right) :
    ∃ s', sweepTurn fuel sorted i s = some s' ∧
      Sweeping (view sorted) sorted.length i s'.left s'.right s'.results.triples ∧
      s'.results.result.length = cap ∧ s'.right - s'.left < s.right - s.left := by
  obtain ⟨left, right, r⟩ := s
  simp only at hsweep hcap hlt ⊢
  have hi := hsweep.left_gt
  have hn := hsweep.right_lt
  have hgi := getElem?_eq_view (show i < sorted.length by omega)
  have hgl := getElem?_eq_view (show left < sorted.length by omega)
  have hgr := getElem?_eq_view hn
  have hab := h.add_pair hi hlt hn
  have habc : add (view sorted i + view sorted left) (view sorted right) =
      some (view sorted i + view sorted left + view sorted right) :=
    if_pos (h.sums i left right hi hlt hn)
  simp only [sweepTurn, hgi, hgl, hgr, hab, habc, Option.bind_eq_bind, Option.bind_some]
  rcases Int.lt_trichotomy (view sorted i + view sorted left + view sorted right) 0 with
    hneg | hzero | hpos
  · rw [if_neg (by omega), if_pos hneg]
    exact ⟨_, rfl, hsweep.less h.ascending hneg, hcap, by simp only; omega⟩
  · obtain ⟨left', hleft, ⟨hl, hlr, hallLeft⟩, hend⟩ := skipLeft_spec hlt hn
      (show right < left + fuel by omega)
    obtain ⟨right', hright, hrl, hr, hallRight⟩ := skipRight_spec hlr hn
      (show right < left' + fuel by omega)
    have hnext := hsweep.equal h.ascending hzero hlt hl hrl hr hallLeft hallRight hend
    have hroom := h.room_for (show i < sorted.length by omega) hnext.nodup hnext.sound hcap
    obtain ⟨r', hstore, htriples, hlen⟩ := store_eq (a := view sorted i) (b := view sorted left)
      (c := view sorted right) hroom
    rw [if_pos hzero, hstore, Option.bind_some, hleft, Option.bind_some, hright, Option.bind_some]
    exact ⟨_, rfl, htriples ▸ hnext, by rw [hlen, hcap], by simp only; omega⟩
  · rw [if_neg (by omega), if_neg (by omega)]
    exact ⟨_, rfl, hsweep.more h.ascending hpos hlt, hcap, by simp only; omega⟩

theorem repeated_eq (hi : i < sorted.length) :
    repeated sorted i = some (decide (0 < i ∧ view sorted i = view sorted (i - 1))) := by
  by_cases hpos : 0 < i
  · simp [repeated, hpos, getElem?_eq_view hi,
      getElem?_eq_view (show i - 1 < sorted.length by omega)]
  · simp [repeated, hpos]

theorem sumTurn_spec (h : Safe sorted cap) (hfuel : sorted.length < fuel)
    (hi : i < sorted.length - 2)
    (hfound : FoundBefore (view sorted) sorted.length i r.triples) (hcap : r.result.length = cap) :
    ∃ r', sumTurn fuel sorted i r = some r' ∧
      FoundBefore (view sorted) sorted.length (i + 1) r'.triples ∧ r'.result.length = cap := by
  have hlen : i < sorted.length := by omega
  simp only [sumTurn, repeated_eq hlen, Option.bind_eq_bind, Option.bind_some]
  by_cases hskip : 0 < i ∧ view sorted i = view sorted (i - 1)
  · rw [decide_eq_true hskip]
    exact ⟨r, rfl, hfound.skip hskip.1 hskip.2, hcap⟩
  · rw [decide_eq_false hskip]
    have hstart := hfound.sweeping h.ascending hlen (by omega)
    have hturn : ∀ s : Sweep,
        (Sweeping (view sorted) sorted.length i s.left s.right s.results.triples ∧
          s.results.result.length = cap) →
        sweepTest s = some false ∨ sweepTest s = some true ∧
          ∃ s', sweepTurn fuel sorted i s = some s' ∧
            (Sweeping (view sorted) sorted.length i s'.left s'.right s'.results.triples ∧
              s'.results.result.length = cap) ∧ s'.right - s'.left < s.right - s.left := by
      rintro s ⟨hsweep, hcap⟩
      by_cases hlt : s.left < s.right
      · obtain ⟨s', hsome, hsweep', hcap', hless⟩ := sweepTurn_spec h hfuel hsweep hcap hlt
        exact .inr ⟨by simp [sweepTest, hlt], s', hsome, ⟨hsweep', hcap'⟩, hless⟩
      · exact .inl (by simp [sweepTest, hlt])
    have henough : sorted.length - 1 - (i + 1) < fuel := by omega
    obtain ⟨s, hloop, ⟨hsweep, hcap'⟩, hend⟩ := loop_spec
      (I := fun s : Sweep => Sweeping (view sorted) sorted.length i s.left s.right
        s.results.triples ∧ s.results.result.length = cap)
      (s := { left := i + 1, right := sorted.length - 1, results := r })
      (fun s => s.right - s.left) hturn ⟨hstart, hcap⟩ henough
    refine ⟨s.results, by simp [hloop], hsweep.finish ?_, hcap'⟩
    simpa [sweepTest] using hend

/-! ## The sorted array -/

theorem compare_nonpos_iff : compare a b ≤ 0 ↔ a ≤ b := by
  unfold compare
  omega

theorem compare_total (a b : Int) :
    (decide (compare a b ≤ 0) || decide (compare b a ≤ 0)) = true := by
  rw [Bool.or_eq_true, decide_eq_true_iff, decide_eq_true_iff, compare_nonpos_iff,
    compare_nonpos_iff]
  exact Int.le_total a b

theorem compare_trans (a b c : Int) (hab : decide (compare a b ≤ 0) = true)
    (hbc : decide (compare b c ≤ 0) = true) : decide (compare a c ≤ 0) = true := by
  rw [decide_eq_true_iff, compare_nonpos_iff] at *
  exact Int.le_trans hab hbc

theorem qsort_spec (h : ∀ x ∈ nums, ∀ y ∈ nums, Fits (x - y)) :
    ∃ sorted, qsort nums = some sorted ∧ sorted.Perm nums ∧
      Ascending (view sorted) sorted.length := by
  refine ⟨_, if_pos h, List.mergeSort_perm _ _, fun p q hpq hq => ?_⟩
  rcases Nat.lt_or_eq_of_le hpq with hlt | rfl
  · have hpairs := List.pairwise_mergeSort compare_trans compare_total nums
    have hle := of_decide_eq_true (List.pairwise_iff_getElem.mp hpairs p q (by omega) hq hlt)
    rw [view, view, List.getD_eq_getElem _ _ (by omega), List.getD_eq_getElem _ _ hq]
    exact compare_nonpos_iff.mp hle
  · exact Int.le_refl _

/-- Three places, put in order, have the same values in order. -/
theorem ordered_places {g : Nat → Int} {n p q r : Nat} (hmono : Ascending g n)
    (hpq : p ≠ q) (hpr : p ≠ r) (hqr : q ≠ r) (hp : p < n) (hq : q < n) (hr : r < n)
    (h12 : g p ≤ g q) (h23 : g q ≤ g r) :
    ∃ p' q' r', p' < q' ∧ q' < r' ∧ r' < n ∧ g p' = g p ∧ g q' = g q ∧ g r' = g r := by
  have mono : ∀ a b, a < n → b < n → a < b → g a ≤ g b := fun a b _ hb hab =>
    hmono a b (Nat.le_of_lt hab) hb
  have hpq' := mono p q hp hq
  have hqp' := mono q p hq hp
  have hpr' := mono p r hp hr
  have hrp' := mono r p hr hp
  have hqr' := mono q r hq hr
  have hrq' := mono r q hr hq
  rcases Nat.lt_or_gt_of_ne hpq with h1 | h1
  · rcases Nat.lt_or_gt_of_ne hqr with h2 | h2
    · exact ⟨p, q, r, h1, h2, hr, rfl, rfl, rfl⟩
    · rcases Nat.lt_or_gt_of_ne hpr with h3 | h3
      · exact ⟨p, r, q, h3, h2, hq, by omega, by omega, by omega⟩
      · exact ⟨r, p, q, h3, h1, hq, by omega, by omega, by omega⟩
  · rcases Nat.lt_or_gt_of_ne hpr with h2 | h2
    · exact ⟨q, p, r, h1, h2, hr, by omega, by omega, by omega⟩
    · rcases Nat.lt_or_gt_of_ne hqr with h3 | h3
      · exact ⟨q, r, p, h3, h2, hp, by omega, by omega, by omega⟩
      · exact ⟨r, q, p, h3, h1, hp, by omega, by omega, by omega⟩

/-- The triples of the sorted array are those of the array. -/
theorem isZero_iff (hperm : sorted.Perm nums) (hmono : Ascending (view sorted) sorted.length) :
    IsZero nums t ↔ HitsBefore (view sorted) sorted.length sorted.length t := by
  constructor
  · rintro ⟨h12, h23, hsum, i, j, k, hij, hik, hjk, hi, hj, hk⟩
    obtain ⟨place, hplace, hinj⟩ := exists_places_of_perm hperm.symm
    have hi' := (List.getElem?_eq_some_iff.mp hi).1
    have hj' := (List.getElem?_eq_some_iff.mp hj).1
    have hk' := (List.getElem?_eq_some_iff.mp hk).1
    obtain ⟨hpi, hgi⟩ := view_of_getElem? ((hplace i hi').trans hi)
    obtain ⟨hpj, hgj⟩ := view_of_getElem? ((hplace j hj').trans hj)
    obtain ⟨hpk, hgk⟩ := view_of_getElem? ((hplace k hk').trans hk)
    obtain ⟨p, q, r, hpq, hqr, hr, hp1, hq1, hr1⟩ := ordered_places hmono
      (fun heq => hij (hinj i j hi' hj' heq)) (fun heq => hik (hinj i k hi' hk' heq))
      (fun heq => hjk (hinj j k hj' hk' heq)) hpi hpj hpk (by omega) (by omega)
    refine ⟨p, by omega, q, r, hpq, hqr, hr, ?_, by omega⟩
    rw [hp1, hq1, hr1, hgi, hgj, hgk]
  · rintro ⟨p, hp, q, r, hpq, hqr, hr, rfl, hsum⟩
    obtain ⟨place, hplace, hinj⟩ := exists_places_of_perm hperm
    have hq : q < sorted.length := Nat.lt_trans hqr hr
    refine ⟨hmono p q (Nat.le_of_lt hpq) hq, hmono q r (Nat.le_of_lt hqr) hr, hsum,
      place p, place q, place r, fun heq => ?_, fun heq => ?_, fun heq => ?_, ?_, ?_, ?_⟩
    · exact Nat.ne_of_lt hpq (hinj p q hp hq heq)
    · exact Nat.ne_of_lt (Nat.lt_trans hpq hqr) (hinj p r hp hr heq)
    · exact Nat.ne_of_lt hqr (hinj q r hq hr heq)
    · rw [hplace p hp, getElem?_eq_view hp]
    · rw [hplace q hq, getElem?_eq_view hq]
    · rw [hplace r hr, getElem?_eq_view hr]

/-- The promises carry over. -/
theorem safe_of_perm (hperm : sorted.Perm nums) (hmono : Ascending (view sorted) sorted.length)
    (hfit : SumsFit nums) (hpairs : PairsFit nums) (hroom : RoomFor nums)
    (hthree : 3 ≤ nums.length) : Safe sorted (mallocSize nums.length / 4) where
  ascending := hmono
  sums p q r hpq hqr hr := by
    obtain ⟨place, hplace, hinj⟩ := exists_places_of_perm hperm
    have hp : p < sorted.length := by omega
    have hq : q < sorted.length := by omega
    refine hfit.sums (place p) (place q) (place r) _ _ _ (fun heq => ?_) (fun heq => ?_)
      (fun heq => ?_) ((hplace p hp).trans (getElem?_eq_view hp))
      ((hplace q hq).trans (getElem?_eq_view hq)) ((hplace r hr).trans (getElem?_eq_view hr))
    · exact Nat.ne_of_lt hpq (hinj p q hp hq heq)
    · exact Nat.ne_of_lt (Nat.lt_trans hpq hqr) (hinj p r hp hr heq)
    · exact Nat.ne_of_lt hqr (hinj q r hq hr heq)
  pairs p q hpq hq := by
    obtain ⟨place, hplace, hinj⟩ := exists_places_of_perm hperm
    have hp : p < sorted.length := by omega
    refine hpairs.resolve_left (by omega) (place p) (place q) _ _ (fun heq => ?_)
      ((hplace p hp).trans (getElem?_eq_view hp)) ((hplace q hq).trans (getElem?_eq_view hq))
    exact Nat.ne_of_lt hpq (hinj p q hp hq heq)
  room ts hnodup hhits := hroom ts hnodup fun t ht => (isZero_iff hperm hmono).mpr (hhits t ht)

/-! ## The function -/

theorem hitsBefore_all {g : Nat → Int} {n : Nat} :
    HitsBefore g n n t ↔ HitsBefore g n (n - 2) t := by
  constructor
  · rintro ⟨p, -, q, r, hpq, hqr, hr, hrest⟩
    exact ⟨p, by omega, q, r, hpq, hqr, hr, hrest⟩
  · exact fun h => hitsBefore_mono h (Nat.sub_le n 2)

theorem threeSum_eq (hsort : qsort nums = some sorted) : threeSum fuel junk nums =
    forLoop (sumTurn fuel sorted) 0 (nums.length - 2)
      { result := List.replicate (mallocSize nums.length / 4) junk, returnSize := 0 } := by
  rw [threeSum, hsort]
  rfl

theorem threeSum_spec (hfit : SumsFit nums) (hpairs : PairsFit nums) (hroom : RoomFor nums)
    (hfuel : nums.length < fuel) : ∃ r, threeSum fuel junk nums = some r ∧ r.triples.Nodup ∧
      ∀ t, t ∈ r.triples ↔ IsZero nums t := by
  obtain ⟨sorted, hsort, hperm, hmono⟩ := qsort_spec hfit.differences
  have hlen := hperm.length_eq
  have hturn : ∀ (i : Nat) (r : Results), 0 ≤ i → i < 0 + (nums.length - 2) →
      (FoundBefore (view sorted) sorted.length i r.triples ∧
        r.result.length = mallocSize nums.length / 4) →
      ∃ r', sumTurn fuel sorted i r = some r' ∧
        FoundBefore (view sorted) sorted.length (i + 1) r'.triples ∧
        r'.result.length = mallocSize nums.length / 4 := by
    rintro i r - hi ⟨hfound, hcap⟩
    have hsafe := safe_of_perm hperm hmono hfit hpairs hroom (by omega)
    exact sumTurn_spec hsafe (by omega) (by omega) hfound hcap
  obtain ⟨r, hloop, hfound, -⟩ := forLoop_spec
    (I := fun i (r : Results) => FoundBefore (view sorted) sorted.length i r.triples ∧
      r.result.length = mallocSize nums.length / 4)
    (s := { result := List.replicate (mallocSize nums.length / 4) junk, returnSize := 0 })
    hturn ⟨foundBefore_zero _ _, List.length_replicate⟩
  rw [Nat.zero_add, ← hlen] at hfound
  refine ⟨r, (threeSum_eq hsort).trans hloop, hfound.nodup, fun t => ?_⟩
  rw [isZero_iff hperm hmono, hitsBefore_all, hfound.mem]

/-! ## What goes wrong otherwise -/

/-- Each index that has been written to is an `int`, and inside the memory. -/
structure Stored (cap : Nat) (r : Results) : Prop where
  index : (r.returnSize * 3 : Int) ≤ intMax + 1
  inside : r.returnSize * 3 ≤ cap
  length_eq : r.result.length = cap

theorem Stored.store (h : Stored cap r) (hstore : store a b c r = some r') : Stored cap r' := by
  obtain ⟨⟨hfit, hroom⟩, hsize, hlen⟩ := room_of_store hstore
  have hmax := hfit.2
  have hcap := h.length_eq
  exact ⟨by omega, by omega, by omega⟩

theorem Stored.sweepTurn {s' : Sweep} (h : Stored cap s.results)
    (hturn : sweepTurn fuel sorted i s = some s') : Stored cap s'.results := by
  simp only [SumOfThree.sweepTurn, Option.bind_eq_bind, Option.bind_eq_some_iff] at hturn
  obtain ⟨a, -, b, -, c, -, ab, -, sum, -, hturn⟩ := hturn
  by_cases hzero : sum = 0
  · rw [if_pos hzero] at hturn
    simp only [Option.bind_eq_some_iff] at hturn
    obtain ⟨r, hstore, left, -, right, -, heq⟩ := hturn
    obtain rfl := Option.some.inj heq
    exact h.store hstore
  · rw [if_neg hzero] at hturn
    by_cases hneg : sum < 0
    · rw [if_pos hneg] at hturn
      obtain rfl := Option.some.inj hturn
      exact h
    · rw [if_neg hneg] at hturn
      obtain rfl := Option.some.inj hturn
      exact h

theorem Stored.sumTurn (h : Stored cap r) (hturn : sumTurn fuel sorted i r = some r') :
    Stored cap r' := by
  simp only [SumOfThree.sumTurn, Option.bind_eq_bind, Option.bind_eq_some_iff] at hturn
  obtain ⟨skip, -, hturn⟩ := hturn
  cases skip with
  | true =>
    obtain rfl := Option.some.inj hturn
    exact h
  | false =>
    simp only [Bool.false_eq_true, if_false, Option.bind_eq_some_iff] at hturn
    obtain ⟨s, hloop, heq⟩ := hturn
    obtain rfl := Option.some.inj heq
    exact (loop_invariant (I := fun s => Stored cap s.results)
      (fun s s' h _ hturn => h.sweepTurn hturn) h hloop).1

theorem roomFor_of_correct (hfit : SumsFit nums) (h : Correct nums) : RoomFor nums := by
  obtain ⟨turns, hall⟩ := h
  obtain ⟨r, hsome, -, hmem⟩ := hall turns 0 (Nat.le_refl turns)
  obtain ⟨sorted, hsort, -, -⟩ := qsort_spec hfit.differences
  rw [threeSum_eq hsort] at hsome
  have hstored := forLoop_invariant (I := fun _ r => Stored (mallocSize nums.length / 4) r)
    (fun i r r' _ _ h hturn => h.sumTurn hturn)
    ⟨by simp only; decide, by simp only; omega, List.length_replicate⟩ hsome
  intro ts hnodup hzero
  have hle : ts.length ≤ r.triples.length :=
    (List.subperm_of_subset hnodup fun t ht => (hmem t).mpr (hzero t ht)).length_le
  rw [triples_length] at hle
  have hindex := hstored.index
  have hinside := hstored.inside
  exact ⟨by omega, by omega⟩

/-- The two smallest elements are added first. -/
theorem threeSum_none (hsort : qsort nums = some sorted) (hlen : sorted.length = nums.length)
    (hthree : 3 ≤ nums.length) (hlow : view sorted 0 + view sorted 1 < intMin) :
    threeSum fuel junk nums = none := by
  obtain ⟨turns, hturns⟩ := Nat.exists_eq_add_of_le' (show 1 ≤ nums.length - 2 by omega)
  have hadd : add (view sorted 0) (view sorted 1) = none := if_neg fun hfit => by
    have hge := hfit.1
    omega
  have hturn : ∀ r, sumTurn fuel sorted 0 r = none := by
    intro r
    have hloop : loop sweepTest (sweepTurn fuel sorted 0) fuel
        { left := 1, right := sorted.length - 1, results := r } = none := by
      cases fuel with
      | zero => rfl
      | succ fuel =>
        have htest : sweepTest { left := 1, right := sorted.length - 1, results := r } =
            some true := by
          rw [sweepTest, decide_eq_true]
          simp only
          omega
        simp [loop, htest, sweepTurn, getElem?_eq_view (show 0 < sorted.length by omega),
          getElem?_eq_view (show 1 < sorted.length by omega),
          getElem?_eq_view (show sorted.length - 1 < sorted.length by omega), hadd]
    simp [sumTurn, repeated, hloop]
  rw [threeSum_eq hsort, hturns, forLoop, hturn, Option.bind_none]

theorem pairsFit_of_correct (hfit : SumsFit nums) (h : Correct nums) : PairsFit nums := by
  by_cases hthree : nums.length < 3
  · exact .inl hthree
  · refine .inr fun i j x y hij hx hy => ?_
    obtain ⟨turns, hall⟩ := h
    obtain ⟨r, hsome, -⟩ := hall turns 0 (Nat.le_refl turns)
    obtain ⟨sorted, hsort, hperm, hmono⟩ := qsort_spec hfit.differences
    obtain ⟨place, hplace, hinj⟩ := exists_places_of_perm hperm.symm
    have hi := (List.getElem?_eq_some_iff.mp hx).1
    have hj := (List.getElem?_eq_some_iff.mp hy).1
    obtain ⟨hpi, hgi⟩ := view_of_getElem? ((hplace i hi).trans hx)
    obtain ⟨hpj, hgj⟩ := view_of_getElem? ((hplace j hj).trans hy)
    have hne : place i ≠ place j := fun heq => hij (hinj i j hi hj heq)
    -- the sum of the two smallest elements is the smallest one
    have hleast : view sorted 0 + view sorted 1 ≤ x + y := by
      have hmono0 := fun k hk => hmono 0 k (Nat.zero_le k) hk
      have hmono1 := fun k (hk1 : 1 ≤ k) hk => hmono 1 k hk1 hk
      have h0i := hmono0 _ hpi
      have h0j := hmono0 _ hpj
      rcases Nat.lt_or_gt_of_ne hne with hlt | hlt
      · have h1j := hmono1 _ (by omega) hpj
        omega
      · have h1i := hmono1 _ (by omega) hpi
        omega
    by_contra hlow
    rw [threeSum_none hsort hperm.length_eq (by omega) (by omega)] at hsome
    exact Option.some_ne_none r hsome.symm

/-- Each triple of sum 0 is returned once exactly when no sum of two elements
overflows and the memory has room for the triples. -/
theorem threeSum_correct_iff (hfit : SumsFit nums) :
    Correct nums ↔ PairsFit nums ∧ RoomFor nums := by
  constructor
  · exact fun h => ⟨pairsFit_of_correct hfit h, roomFor_of_correct hfit h⟩
  · rintro ⟨hpairs, hroom⟩
    exact ⟨nums.length + 1, fun fuel junk hfuel => threeSum_spec hfit hpairs hroom hfuel⟩

theorem sumsFit_iff : SumsFit nums ↔
    (∀ i, i < nums.length → ∀ j, j < nums.length → ∀ k, k < nums.length →
      i ≠ j ∧ i ≠ k ∧ j ≠ k → Fits (view nums i + view nums j + view nums k)) ∧
    ∀ x ∈ nums, ∀ y ∈ nums, Fits (x - y) := by
  constructor
  · intro h
    refine ⟨fun i hi j hj k hk ⟨hij, hik, hjk⟩ => ?_, h.differences⟩
    exact h.sums i j k _ _ _ hij hik hjk (getElem?_eq_view hi) (getElem?_eq_view hj)
      (getElem?_eq_view hk)
  · rintro ⟨hsums, hdifferences⟩
    refine ⟨fun i j k x y z hij hik hjk hx hy hz => ?_, hdifferences⟩
    obtain ⟨hi, rfl⟩ := view_of_getElem? hx
    obtain ⟨hj, rfl⟩ := view_of_getElem? hy
    obtain ⟨hk, rfl⟩ := view_of_getElem? hz
    exact hsums i hi j hj k hk ⟨hij, hik, hjk⟩

instance (nums : List Int) : Decidable (SumsFit nums) := decidable_of_iff _ sumsFit_iff.symm

theorem threeSum_correct_iff_six :
    Correct [-1, 0, 1, 2, -1, -4] ↔
      PairsFit [-1, 0, 1, 2, -1, -4] ∧ RoomFor [-1, 0, 1, 2, -1, -4] :=
  threeSum_correct_iff (by decide)

/-- The numbers from -100000 to 100000. -/
def consecutive : List Int := (List.range 200001).map fun i : Nat => (i : Int) - 100000

theorem consecutive_getElem? {x : Int} (hlow : -100000 ≤ x) (hhigh : x ≤ 100000) :
    consecutive[(x + 100000).toNat]? = some x := by
  rw [consecutive, List.getElem?_map, List.getElem?_range (by omega), Option.map_some]
  congr 1
  omega

theorem sumsFit_consecutive : SumsFit consecutive := by
  have hbound : ∀ x ∈ consecutive, -100000 ≤ x ∧ x ≤ 100000 := by
    intro x hx
    obtain ⟨i, hi, rfl⟩ := List.mem_map.mp hx
    rw [List.mem_range] at hi
    omega
  constructor
  · intro i j k x y z _ _ _ hx hy hz
    have h1 := hbound x (List.mem_of_getElem? hx)
    have h2 := hbound y (List.mem_of_getElem? hy)
    have h3 := hbound z (List.mem_of_getElem? hz)
    exact ⟨by unfold intMin; omega, by unfold intMax; omega⟩
  · intro x hx y hy
    have h1 := hbound x hx
    have h2 := hbound y hy
    exact ⟨by unfold intMin; omega, by unfold intMax; omega⟩

theorem isZero_consecutive {x y z : Int} (hlow : -100000 ≤ x) (hxy : x < y) (hyz : y < z)
    (hhigh : z ≤ 100000) (hsum : x + y + z = 0) :
    IsZero consecutive { fst := x, snd := y, trd := z } :=
  ⟨Int.le_of_lt hxy, Int.le_of_lt hyz, hsum, (x + 100000).toNat, (y + 100000).toNat,
    (z + 100000).toNat, by omega, by omega, by omega, consecutive_getElem? hlow (by omega),
    consecutive_getElem? (by omega) (by omega), consecutive_getElem? (by omega) hhigh⟩

/-- More than 2^30 of its triples. -/
def manyTriples : List Triple :=
  (List.range 50000 ×ˢ List.range 25000).map fun e : Nat × Nat => {
    fst := -(e.1 + 50001 : Nat)
    snd := (e.2 : Nat)
    trd := (e.1 + 50001 : Nat) - (e.2 : Nat) }

theorem isZero_of_mem_manyTriples (h : t ∈ manyTriples) : IsZero consecutive t := by
  obtain ⟨⟨u, y⟩, he, rfl⟩ := List.mem_map.mp h
  rw [List.mem_product, List.mem_range, List.mem_range] at he
  obtain ⟨hu, hy⟩ := he
  refine isZero_consecutive ?_ ?_ ?_ ?_ ?_ <;> simp only <;> omega

theorem nodup_manyTriples : manyTriples.Nodup := by
  refine (List.nodup_range.product List.nodup_range).map ?_
  rintro ⟨u, y⟩ ⟨u', y'⟩ h
  simp only [Triple.mk.injEq] at h
  ext <;> simp only <;> omega

/-- The sum of two elements overflows where the sum of three does not; and the
index of a result overflows. -/
theorem triples_lost :
    (SumsFit [-2 ^ 30 - 5, -2 ^ 30 + 2, 10] ∧ ¬Correct [-2 ^ 30 - 5, -2 ^ 30 + 2, 10]) ∧
      SumsFit consecutive ∧ ¬Correct consecutive := by
  have hfit : SumsFit [-2 ^ 30 - 5, -2 ^ 30 + 2, 10] := by decide
  refine ⟨⟨hfit, fun h => ?_⟩, sumsFit_consecutive, fun h => ?_⟩
  · have hlow := (pairsFit_of_correct hfit h).resolve_left (by decide) 0 1 _ _ (by decide) rfl rfl
    unfold intMin at hlow
    omega
  · have hindex := (roomFor_of_correct sumsFit_consecutive h manyTriples nodup_manyTriples
      fun t ht => isZero_of_mem_manyTriples ht).1
    rw [manyTriples, List.length_map, List.length_product, List.length_range,
      List.length_range] at hindex
    unfold intMax at hindex
    omega

end Training.SumOfThree
