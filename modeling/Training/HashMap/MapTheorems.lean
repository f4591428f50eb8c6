/-
Training.HashMap.MapTheorems — what the functions of the hash map do to the
elements in it.

`Stores cb map l`: the map has the elements `l`, in some order, no two of
them the same, in a tidy table that is not full; the number of buckets is a
power of two, and all of them are allocated, with a size in bytes that is a
`size_t`. Each function keeps this and answers what the list answers (`hashmapSetWithHash_spec`,
`hashmapGetWithHash_spec`, `hashmapDeleteWithHash_spec`, `resize_spec`,
`hashmapClear_spec`).
-/
import Mathlib.Data.Nat.Log
import Training.HashMap.LoopTheorems

namespace Training.HashMap

open Training.Lib Training.Lib.RobinHood

universe u

variable {α : Type u} {cb : Callbacks α} {map : Hashmap α} {l : List (Nat × α)} {n p : Nat}
  {T : Nat → Bucket α} {x y : Nat × α}

/-! ## The elements -/

/-- The item that is the same as `x`. -/
def held (cb : Callbacks α) (x : Nat × α) (l : List (Nat × α)) : Option α :=
  (l.find? (same cb x)).map Prod.snd

def remove (cb : Callbacks α) (x : Nat × α) (l : List (Nat × α)) : List (Nat × α) :=
  l.filter fun y => !same cb x y

def Distinct (cb : Callbacks α) (l : List (Nat × α)) : Prop :=
  l.Pairwise fun x y => same cb x y = false

theorem same_trans {z : Nat × α} (hcb : Compares cb) (hxy : same cb x y = true)
    (hyz : same cb y z = true) : same cb x z = true := by
  simp only [same, Bool.and_eq_true, decide_eq_true_eq] at hxy hyz ⊢
  exact ⟨hxy.1.trans hyz.1, hcb.trans hxy.2 hyz.2⟩

theorem same_refl (hcb : Compares cb) (x : Nat × α) : same cb x x = true := by
  simp only [same, decide_true, Bool.true_and]
  exact hcb.refl x.2

theorem Distinct.perm {l' : List (Nat × α)} (hcb : Compares cb) (h : Distinct cb l)
    (hl : l'.Perm l) : Distinct cb l' :=
  (hl.pairwise_iff fun {x y} hxy => (same_comm hcb y x).trans hxy).mpr h

/-- What one element is the same as, no other one is. -/
theorem Distinct.remove_cons (hcb : Compares cb) (h : Distinct cb (y :: l))
    (hxy : same cb x y = true) : remove cb x (y :: l) = l := by
  rw [remove, List.filter_cons_of_neg (by simp [hxy]), List.filter_eq_self]
  intro z hz
  cases hxz : same cb x z with
  | false => rfl
  | true =>
    have hyz := same_trans hcb ((same_comm hcb y x).trans hxy) hxz
    rw [(List.pairwise_cons.mp h).1 z hz] at hyz
    cases hyz

theorem held_eq_none : held cb x l = none ↔ ∀ y ∈ l, same cb x y = false := by
  simp [held]

theorem remove_eq_self (h : held cb x l = none) : remove cb x l = l := by
  rw [remove, List.filter_eq_self]
  intro y hy
  rw [held_eq_none.mp h y hy]
  rfl

/-- The element of the list that is the same as `x`, in front of the others. -/
theorem Distinct.held_of_perm {l' : List (Nat × α)} (hcb : Compares cb) (h : Distinct cb l)
    (hl : (y :: l').Perm l) (hxy : same cb x y = true) :
    held cb x l = some y.2 ∧ l'.Perm (remove cb x l) := by
  constructor
  · have hy : y ∈ l := hl.subset List.mem_cons_self
    cases hfind : l.find? (same cb x) with
    | none => exact absurd hxy (by simpa using List.find?_eq_none.mp hfind y hy)
    | some z =>
      have hz := List.mem_of_find?_eq_some hfind
      have hxz : same cb x z = true := List.find?_some hfind
      have hzy : z = y := by
        rcases List.mem_cons.mp (hl.symm.subset hz) with hzy | hzl
        · exact hzy
        · have hyz := same_trans hcb ((same_comm hcb y x).trans hxy) hxz
          rw [(List.pairwise_cons.mp (h.perm hcb hl)).1 z hzl] at hyz
          cases hyz
      rw [held, hfind, hzy]
      rfl
  · have hfilter := hl.filter fun y => !same cb x y
    have hrest := (h.perm hcb hl).remove_cons hcb hxy
    rw [remove] at hrest
    rwa [hrest] at hfilter

theorem Distinct.cons_remove (h : Distinct cb l) (x : Nat × α) :
    Distinct cb (x :: remove cb x l) := by
  refine List.pairwise_cons.mpr ⟨fun y hy => ?_, h.filter _⟩
  simpa using (List.mem_filter.mp hy).2

/-! ## The invariant -/

structure Stores (cb : Callbacks α) (map : Hashmap α) (l : List (Nat × α)) : Prop where
  power : ∃ p, map.nbuckets = 2 ^ p
  cap_power : ∃ q, map.cap = 2 ^ q
  sixteen_le_cap : 16 ≤ map.cap
  cap_le : map.cap ≤ map.nbuckets
  nbuckets_le : map.nbuckets ≤ map.room
  mask_eq : map.mask = map.nbuckets - 1
  fits : cb.bucketsz * map.nbuckets < 2 ^ 64
  growat_le : map.growat * 100 ≤ map.nbuckets * 95
  growat_ge : map.nbuckets ≤ 2 * map.growat
  shrinkat_eq : map.shrinkat = map.nbuckets / 10
  loadfactor_le : map.loadfactor ≤ 95
  loadfactor_ge : 50 ≤ map.loadfactor
  growpower_pos : 1 ≤ map.growpower
  growpower_le : map.growpower ≤ 16
  tidy : Tidy map.nbuckets map.buckets
  elements_perm : (elements map.nbuckets map.buckets).Perm l
  count_eq : map.count = l.length
  /-- The map is never full. -/
  load : l.length * 100 ≤ map.nbuckets * 95
  distinct : Distinct cb l

namespace Stores

theorem sixteen_le (h : Stores cb map l) : 16 ≤ map.nbuckets :=
  h.sixteen_le_cap.trans h.cap_le

theorem length_elements (h : Stores cb map l) :
    (elements map.nbuckets map.buckets).length = l.length := h.elements_perm.length_eq

theorem length_lt (h : Stores cb map l) : l.length < map.nbuckets := by
  have hload := h.load
  have hsixteen := h.sixteen_le
  omega

theorem mem_iff (h : Stores cb map l) {x : Nat × α} :
    x ∈ l ↔ ∃ i, i < map.nbuckets ∧ 0 < (map.buckets i).dib ∧ (map.buckets i).element = x := by
  rw [← h.elements_perm.mem_iff, mem_contents]

end Stores

/-! ## New maps -/

/-- The sizes that a map computes are ones of a `size_t`: those of a new map
of `cap` items, and those it has while it grows to 65535 items. -/
structure Sized (cb : Callbacks α) (cap : Nat) : Prop where
  elsize_le : cb.elsize + 16 ≤ 2 ^ 32
  cap_le : cap ≤ 2 ^ 47
  fits : ∀ n, roundCap cap = some n → cb.bucketsz * n < 2 ^ 64

theorem bucketsz_bounds (h : cb.elsize + 16 ≤ 2 ^ 32) : 8 ≤ cb.bucketsz ∧ cb.bucketsz < 2 ^ 32 := by
  have hsize : (8 + cb.elsize) % 2 ^ 64 = 8 + cb.elsize := Nat.mod_eq_of_lt (by omega)
  unfold Callbacks.bucketsz
  rw [hsize]
  dsimp only
  rw [Nat.mod_eq_of_lt (by omega)]
  omega

theorem grown_fits (h : cb.elsize + 16 ≤ 2 ^ 32) : cb.bucketsz * 2 ^ 32 < 2 ^ 64 :=
  calc cb.bucketsz * 2 ^ 32 < 2 ^ 32 * 2 ^ 32 :=
        Nat.mul_lt_mul_of_pos_right (bucketsz_bounds h).2 (by decide)
    _ = 2 ^ 64 := by rw [← Nat.pow_add]

theorem roomFor_eq (hpos : 0 < cb.bucketsz) (hfits : cb.bucketsz * n < 2 ^ 64) :
    cb.roomFor n = n := by
  rw [Callbacks.roomFor, Nat.mod_eq_of_lt hfits, Nat.mul_div_cancel_left n hpos]

/-- The doubling ends at a power of two, before it goes round. -/
theorem ncapLoop_spec {cap k K : Nat} (fuel : Nat) (hcap : cap ≤ 2 ^ K) (hkK : k ≤ K) (hK : K ≤ 63)
    (hfuel : K < k + fuel) :
    ∃ q, k ≤ q ∧ q ≤ K ∧ ncapLoop cap fuel (2 ^ k) = some (2 ^ q) ∧ cap ≤ 2 ^ q := by
  induction fuel generalizing k with
  | zero => omega
  | succ fuel ih =>
    rw [ncapLoop]
    by_cases hsmall : 2 ^ k < cap
    · have hlt : k < K := (Nat.pow_lt_pow_iff_right (by omega)).mp (hsmall.trans_le hcap)
      have hround : 2 ^ k * 2 % 2 ^ 64 = 2 ^ (k + 1) := by
        rw [← Nat.pow_succ]
        exact Nat.mod_eq_of_lt (Nat.pow_lt_pow_right (by omega) (by omega))
      rw [if_pos hsmall, hround]
      obtain ⟨q, hkq, hrest⟩ := ih (k := k + 1) hlt (by omega)
      exact ⟨q, Nat.le_of_succ_le hkq, hrest⟩
    · rw [if_neg hsmall]
      exact ⟨k, Nat.le_refl k, hkK, rfl, Nat.le_of_not_lt hsmall⟩

theorem roundCap_spec {cap K : Nat} (hcap : cap ≤ 2 ^ K) (hlow : 4 ≤ K) (hK : K ≤ 63) :
    ∃ q, 4 ≤ q ∧ q ≤ K ∧ roundCap cap = some (2 ^ q) ∧ cap ≤ 2 ^ q := by
  unfold roundCap
  by_cases hsmall : cap < 16
  · rw [if_pos hsmall]
    exact ⟨4, Nat.le_refl 4, hlow, rfl, Nat.le_of_lt hsmall⟩
  · rw [if_neg hsmall]
    exact ncapLoop_spec (k := 4) 64 hcap hlow hK (by omega)

theorem clampLoadFactor_le (factor : Nat) : clampLoadFactor factor ≤ 95 := by
  unfold clampLoadFactor
  split_ifs
  all_goals omega

theorem clampLoadFactor_ge (factor : Nat) : 50 ≤ clampLoadFactor factor := by
  unfold clampLoadFactor
  split_ifs
  all_goals omega

theorem tidy_zero (hn : 0 < n) (h : ∀ i, i < n → (T i).dib = 0) : Tidy n T where
  placed k hk := absurd (h _ (Nat.mod_lt k hn)) hk.ne'
  rich k := by
    rw [h _ (Nat.mod_lt _ hn)]
    exact Nat.zero_le _

theorem elements_zero (h : ∀ i, i < n → (T i).dib = 0) : elements n T = [] := by
  rw [elements, contents, List.flatMap_eq_nil_iff]
  intro i hi
  exact if_pos (h i (List.mem_range.mp hi))

/-- The growing line of a table is below its size. -/
theorem growat_mul_le {factor : Nat} (h : factor ≤ 95) (n : Nat) :
    n * factor / 100 * 100 ≤ n * 95 :=
  (Nat.div_mul_le_self _ _).trans (Nat.mul_le_mul_left n h)

/-- It is at least half of a size that is even. -/
theorem le_two_mul_growat {factor : Nat} (h : 50 ≤ factor) (hn : ∃ p, n = 2 ^ p) (hn2 : 2 ≤ n) :
    n ≤ 2 * (n * factor / 100) := by
  obtain ⟨p, rfl⟩ := hn
  have heven : 2 ^ p % 2 = 0 := by
    cases p with
    | zero => omega
    | succ p => rw [Nat.pow_succ, Nat.mul_mod_left]
  have hhalf : 2 ^ p * 50 / 100 ≤ 2 ^ p * factor / 100 :=
    Nat.div_le_div_right (Nat.mul_le_mul_left _ h)
  omega

/-- A new map of `2 ^ K` buckets at most. -/
theorem hashmapNew_spec {cap K : Nat} (hcap : cap ≤ 2 ^ K) (hlow : 4 ≤ K) (hK : K ≤ 63)
    (hpos : 0 < cb.bucketsz) (hfits : ∀ n, roundCap cap = some n → cb.bucketsz * n < 2 ^ 64) :
    ∃ map, hashmapNewWithAllocator cb cap true = some (some map) ∧ Stores cb map [] ∧
      cap ≤ map.nbuckets ∧ map.buckets = zeroBuckets cb ∧ map.oom = false := by
  obtain ⟨q, hq, -, hround, hcap⟩ := roundCap_spec hcap hlow hK
  have hsixteen : 16 ≤ 2 ^ q := Nat.pow_le_pow_right (n := 2) Nat.two_pos hq
  have hsize := hfits _ hround
  refine ⟨_, by rw [hashmapNewWithAllocator, hround]; rfl, ?_, hcap, rfl, rfl⟩
  exact {
    power := ⟨q, rfl⟩
    cap_power := ⟨q, rfl⟩
    sixteen_le_cap := hsixteen
    cap_le := Nat.le_refl _
    nbuckets_le := (roomFor_eq hpos hsize).ge
    mask_eq := rfl
    fits := hsize
    growat_le := growat_mul_le (clampLoadFactor_le _) _
    growat_ge := le_two_mul_growat (clampLoadFactor_ge _) ⟨q, rfl⟩
      ((by decide : 2 ≤ 16).trans hsixteen)
    shrinkat_eq := rfl
    loadfactor_le := clampLoadFactor_le GROW_AT
    loadfactor_ge := clampLoadFactor_ge GROW_AT
    growpower_pos := Nat.le_refl 1
    growpower_le := (by decide : 1 ≤ 16)
    tidy := tidy_zero (Nat.zero_lt_of_lt hsixteen) fun _ _ => rfl
    elements_perm := by rw [elements_zero fun _ _ => rfl]
    count_eq := rfl
    load := by simp
    distinct := List.Pairwise.nil }

/-! ## Resizing -/

theorem moveAll_spec (hn : n = 2 ^ p) (hn2 : 2 ≤ n) (hT : Tidy n T) (es : List (Bucket α))
    (hroom : (es.flatMap (occ Bucket.dib Bucket.element) ++ elements n T).length < n)
    (hlimit : (es.flatMap (occ Bucket.dib Bucket.element) ++ elements n T).length < 2 ^ 16) :
    ∃ T', moveAll n (n - 1) es T = some T' ∧ Tidy n T' ∧
      (elements n T').Perm (es.flatMap (occ Bucket.dib Bucket.element) ++ elements n T) := by
  induction es generalizing T with
  | nil => exact ⟨T, rfl, hT, .refl _⟩
  | cons entry es ih =>
    rw [moveAll]
    by_cases hfree : entry.dib = 0
    · have hocc : occ Bucket.dib Bucket.element entry = [] := if_pos hfree
      rw [List.flatMap_cons, hocc, List.nil_append] at hroom hlimit ⊢
      rw [if_pos hfree]
      exact ih hT hroom hlimit
    · have hocc : occ Bucket.dib Bucket.element entry = [entry.element] := if_neg hfree
      rw [List.flatMap_cons, hocc, List.cons_append, List.nil_append] at hroom hlimit ⊢
      simp only [List.length_append, List.length_cons] at hroom hlimit
      rw [if_neg hfree]
      obtain ⟨T₁, hmove, hT₁, hperm⟩ := moveLoop_spec (e := { entry with dib := 1 }) hn hn2 hT rfl
        (by omega) (by omega)
      have hfront : (es.flatMap (occ Bucket.dib Bucket.element) ++ elements n T₁).Perm
          (entry.element :: (es.flatMap (occ Bucket.dib Bucket.element) ++ elements n T)) :=
        (hperm.append_left _).trans List.perm_middle
      have hlength := hfront.length_eq
      simp only [List.length_append, List.length_cons] at hlength
      obtain ⟨T', hrest, hT', hperm'⟩ := ih hT₁ (by simp only [List.length_append]; omega)
        (by simp only [List.length_append]; omega)
      exact ⟨T', by simp [hmove, hrest], hT', hperm'.trans hfront⟩

/-- All elements are in the new buckets; when there are none the map is as it
was. -/
theorem resize_spec (h : Stores cb map l) {newCap K : Nat} (hK : newCap ≤ 2 ^ K) (hlow : 4 ≤ K)
    (hfits : cb.bucketsz * 2 ^ K < 2 ^ 64) (hpos : 0 < cb.bucketsz) (hcap : map.cap ≤ newCap)
    (hload : l.length * 100 ≤ newCap * 95) (hlimit : l.length < 2 ^ 16) (granted : Bool) :
    ∃ map', resize cb map newCap granted = some (map', granted) ∧ Stores cb map' l ∧
      (granted = true → newCap ≤ map'.nbuckets) ∧ map'.oom = map.oom := by
  have hword : K ≤ 63 := by
    have hlt : 2 ^ K < 2 ^ 64 := (Nat.le_mul_of_pos_left _ hpos).trans_lt hfits
    exact Nat.lt_succ_iff.mp ((Nat.pow_lt_pow_iff_right (by omega)).mp hlt)
  obtain ⟨q, -, hqK, hround, -⟩ := roundCap_spec hK hlow hword
  cases granted with
  | false =>
    refine ⟨map, ?_, h, Bool.noConfusion, rfl⟩
    rw [resize, hashmapNewWithAllocator, hround]
    rfl
  | true =>
    have hsize : ∀ n, roundCap newCap = some n → cb.bucketsz * n < 2 ^ 64 := by
      intro n hn
      obtain rfl : 2 ^ q = n := Option.some.inj (hround.symm.trans hn)
      exact (Nat.mul_le_mul_left _ (Nat.pow_le_pow_right Nat.two_pos hqK)).trans_lt hfits
    obtain ⟨map2, hnew, h2, hnewCap, hzero, -⟩ := hashmapNew_spec hK hlow hword hpos hsize
    obtain ⟨p, hp⟩ := h2.power
    have hsixteen := h2.sixteen_le
    have hempty : elements map2.nbuckets map2.buckets = [] :=
      List.perm_nil.mp h2.elements_perm
    have hold : ((List.range map.nbuckets).map map.buckets).flatMap
        (occ Bucket.dib Bucket.element) = elements map.nbuckets map.buckets := List.flatMap_map ..
    have hlength := h.length_elements
    have hroom : (((List.range map.nbuckets).map map.buckets).flatMap
        (occ Bucket.dib Bucket.element) ++
          elements map2.nbuckets map2.buckets).length = l.length := by
      rw [hold, hempty, List.append_nil, hlength]
    obtain ⟨T', hmove, hT', hperm⟩ := moveAll_spec hp (by omega) h2.tidy _
      (by rw [hroom]; omega) (by rw [hroom]; exact hlimit)
    rw [hold, hempty, List.append_nil] at hperm
    have hresize : resize cb map newCap true = some ({ map with
        buckets := T'
        nbuckets := map2.nbuckets
        mask := map2.nbuckets - 1
        growat := map2.growat
        shrinkat := map2.shrinkat
        room := map2.room }, true) := by
      simp only [resize, hnew, h2.mask_eq, hmove, Option.bind_some, Option.map_some]
    refine ⟨_, hresize, ?_, fun _ => hnewCap, rfl⟩
    exact { h with
      power := h2.power
      cap_le := hcap.trans hnewCap
      nbuckets_le := h2.nbuckets_le
      mask_eq := rfl
      fits := h2.fits
      growat_le := h2.growat_le
      growat_ge := h2.growat_ge
      shrinkat_eq := h2.shrinkat_eq
      tidy := hT'
      elements_perm := hperm.trans h.elements_perm
      load := hload.trans (Nat.mul_le_mul_right 95 hnewCap) }

/-! ## Set, get and delete -/

theorem setLoop_spec (hcb : Compares cb) (h : Stores cb map l)
    (hload : (l.length + 1) * 100 ≤ map.nbuckets * 95) (hlimit : l.length + 1 < 2 ^ 16)
    (x : Nat × α) :
    ∃ T', setLoop cb map.mask map.nbuckets map.buckets (x.1 &&& map.mask) ⟨x.1, 1, x.2⟩ =
        some (T', held cb x l) ∧
      Stores cb { map with
        buckets := T'
        count := if (held cb x l).isNone then map.count + 1 else map.count }
          (x :: remove cb x l) := by
  obtain ⟨p, hp⟩ := h.power
  have hsixteen := h.sixteen_le
  have hlength := h.length_elements
  have hroom := h.length_lt
  rw [← hlength] at hroom hlimit
  rw [h.mask_eq]
  cases hheld : held cb x l with
  | none =>
    have hremove := remove_eq_self hheld
    have hdistinct := h.distinct.cons_remove x
    rw [hremove] at hdistinct ⊢
    obtain ⟨T', hset, hT', hperm⟩ := setLoop_absent (e := ⟨x.1, 1, x.2⟩)
      hcb hp (by omega) h.tidy rfl hroom hlimit (hdistinct.perm hcb (h.elements_perm.cons x))
    exact ⟨T', hset, { h with
      mask_eq := rfl
      tidy := hT'
      elements_perm := hperm.trans (h.elements_perm.cons x)
      count_eq := by simp [h.count_eq]
      load := hload
      distinct := hdistinct }⟩
  | some a =>
    obtain ⟨z, hfind, -⟩ := Option.map_eq_some_iff.mp hheld
    have hz : z ∈ elements map.nbuckets map.buckets :=
      h.elements_perm.symm.subset (List.mem_of_find?_eq_some hfind)
    obtain ⟨T', y, hset, hT', hy, hxy, hperm⟩ := setLoop_present (e := ⟨x.1, 1, x.2⟩) hp h.tidy rfl
      hroom (by omega) hz (List.find?_some hfind)
    have hxy : same cb x y = true := hxy
    obtain ⟨l₁, l₂, hl⟩ := List.append_of_mem (h.elements_perm.subset hy)
    have hfront : (y :: (l₁ ++ l₂)).Perm l := by
      rw [hl]
      exact List.perm_middle.symm
    obtain ⟨hold, hrest⟩ := h.distinct.held_of_perm hcb hfront hxy
    obtain rfl : y.2 = a := Option.some.inj (hold.symm.trans hheld)
    have hnew : (elements map.nbuckets T').Perm (x :: remove cb x l) := by
      have hboth : (y :: elements map.nbuckets T').Perm (y :: x :: (l₁ ++ l₂)) :=
        (hperm.trans ((h.elements_perm.trans hfront.symm).cons x)).trans (List.Perm.swap y x _)
      exact hboth.cons_inv.trans (hrest.cons x)
    have hcount : l.length = (x :: remove cb x l).length := by
      rw [← hfront.length_eq, List.length_cons, List.length_cons, hrest.length_eq]
    exact ⟨T', hset, { h with
      mask_eq := rfl
      tidy := hT'
      elements_perm := hnew
      count_eq := h.count_eq.trans hcount
      load := hcount ▸ h.load
      distinct := h.distinct.cons_remove x }⟩

/-- A map that grows has few buckets. -/
theorem Stores.grown_le (h : Stores cb map l) (hlimit : l.length + 1 < 2 ^ 16)
    (hfull : map.growat ≤ map.count) : map.nbuckets * 2 ^ map.growpower ≤ 2 ^ 32 := by
  obtain ⟨p, hp⟩ := h.power
  have hgrowat := h.growat_ge
  have hcount := h.count_eq
  have hsmall : 2 ^ p < 2 ^ 17 := by
    rw [← hp]
    omega
  have hp16 : p < 17 := (Nat.pow_lt_pow_iff_right (by omega)).mp hsmall
  have hpower := h.growpower_le
  rw [hp, ← Nat.pow_add]
  exact Nat.pow_le_pow_right Nat.two_pos (by omega)

theorem hashmapSetWithHash_spec (hcb : Compares cb) (hsize : cb.elsize + 16 ≤ 2 ^ 32)
    (h : Stores cb map l) (hlimit : l.length + 1 < 2 ^ 16) (item : α) (hash : Nat) (granted : Bool) :
    ∃ map' old, hashmapSetWithHash cb map item hash granted = some (map', old) ∧
      (map'.oom = false ∧ old = held cb (clipHash hash, item) l ∧
          Stores cb map' ((clipHash hash, item) :: remove cb (clipHash hash, item) l) ∨
        granted = false ∧ map'.oom = true ∧ old = none ∧ Stores cb map' l) := by
  have hset : ∀ map₁, Stores cb map₁ l → (l.length + 1) * 100 ≤ map₁.nbuckets * 95 →
      map₁.oom = false →
      ∃ map' old, (setLoop cb map₁.mask map₁.nbuckets map₁.buckets (clipHash hash &&& map₁.mask)
          ⟨clipHash hash, 1, item⟩).map (fun r =>
            ({ map₁ with
              buckets := r.1
              count := if r.2.isNone then map₁.count + 1 else map₁.count }, r.2)) =
            some (map', old) ∧ map'.oom = false ∧ old = held cb (clipHash hash, item) l ∧
          Stores cb map' ((clipHash hash, item) :: remove cb (clipHash hash, item) l) := by
    intro map₁ h₁ hload hoom
    obtain ⟨T', hloop, hstores⟩ := setLoop_spec hcb h₁ hload hlimit (clipHash hash, item)
    refine ⟨_, _, ?_, ?_, rfl, hstores⟩
    · rw [hloop]
      rfl
    · exact hoom
  have hsixteen := h.sixteen_le
  have hgrowat := h.growat_le
  have hcount := h.count_eq
  have h₀ : Stores cb { map with oom := false } l := { h with }
  unfold hashmapSetWithHash
  dsimp only
  by_cases hfull : map.count ≥ map.growat
  · rw [if_pos hfull]
    have hpower : map.nbuckets * 2 ≤ map.nbuckets * 2 ^ map.growpower :=
      Nat.mul_le_mul_left _ (Nat.pow_le_pow_right Nat.two_pos h.growpower_pos)
    have hload := h.load
    have hcap := h.cap_le
    have hgrown := h.grown_le hlimit hfull
    have hword : map.nbuckets * 2 ^ map.growpower % 2 ^ 64 = map.nbuckets * 2 ^ map.growpower :=
      Nat.mod_eq_of_lt (hgrown.trans_lt (by decide))
    obtain ⟨map₁, hresize, h₁, hlarge, hoom⟩ := resize_spec h₀ hgrown (by omega)
      (grown_fits hsize) (Nat.zero_lt_of_lt (bucketsz_bounds hsize).1) (by dsimp only; omega)
      (by omega) (by omega) granted
    rw [hword, hresize, Option.bind_some]
    cases granted with
    | true =>
      have hlarge := hlarge rfl
      obtain ⟨map', old, hloop, hrest⟩ := hset map₁ h₁ (by omega) hoom
      exact ⟨map', old, hloop, .inl hrest⟩
    | false => exact ⟨_, _, rfl, .inr ⟨rfl, rfl, rfl, { h₁ with }⟩⟩
  · rw [if_neg hfull, Option.bind_some]
    obtain ⟨map', old, hloop, hrest⟩ := hset { map with oom := false } h₀ (by dsimp only; omega) rfl
    exact ⟨map', old, hloop, .inl hrest⟩

theorem hashmapGetWithHash_spec (hcb : Compares cb) (h : Stores cb map l) (key : α) (hash : Nat) :
    hashmapGetWithHash cb map key hash = some (held cb (clipHash hash, key) l) := by
  obtain ⟨p, hp⟩ := h.power
  have hroom := h.length_lt
  rw [← h.length_elements] at hroom
  simp only [hashmapGetWithHash]
  rcases findLoop_spec cb map hp h.mask_eq h.tidy hroom key (clipHash hash) with
    ⟨i, hloop, hi, hpos, hsame⟩ | ⟨hloop, hnone⟩
  · have hmem := h.mem_iff.mpr ⟨i, hi, hpos, rfl⟩
    obtain ⟨l₁, l₂, rfl⟩ := List.append_of_mem hmem
    obtain ⟨hheld, -⟩ := h.distinct.held_of_perm hcb List.perm_middle.symm hsame
    rw [hloop, hheld]
    rfl
  · have hheld := held_eq_none.mpr fun y hy => hnone y (h.elements_perm.symm.subset hy)
    rw [hloop, hheld]
    rfl

theorem hashmapDeleteWithHash_spec (hcb : Compares cb) (hsize : cb.elsize + 16 ≤ 2 ^ 32)
    (h : Stores cb map l) (hlimit : l.length < 2 ^ 16) (key : α) (hash : Nat) (granted : Bool) :
    ∃ map', hashmapDeleteWithHash cb map key hash granted =
        some (map', held cb (clipHash hash, key) l) ∧
      Stores cb map' (remove cb (clipHash hash, key) l) ∧ map'.oom = false := by
  obtain ⟨p, hp⟩ := h.power
  obtain ⟨q, hq⟩ := h.cap_power
  have hsixteen := h.sixteen_le
  have hlength := h.length_elements
  have hroom := h.length_lt
  rw [← hlength] at hroom
  simp only [hashmapDeleteWithHash]
  have hfind := findLoop_spec cb { map with oom := false } hp h.mask_eq h.tidy hroom key
    (clipHash hash)
  dsimp only at hfind
  rcases hfind with ⟨i, hloop, hi, hpos, hsame⟩ | ⟨hloop, hnone⟩
  · obtain ⟨T', hclose, hT', hperm⟩ := closeLoop_spec hp (by omega) h.tidy hroom (by omega) hi hpos
    obtain ⟨hheld, hrest⟩ := h.distinct.held_of_perm hcb (hperm.trans h.elements_perm) hsame
    rw [← h.mask_eq] at hclose
    rw [hloop, Option.bind_some, hheld]
    dsimp only
    rw [hclose, Option.bind_some]
    have hcount : (remove cb (clipHash hash, key) l).length + 1 = l.length := by
      rw [← hrest.length_eq, ← List.length_cons, hperm.length_eq, hlength]
    have hload := h.load
    have hless : map.count - 1 = (remove cb (clipHash hash, key) l).length := by
      rw [h.count_eq]
      omega
    have hstores : Stores cb
        { map with oom := false, buckets := T', count := map.count - 1 }
        (remove cb (clipHash hash, key) l) := { h with
      tidy := hT'
      elements_perm := hrest
      count_eq := hless
      load := by dsimp only; omega
      distinct := h.distinct.filter _ }
    by_cases hshrink : map.nbuckets > map.cap ∧ map.count - 1 ≤ map.shrinkat
    · rw [if_pos hshrink]
      have hhalf : map.cap ≤ map.nbuckets / 2 := by
        have hqp : q + 1 ≤ p := by
          rw [hp, hq] at hshrink
          exact (Nat.pow_lt_pow_iff_right (by omega)).mp hshrink.1
        rw [Nat.le_div_iff_mul_le Nat.two_pos, hq, hp, ← Nat.pow_succ]
        exact Nat.pow_le_pow_right Nat.two_pos hqp
      have hfew : map.count - 1 ≤ map.nbuckets / 10 := h.shrinkat_eq ▸ hshrink.2
      have hcount' := h.count_eq
      have hp4 : 4 ≤ p := by
        rw [hp] at hsixteen
        exact (Nat.pow_le_pow_iff_right (by omega)).mp (show 2 ^ 4 ≤ 2 ^ p from hsixteen)
      obtain ⟨map', hresize, hstores', -, hoom⟩ := resize_spec hstores
        ((Nat.div_le_self _ 2).trans hp.le) hp4 (hp ▸ h.fits)
        (Nat.zero_lt_of_lt (bucketsz_bounds hsize).1) hhalf (by omega) (by omega) granted
      rw [hresize]
      exact ⟨map', rfl, hstores', hoom⟩
    · rw [if_neg hshrink]
      exact ⟨_, rfl, hstores, rfl⟩
  · have hheld := held_eq_none.mpr fun y hy => hnone y (h.elements_perm.symm.subset hy)
    rw [hloop, hheld, remove_eq_self hheld]
    exact ⟨_, rfl, { h with }, rfl⟩

/-! ## All items -/

/-- The items of the buckets from `i` on. -/
def itemsFrom (map : Hashmap α) (i : Nat) : List α :=
  (List.range' i (map.nbuckets - i)).flatMap fun j =>
    if (map.buckets j).dib ≠ 0 then [(map.buckets j).item] else []

theorem itemsFrom_zero (map : Hashmap α) :
    itemsFrom map 0 = (elements map.nbuckets map.buckets).map Prod.snd := by
  rw [itemsFrom, elements, contents, List.map_flatMap, Nat.sub_zero, ← List.range_eq_range']
  refine congrArg (fun f => List.flatMap f _) (funext fun j => ?_)
  by_cases hfree : (map.buckets j).dib = 0
  · simp [occ, hfree]
  · simp [occ, hfree, Bucket.element]

theorem Stores.items_perm (h : Stores cb map l) : (itemsFrom map 0).Perm (l.map Prod.snd) := by
  rw [itemsFrom_zero]
  exact h.elements_perm.map _

theorem freeElements_spec (h : Stores cb map l) :
    (freeElements cb map).Perm (if cb.elfree then l.map Prod.snd else []) := by
  unfold freeElements
  cases cb.elfree with
  | true =>
    rw [if_pos rfl, if_pos rfl, List.range_eq_range']
    exact h.items_perm
  | false => exact .refl _

/-- A map of another size, with nothing in it. -/
theorem Stores.emptied (h : Stores cb map l) {cap room : Nat} (hn : ∃ p, n = 2 ^ p)
    (hcap : ∃ q, cap = 2 ^ q) (hsixteen : 16 ≤ cap) (hle : cap ≤ n) (hroom : n ≤ room)
    (hfits : cb.bucketsz * n < 2 ^ 64) :
    Stores cb { map with
      cap := cap
      nbuckets := n
      count := 0
      mask := n - 1
      growat := n * map.loadfactor / 100
      shrinkat := n / 10
      buckets := fun i => if i < n then zeroBuckets cb i else map.buckets i
      room := room } [] := by
  have hfree : ∀ i, i < n → (if i < n then zeroBuckets cb i else map.buckets i).dib = 0 := by
    intro i hi
    rw [if_pos hi]
    rfl
  exact {
    power := hn
    cap_power := hcap
    sixteen_le_cap := hsixteen
    cap_le := hle
    nbuckets_le := hroom
    mask_eq := rfl
    fits := hfits
    growat_le := growat_mul_le h.loadfactor_le n
    growat_ge := le_two_mul_growat h.loadfactor_ge hn
      ((by decide : 2 ≤ 16).trans (hsixteen.trans hle))
    shrinkat_eq := rfl
    loadfactor_le := h.loadfactor_le
    loadfactor_ge := h.loadfactor_ge
    growpower_pos := h.growpower_pos
    growpower_le := h.growpower_le
    tidy := tidy_zero (Nat.lt_of_lt_of_le (Nat.zero_lt_of_lt hsixteen) hle) hfree
    elements_perm := by rw [elements_zero hfree]
    count_eq := rfl
    load := by simp
    distinct := List.Pairwise.nil }

theorem hashmapClear_spec (hpos : 0 < cb.bucketsz) (h : Stores cb map l)
    (updateCap granted : Bool) :
    Stores cb (hashmapClear cb map updateCap granted).1 [] ∧
      (hashmapClear cb map updateCap granted).1.oom = map.oom ∧
      (hashmapClear cb map updateCap granted).2.Perm
        (if cb.elfree then l.map Prod.snd else []) := by
  have hsixteen := h.sixteen_le
  have hcap := h.cap_le
  have hroom := h.nbuckets_le
  refine ⟨?_, ?_, freeElements_spec h⟩
  · simp only [hashmapClear]
    cases updateCap with
    | true => exact h.emptied h.power h.power hsixteen (Nat.le_refl _) hroom h.fits
    | false =>
      by_cases hother : map.nbuckets ≠ map.cap
      · simp only [Bool.false_eq_true, if_false, if_pos hother]
        have hfits : cb.bucketsz * map.cap < 2 ^ 64 :=
          (Nat.mul_le_mul_left _ hcap).trans_lt h.fits
        refine h.emptied h.cap_power h.cap_power h.sixteen_le_cap (Nat.le_refl _) ?_ hfits
        cases granted with
        | true => exact (roomFor_eq hpos hfits).ge
        | false => exact hcap.trans hroom
      · simp only [Bool.false_eq_true, if_false, if_neg hother]
        exact h.emptied h.power h.cap_power h.sixteen_le_cap hcap hroom h.fits
  · simp only [hashmapClear]
    split_ifs
    all_goals rfl

theorem hashmapScan_spec (h : Stores cb map l) (iter : α → Bool) :
    hashmapScan map iter = l.all fun x => iter x.2 := by
  have hall : (l.map Prod.snd).all iter = (itemsFrom map 0).all iter :=
    Bool.eq_iff_iff.mpr (by simp only [List.all_eq_true, h.items_perm.mem_iff])
  have hmap : (l.all fun x => iter x.2) = (l.map Prod.snd).all iter := by
    rw [List.all_map]
    rfl
  rw [hmap, hall, itemsFrom, List.all_flatMap, Nat.sub_zero, ← List.range_eq_range', hashmapScan]
  refine congrArg (List.all _) (funext fun j => ?_)
  by_cases hfree : (map.buckets j).dib = 0
  · simp [hfree]
  · simp [hfree]

theorem hashmapProbe_mem (h : Stores cb map l) {position : Nat} {a : α}
    (hprobe : hashmapProbe map position = some a) : a ∈ l.map Prod.snd := by
  obtain ⟨p, hp⟩ := h.power
  have hpos : 0 < map.nbuckets := Nat.zero_lt_of_lt h.sixteen_le
  rw [hashmapProbe, h.mask_eq, and_mask hp] at hprobe
  by_cases hfree : (map.buckets (position % map.nbuckets)).dib = 0
  · simp [hfree] at hprobe
  · have hmem := h.mem_iff.mpr ⟨_, Nat.mod_lt position hpos, Nat.pos_of_ne_zero hfree, rfl⟩
    obtain rfl : _ = a := by simpa [hfree] using hprobe
    exact List.mem_map_of_mem hmem

theorem hashmapIter_spec (map : Hashmap α) (fuel i : Nat) (hfuel : map.nbuckets ≤ i + fuel) :
    match hashmapIter map fuel i with
    | none => itemsFrom map i = []
    | some (item, j) => itemsFrom map i = item :: itemsFrom map j ∧ i < j ∧ j ≤ map.nbuckets := by
  induction fuel generalizing i with
  | zero =>
    have hend : map.nbuckets - i = 0 := by omega
    simp [hashmapIter, itemsFrom, hend]
  | succ fuel ih =>
    rw [hashmapIter]
    by_cases hend : i ≥ map.nbuckets
    · have hzero : map.nbuckets - i = 0 := by omega
      simp [hend, itemsFrom, hzero]
    · have hstep : itemsFrom map i =
          (if (map.buckets i).dib ≠ 0 then [(map.buckets i).item] else []) ++
          itemsFrom map (i + 1) := by
        have hsucc : map.nbuckets - i = map.nbuckets - (i + 1) + 1 := by omega
        rw [itemsFrom, hsucc, List.range'_succ, List.flatMap_cons]
        rfl
      rw [if_neg hend, hstep]
      by_cases hfree : (map.buckets i).dib ≠ 0
      · rw [if_pos hfree, if_pos hfree]
        exact ⟨rfl, Nat.lt_succ_self i, by omega⟩
      · rw [if_neg hfree, if_neg hfree, List.nil_append]
        have hrest := ih (i + 1) (by omega)
        revert hrest
        cases hashmapIter map fuel (i + 1) with
        | none => exact id
        | some r => exact fun h => ⟨h.1, by omega, h.2.2⟩

end Training.HashMap
