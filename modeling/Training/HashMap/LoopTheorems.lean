/-
Training.HashMap.LoopTheorems — the loops of the hash map.

The buckets are a Robin Hood table whose elements are pairs of a hash and an
item. `moveLoop` and `setLoop` carry an element to its place
(`moveLoop_spec`, `setLoop_absent`), unless `setLoop` meets one that is the
same first (`setLoop_present`); `findLoop` is the search (`findLoop_spec`)
and `closeLoop` closes a hole (`closeLoop_spec`).
-/
import Mathlib.Data.Nat.Bitwise
import Training.HashMap.Hashmap
import Training.Lib.RobinHood

namespace Training.HashMap

open Training.Lib.RobinHood

universe u

variable {α : Type u} {cb : Callbacks α} {n fuel i k p hash : Nat} {T : Nat → Bucket α}
  {e b : Bucket α} {key : α}

/-- What a bucket is about. -/
def Bucket.element (b : Bucket α) : Nat × α := (b.hash, b.item)

/-- Two elements that cannot both be in the map. -/
def same (cb : Callbacks α) (x y : Nat × α) : Bool := x.1 = y.1 && cb.equal x.2 y.2

abbrev Tidy (n : Nat) (T : Nat → Bucket α) : Prop := Orderly Bucket.dib Bucket.hash n T

abbrev elements (n : Nat) (T : Nat → Bucket α) : List (Nat × α) :=
  contents Bucket.dib Bucket.element n T

/-- `compare` is zero for items that are equivalent. -/
def Compares (cb : Callbacks α) : Prop := Equivalence fun x y => cb.equal x y = true

theorem same_comm (h : Compares cb) (x y : Nat × α) : same cb x y = same cb y x := by
  have hequal : cb.equal x.2 y.2 = cb.equal y.2 x.2 := Bool.eq_iff_iff.mpr ⟨h.symm, h.symm⟩
  simp only [same, hequal, eq_comm (a := x.1)]

theorem and_mask (hn : n = 2 ^ p) (i : Nat) : i &&& (n - 1) = i % n := by
  rw [hn, Nat.and_two_pow_sub_one_eq_mod]

theorem bumps : Bumps Bucket.dib Bucket.hash Bucket.element (2 ^ 16) (Bucket.further (α := α)) where
  dib_bump _ hb := Nat.mod_eq_of_lt hb
  home_bump _ := rfl
  key_bump _ := rfl

/-! ## Insertion -/

theorem moveLoop_eq (hn : n = 2 ^ p) (e : Bucket α) :
    moveLoop (n - 1) fuel T i e =
      (insertFrom Bucket.dib Bucket.further (fun _ _ => false) (fun _ b => b) n fuel T i e).map
        Prod.fst := by
  induction fuel generalizing T i e with
  | zero => rfl
  | succ fuel ih =>
    rw [moveLoop, insertFrom]
    simp only [ih, and_mask hn, Bool.false_eq_true, if_false]
    split_ifs <;> rfl

/-- `memcpy(bitem, eitem, map->elsize)` -/
def refill (e b : Bucket α) : Bucket α := { b with item := e.item }

def meets (cb : Callbacks α) (e b : Bucket α) : Bool := same cb e.element b.element

theorem setLoop_eq (cb : Callbacks α) (hn : n = 2 ^ p) (e : Bucket α) :
    setLoop cb (n - 1) fuel T i e =
      (insertFrom Bucket.dib Bucket.further (meets cb) refill n fuel T i e).map
        fun r => (r.1, r.2.map Bucket.item) := by
  induction fuel generalizing T i e with
  | zero => rfl
  | succ fuel ih =>
    rw [setLoop, insertFrom]
    simp only [ih, and_mask hn]
    by_cases hfree : (T i).dib = 0
    · simp [hfree]
    · by_cases hmeet : meets cb e (T i) = true
      · have hmeet' : (decide (e.hash = (T i).hash) && cb.equal e.item (T i).item) = true := hmeet
        simp [hfree, hmeet, hmeet', refill]
      · have hmeet' : ¬(decide (e.hash = (T i).hash) && cb.equal e.item (T i).item) = true := hmeet
        rw [if_neg hfree, if_neg hfree, if_neg hmeet, if_neg hmeet']
        split_ifs <;> rfl

/-- An element with distance 1 is where it belongs. -/
theorem led_of_first (he : e.dib = 1) : Led Bucket.dib Bucket.hash n T e := by
  intro j hj
  omega

theorem place_of_first (he : e.dib = 1) : place Bucket.dib Bucket.hash e = e.hash := by
  unfold place
  omega

theorem moveLoop_spec (hn : n = 2 ^ p) (hn2 : 2 ≤ n) (hT : Tidy n T) (he : e.dib = 1)
    (hroom : (elements n T).length < n) (hlimit : (elements n T).length + 1 < 2 ^ 16) :
    ∃ T', moveLoop (n - 1) n T (e.hash &&& (n - 1)) e = some T' ∧ Tidy n T' ∧
      (elements n T').Perm (e.element :: elements n T) := by
  obtain ⟨c, hc, hfree⟩ := exists_free hroom
  obtain ⟨l, hl, hlc⟩ := exists_steps hc (place Bucket.dib Bucket.hash e)
  have hnone : (e.element :: elements n T).Pairwise fun _ _ => false = false :=
    List.pairwise_of_forall fun _ _ => rfl
  obtain ⟨T', hloop, hT', hperm⟩ := insertFrom_absent (fun _ _ => false) (fun _ b => b) hT
    hn2 bumps (fun _ _ => rfl) (fun _ _ => rfl) (by omega) (led_of_first he) hlimit
    hnone ⟨l, hl, by rw [hlc]; exact hfree⟩
  rw [place_of_first he] at hloop
  exact ⟨T', by rw [moveLoop_eq hn, and_mask hn, hloop]; rfl, hT', hperm⟩

theorem setLoop_absent (hcb : Compares cb) (hn : n = 2 ^ p) (hn2 : 2 ≤ n) (hT : Tidy n T)
    (he : e.dib = 1) (hroom : (elements n T).length < n)
    (hlimit : (elements n T).length + 1 < 2 ^ 16)
    (habsent : (e.element :: elements n T).Pairwise fun x y => same cb x y = false) :
    ∃ T', setLoop cb (n - 1) n T (e.hash &&& (n - 1)) e = some (T', none) ∧ Tidy n T' ∧
      (elements n T').Perm (e.element :: elements n T) := by
  obtain ⟨c, hc, hfree⟩ := exists_free hroom
  obtain ⟨l, hl, hlc⟩ := exists_steps hc (place Bucket.dib Bucket.hash e)
  obtain ⟨T', hloop, hT', hperm⟩ := insertFrom_absent (meets cb) refill hT hn2 bumps
    (same_comm hcb) (fun _ _ => rfl) (by omega) (led_of_first he) hlimit habsent
    ⟨l, hl, by rw [hlc]; exact hfree⟩
  rw [place_of_first he] at hloop
  exact ⟨T', by rw [setLoop_eq cb hn, and_mask hn, hloop]; rfl, hT', hperm⟩

theorem setLoop_present (hn : n = 2 ^ p) (hT : Tidy n T) (he : e.dib = 1)
    (hroom : (elements n T).length < n) (hlimit : (elements n T).length < 2 ^ 16) {x : Nat × α}
    (hx : x ∈ elements n T) (hsame : same cb e.element x = true) :
    ∃ T' y, setLoop cb (n - 1) n T (e.hash &&& (n - 1)) e = some (T', some y.2) ∧ Tidy n T' ∧
      y ∈ elements n T ∧ same cb e.element y = true ∧
      (y :: elements n T').Perm (e.element :: elements n T) := by
  obtain ⟨c, hc, hfree⟩ := exists_free hroom
  obtain ⟨k, hk, htaken, rfl⟩ := mem_contents.mp hx
  have hdib : (T k).dib ≤ (elements n T).length := by
    have hle := hT.dib_le Bucket.element hc hfree k
    rwa [Nat.mod_eq_of_lt hk] at hle
  have hhash : e.hash = (T k).hash := of_decide_eq_true (Bool.and_eq_true_iff.mp hsame).1
  obtain ⟨i, e', hloop, hi, hpos, hmeet, helement⟩ := insertFrom_present (meets cb) refill hT bumps
    (fun _ _ => rfl) hk htaken hsame hhash (by omega) (by omega) (by omega : (T k).dib < 2 ^ 16)
    (by omega : (T k).dib < e.dib + n)
  have hhash' : e.hash = (T i).hash := of_decide_eq_true (Bool.and_eq_true_iff.mp hmeet).1
  have hrefill : (refill e' (T i)).element = e.element := by
    rw [← helement]
    exact Prod.ext (hhash'.symm.trans (congrArg Prod.fst helement).symm) rfl
  refine ⟨Function.update T i (refill e' (T i)), (T i).element, ?_, ?_,
    mem_contents.mpr ⟨i, hi, hpos, rfl⟩, hmeet, ?_⟩
  · rw [setLoop_eq cb hn, and_mask hn, ← place_of_first he, hloop]
    rfl
  · refine hT.congr (fun j => ?_) fun j => ?_
    all_goals
      by_cases hji : j = i
      · subst hji
        rw [Function.update_self]
        rfl
      · rw [Function.update_of_ne hji]
  · have hperm := contents_update Bucket.dib Bucket.element T hi (refill e' (T i))
    have hpos' : (refill e' (T i)).dib ≠ 0 := hpos.ne'
    rw [occ, occ, if_neg hpos.ne', if_neg hpos', hrefill] at hperm
    exact hperm

/-! ## Search -/

theorem findLoop_spec (cb : Callbacks α) (map : Hashmap α) (hn : n = 2 ^ p)
    (hmask : map.mask = n - 1)
    (hT : Tidy n map.buckets) (hroom : (elements n map.buckets).length < n) (key : α) (hash : Nat) :
    (∃ i, findLoop cb map key hash n (hash &&& map.mask) = some (some i) ∧ i < n ∧
        0 < (map.buckets i).dib ∧ same cb (hash, key) (map.buckets i).element = true) ∨
      findLoop cb map key hash n (hash &&& map.mask) = some none ∧
        ∀ x ∈ elements n map.buckets, same cb (hash, key) x = false := by
  have hloop : ∀ fuel i, findLoop cb map key hash fuel i =
      findFrom Bucket.dib (fun b => same cb (hash, key) b.element) n map.buckets fuel i := by
    intro fuel
    induction fuel with
    | zero => exact fun _ => rfl
    | succ fuel ih =>
      intro i
      rw [findLoop, findFrom]
      simp only [ih, hmask, and_mask hn, same, Bucket.element, eq_comm (a := hash)]
  obtain ⟨c, hc, hfree⟩ := exists_free hroom
  rw [hloop, hmask, and_mask hn]
  refine (findFrom_spec hT hc hfree fun j _ _ hj => ?_).imp_right fun hnone => ?_
  · have hhash : hash = (map.buckets j).hash := of_decide_eq_true (Bool.and_eq_true_iff.mp hj).1
    rw [← hhash]
  · refine ⟨hnone.1, fun x hx => ?_⟩
    obtain ⟨j, hj, hpos, rfl⟩ := mem_contents.mp hx
    exact hnone.2 j hj hpos

/-! ## Deletion -/

theorem closeLoop_eq (hn : n = 2 ^ p) (fuel : Nat) (T : Nat → Bucket α) (i : Nat) :
    closeLoop (n - 1) fuel T i =
      closeFrom Bucket.dib Bucket.nearer (fun b => { b with dib := 0 }) n fuel T i := by
  induction fuel generalizing T i with
  | zero => rfl
  | succ fuel ih =>
    rw [closeLoop, closeFrom]
    simp only [ih, and_mask hn]

theorem closeLoop_spec (hn : n = 2 ^ p) (hn2 : 2 ≤ n) (hT : Tidy n T)
    (hroom : (elements n T).length < n) (hlimit : (elements n T).length < 2 ^ 16) (hi : i < n)
    (htaken : 0 < (T i).dib) :
    ∃ T', closeLoop (n - 1) n (Function.update T i { T i with dib := 0 }) i = some T' ∧ Tidy n T' ∧
      ((T i).element :: elements n T').Perm (elements n T) := by
  have himod : i % n = i := Nat.mod_eq_of_lt hi
  obtain ⟨c, hc, hfree⟩ := exists_free hroom
  have hci : c ≠ i := by
    rintro rfl
    omega
  have hhole := (hT.hole i).update hn2 { T i with dib := 0 }
  have hbelow : ∀ j, (Function.update T (i % n) { T i with dib := 0 } (j % n)).dib < 2 ^ 16 := by
    intro j
    by_cases hji : j % n = i % n
    · rw [hji, Function.update_self]
      exact Nat.two_pow_pos 16
    · rw [Function.update_of_ne hji]
      exact Nat.lt_of_le_of_lt (hT.dib_le Bucket.element hc hfree j) hlimit
  have hdrop : ∀ b : Bucket α, 0 < b.dib → b.dib < 2 ^ 16 →
      b.nearer.dib + 1 = b.dib ∧ b.nearer.hash = b.hash ∧ b.nearer.element = b.element := by
    intro b hpos hb
    simp only [Bucket.nearer, Bucket.element, and_true]
    omega
  obtain ⟨l, hl, hlc⟩ := exists_steps hc (i + 1)
  have hlast : l + 1 < n := by
    refine lt_of_le_of_ne hl fun heq => hci ?_
    rw [← hlc, Nat.add_assoc, Nat.add_comm 1 l, heq, Nat.add_mod_right, himod]
  have hend : ∃ l, l < n ∧ l + 1 < n ∧
      (Function.update T (i % n) { T i with dib := 0 } ((i + 1 + l) % n)).dib ≤ 1 := by
    refine ⟨l, hl, hlast, ?_⟩
    rw [hlc, himod, Function.update_of_ne hci, hfree]
    exact Nat.zero_le 1
  obtain ⟨T', hloop, hT', hperm⟩ :=
    closeFrom_spec Bucket.nearer (fun b => { b with dib := 0 }) hhole hn2 hbelow hdrop
      (fun _ => rfl) hend
  rw [himod] at hloop hperm
  refine ⟨T', by rw [closeLoop_eq hn, hloop], hT', ?_⟩
  rw [Function.update_self] at hperm
  have hupdate := contents_update Bucket.dib Bucket.element T hi { T i with dib := 0 }
  rw [occ, if_neg htaken.ne'] at hupdate
  exact (hperm.cons _).trans hupdate

end Training.HashMap
