/-
Training.Lib.RobinHood — Robin Hood hashing in a circular table.

The table has the cells `T 0`, …, `T (n - 1)`. A cell `b` has a distance
`dib b`, which is 0 when it is free, and a home: an element at distance `d`
is in the cell `home b + d - 1` (`place b`). In an `Orderly` table the
distance goes up by one at most from a cell to the next one, so the cells
from the home of an element to its own are taken (`Orderly.led`).

* `insertFrom_absent`, `insertFrom_present` — an element that is carried on
  until a cell is free, and changes places with those at a smaller distance.
* `findFrom_spec` — the search, which stops at a free cell.
* `closeFrom_spec` — after an element is taken out the ones behind it move
  up.

`contents` are the keys of the elements, cell by cell.
-/
import Mathlib.Data.Int.ModEq
import Mathlib.Data.List.Nodup
import Mathlib.Logic.Function.Basic
import Training.Lib.Roster

namespace Training.Lib.RobinHood

universe u v

variable {β : Type u} {κ : Type v} {dib home : β → Nat} {key : β → κ} {n k i j : Nat} {T : Nat → β}
  {b e : β}

/-- The cell of an element, not yet modulo `n`. -/
def place (dib home : β → Nat) (b : β) : Nat := home b + dib b - 1

structure Orderly (dib home : β → Nat) (n : Nat) (T : Nat → β) : Prop where
  placed : ∀ k, 0 < dib (T (k % n)) → place dib home (T (k % n)) ≡ k [MOD n]
  rich : ∀ k, dib (T ((k + 1) % n)) ≤ dib (T (k % n)) + 1

/-- The cells from the home of `e` up to its place have elements that are as
far from their homes at least. -/
def Led (dib home : β → Nat) (n : Nat) (T : Nat → β) (e : β) : Prop :=
  ∀ j, j + 1 < dib e → j < dib (T ((home e + j) % n))

theorem Orderly.rich_add (h : Orderly dib home n T) (k j : Nat) :
    dib (T ((k + j) % n)) ≤ dib (T (k % n)) + j := by
  induction j with
  | zero => exact Nat.le_refl _
  | succ j ih =>
    have hstep := h.rich (k + j)
    rw [← Nat.add_assoc]
    omega

/-- Which elements are in the cells does not matter. -/
theorem Orderly.congr {T' : Nat → β} (h : Orderly dib home n T)
    (hdib : ∀ i, dib (T' i) = dib (T i)) (hhome : ∀ i, home (T' i) = home (T i)) :
    Orderly dib home n T' where
  placed k hk := by
    unfold place
    rw [hdib, hhome]
    exact h.placed k (by rwa [← hdib])
  rich k := by
    rw [hdib, hdib]
    exact h.rich k

/-- An element in its cell is led there. -/
theorem Orderly.led (h : Orderly dib home n T) (k : Nat) : Led dib home n T (T (k % n)) := by
  intro j hj
  have hplaced : place dib home (T (k % n)) % n = k % n := h.placed k (by omega)
  have hsum : home (T (k % n)) + j + (dib (T (k % n)) - 1 - j) = place dib home (T (k % n)) := by
    unfold place
    omega
  have hrich := h.rich_add (home (T (k % n)) + j) (dib (T (k % n)) - 1 - j)
  rw [hsum, hplaced] at hrich
  omega

theorem mod_eq_of_succ (h : (j + 1) % n = (k + 1) % n) : j % n = k % n :=
  Nat.ModEq.add_right_cancel' 1 h

theorem add_mod_ne (hj : 0 < j) (hjn : j < n) (k : Nat) : (k + j) % n ≠ k % n := by
  intro heq
  have hzero : j % n = 0 % n := Nat.ModEq.add_left_cancel' k heq
  rw [Nat.mod_eq_of_lt hjn, Nat.zero_mod] at hzero
  omega

theorem succ_mod_ne (hn : 2 ≤ n) (k : Nat) : (k + 1) % n ≠ k % n := add_mod_ne Nat.one_pos hn k

/-- An element takes the place of one that is nearer to its home. -/
theorem Orderly.put (h : Orderly dib home n T) (hn : 2 ≤ n) (hpos : 0 < dib e)
    (hled : Led dib home n T e) (hpoor : dib (T (place dib home e % n)) < dib e) :
    Orderly dib home n (Function.update T (place dib home e % n) e) where
  placed k hk := by
    by_cases hkp : k % n = place dib home e % n
    · rw [hkp, Function.update_self]
      exact hkp.symm
    · rw [Function.update_of_ne hkp] at hk ⊢
      exact h.placed k hk
  rich k := by
    by_cases hkp : k % n = place dib home e % n
    · have hne : (k + 1) % n ≠ place dib home e % n := fun heq =>
        succ_mod_ne hn k (heq.trans hkp.symm)
      have hrich := h.rich k
      rw [Function.update_of_ne hne, hkp, Function.update_self]
      rw [hkp] at hrich
      omega
    · rw [Function.update_of_ne hkp]
      by_cases hnext : (k + 1) % n = place dib home e % n
      · rw [hnext, Function.update_self]
        -- the cell in front of the place is on the way there
        by_cases hone : dib e = 1
        · omega
        · have hsucc : place dib home e = home e + (dib e - 2) + 1 := by
            unfold place
            omega
          have hfront := hled (dib e - 2) (by omega)
          rw [hsucc] at hnext
          rw [← mod_eq_of_succ hnext] at hfront
          omega
      · rw [Function.update_of_ne hnext]
        exact h.rich k

/-! ## Contents -/

/-- The element of a cell, if there is one. -/
def occ (dib : β → Nat) (key : β → κ) (b : β) : List κ := if dib b = 0 then [] else [key b]

def contents (dib : β → Nat) (key : β → κ) (n : Nat) (T : Nat → β) : List κ :=
  (List.range n).flatMap fun i => occ dib key (T i)

theorem mem_contents {x : κ} :
    x ∈ contents dib key n T ↔ ∃ i, i < n ∧ 0 < dib (T i) ∧ key (T i) = x := by
  simp only [contents, List.mem_flatMap, List.mem_range, occ]
  refine exists_congr fun i => and_congr_right fun _ => ?_
  by_cases hfree : dib (T i) = 0
  · simp [hfree]
  · simp [hfree, Nat.pos_of_ne_zero hfree, eq_comm]

theorem contents_update (dib : β → Nat) (key : β → κ) (T : Nat → β) (hi : i < n) (b : β) :
    (occ dib key (T i) ++ contents dib key n (Function.update T i b)).Perm
      (occ dib key b ++ contents dib key n T) := by
  have hset : (List.range n).map (Function.update T i b) = ((List.range n).map T).set i b := by
    refine List.ext_getElem (by simp) fun j hj hj' => ?_
    rw [List.getElem_set]
    by_cases hji : i = j
    · simp [hji]
    · simp [hji, Function.update_of_ne (Ne.symm hji)]
  have hget : ((List.range n).map T)[i]? = some (T i) := by simp [hi]
  have hperm := Roster.flatMap_set_perm hget b (occ dib key)
  rw [← hset] at hperm
  simpa [contents, List.flatMap_map] using hperm

theorem length_contents :
    (contents dib key n T).length = ((List.range n).filter fun i => 0 < dib (T i)).length := by
  rw [contents]
  induction List.range n with
  | nil => rfl
  | cons i is ih =>
    rw [List.flatMap_cons, List.length_append, ih]
    by_cases hfree : dib (T i) = 0
    · simp [occ, hfree]
    · simp [occ, hfree, Nat.pos_of_ne_zero hfree, Nat.add_comm]

theorem exists_free (h : (contents dib key n T).length < n) : ∃ i, i < n ∧ dib (T i) = 0 := by
  by_contra hnone
  have hall : (List.range n).filter (fun i => 0 < dib (T i)) = List.range n := by
    refine List.filter_eq_self.mpr fun i hi => decide_eq_true ?_
    exact Nat.pos_of_ne_zero fun hzero => hnone ⟨i, List.mem_range.mp hi, hzero⟩
  rw [length_contents, hall, List.length_range] at h
  exact Nat.lt_irrefl n h

/-- From any cell one gets to the cell `i`. -/
theorem exists_steps (hi : i < n) (k : Nat) : ∃ l, l < n ∧ (k + l) % n = i := by
  have hn : 0 < n := Nat.zero_lt_of_lt hi
  have hk : k % n < n := Nat.mod_lt k hn
  refine ⟨(i + (n - k % n)) % n, Nat.mod_lt _ hn, ?_⟩
  rw [Nat.add_mod_mod, ← Nat.mod_add_mod]
  have hsum : k % n + (i + (n - k % n)) = i + n := by omega
  rw [hsum, Nat.add_mod_right, Nat.mod_eq_of_lt hi]

/-- Where a cell is free, taken cells in a row are no more than the elements. -/
theorem row_le (hrow : ∀ l, l < j → 0 < dib (T ((k + l) % n))) (hi : i < n)
    (hfree : dib (T i) = 0) :
    j ≤ (contents dib key n T).length := by
  obtain ⟨m, hm, hmi⟩ := exists_steps hi k
  have hjm : j ≤ m := by
    by_contra hlt
    have htaken := hrow m (by omega)
    rw [hmi] at htaken
    omega
  have hn : 0 < n := Nat.zero_lt_of_lt hi
  rw [length_contents]
  have hnodup : ((List.range j).map fun l => (k + l) % n).Nodup := by
    refine List.Nodup.map_on (fun l hl l' hl' heq => ?_) List.nodup_range
    rw [List.mem_range] at hl hl'
    have hmod : l % n = l' % n := Nat.ModEq.add_left_cancel' k heq
    rwa [Nat.mod_eq_of_lt (by omega), Nat.mod_eq_of_lt (by omega)] at hmod
  have hsub : ((List.range j).map fun l => (k + l) % n) ⊆
      (List.range n).filter fun i => 0 < dib (T i) := by
    intro x hx
    obtain ⟨l, hl, rfl⟩ := List.mem_map.mp hx
    rw [List.mem_range] at hl
    simp [Nat.mod_lt _ hn, hrow l hl]
  have hle := (List.subperm_of_subset hnodup hsub).length_le
  simpa using hle

/-! ## Insertion -/

/-- The element `e` is carried to the cell `i`. One that it hits is filled
with it, and given back as it was. -/
def insertFrom (dib : β → Nat) (bump : β → β) (hit : β → β → Bool) (fill : β → β → β) (n : Nat) :
    Nat → (Nat → β) → Nat → β → Option ((Nat → β) × Option β)
  | 0, _, _, _ => none
  | fuel + 1, T, i, e =>
    if dib (T i) = 0 then some (Function.update T i e, none)
    else if hit e (T i) then some (Function.update T i (fill e (T i)), some (T i))
    else if dib (T i) < dib e then
      insertFrom dib bump hit fill n fuel (Function.update T i e) ((i + 1) % n) (bump (T i))
    else insertFrom dib bump hit fill n fuel T ((i + 1) % n) (bump e)

/-- `bump` adds one to a distance below `limit`. -/
structure Bumps (dib home : β → Nat) (key : β → κ) (limit : Nat) (bump : β → β) : Prop where
  dib_bump : ∀ b, dib b + 1 < limit → dib (bump b) = dib b + 1
  home_bump : ∀ b, home (bump b) = home b
  key_bump : ∀ b, key (bump b) = key b

variable {bump : β → β} {limit fuel : Nat} {same : κ → κ → Bool}

theorem Bumps.place_bump (h : Bumps dib home key limit bump) (hpos : 0 < dib b)
    (hlimit : dib b + 1 < limit) : place dib home (bump b) = place dib home b + 1 := by
  unfold place
  rw [h.dib_bump b hlimit, h.home_bump]
  omega

/-- On the way to its place an element is no farther than there are others. -/
theorem Led.dib_le (h : Led dib home n T e) (hpos : 0 < dib e) (hi : i < n) (hfree : dib (T i) = 0)
    (htaken : 0 < dib (T (place dib home e % n))) : dib e ≤ (contents dib key n T).length := by
  refine row_le (k := home e) (fun l hl => ?_) hi hfree
  by_cases hlast : l + 1 < dib e
  · exact Nat.zero_lt_of_lt (h l hlast)
  · have hplace : home e + l = place dib home e := by
      unfold place
      omega
    rwa [hplace]

theorem Orderly.dib_le (key : β → κ) (h : Orderly dib home n T) (hi : i < n) (hfree : dib (T i) = 0)
    (k : Nat) :
    dib (T (k % n)) ≤ (contents dib key n T).length := by
  by_cases hzero : dib (T (k % n)) = 0
  · omega
  · have hpos := Nat.pos_of_ne_zero hzero
    have hplaced : place dib home (T (k % n)) % n = k % n := h.placed k hpos
    exact (h.led k).dib_le hpos hi hfree (by rwa [hplaced])

/-- The element goes on, past one that is no nearer to its home. -/
theorem Led.pass (h : Led dib home n T e) (hbumps : Bumps dib home key limit bump)
    (hpos : 0 < dib e)
    (hlimit : dib e + 1 < limit) (hrich : dib e ≤ dib (T (place dib home e % n))) :
    Led dib home n T (bump e) := by
  intro j hj
  rw [hbumps.dib_bump e hlimit] at hj
  rw [hbumps.home_bump]
  by_cases hlast : j + 1 < dib e
  · exact h j hlast
  · have hplace : home e + j = place dib home e := by
      unfold place
      omega
    rw [hplace]
    omega

/-- The element that lost its cell goes on. -/
theorem Orderly.evict (h : Orderly dib home n T) (hbumps : Bumps dib home key limit bump)
    (hpos : 0 < dib (T (k % n)))
    (hlimit : dib (T (k % n)) + 1 < limit) (hpoor : dib (T (k % n)) < dib e) :
    Led dib home n (Function.update T (k % n) e) (bump (T (k % n))) := by
  intro j hj
  rw [hbumps.dib_bump _ hlimit] at hj
  rw [hbumps.home_bump]
  by_cases hhere : (home (T (k % n)) + j) % n = k % n
  · rw [hhere, Function.update_self]
    omega
  · rw [Function.update_of_ne hhere]
    refine h.led k j ?_
    by_contra hlast
    have hplace : home (T (k % n)) + j = place dib home (T (k % n)) := by
      unfold place
      omega
    rw [hplace] at hhere
    exact hhere (h.placed k hpos)

/-- No two of the elements hit each other: each is carried to its place. -/
theorem insertFrom_absent (hit₂ : β → β → Bool) (fill : β → β → β)
    (h : Orderly dib home n T) (hn : 2 ≤ n)
    (hbumps : Bumps dib home key limit bump) (hsymm : ∀ x y, same x y = same y x)
    (hhit : ∀ b b', hit₂ b b' = same (key b) (key b')) (hpos : 0 < dib e)
    (hled : Led dib home n T e) (hlimit : (contents dib key n T).length + 1 < limit)
    (habsent : (key e :: contents dib key n T).Pairwise fun x y => same x y = false)
    (hfree : ∃ l, l < fuel ∧ dib (T ((place dib home e + l) % n)) = 0) :
    ∃ T', insertFrom dib bump hit₂ fill n fuel T (place dib home e % n) e = some (T', none) ∧
      Orderly dib home n T' ∧ (contents dib key n T').Perm (key e :: contents dib key n T) := by
  induction fuel generalizing T e with
  | zero =>
    obtain ⟨l, hl, -⟩ := hfree
    exact absurd hl (Nat.not_lt_zero _)
  | succ fuel ih =>
    have hplace : place dib home e % n < n := Nat.mod_lt _ (by omega)
    have hocc : occ dib key e = [key e] := if_neg hpos.ne'
    rw [insertFrom]
    by_cases hzero : dib (T (place dib home e % n)) = 0
    · rw [if_pos hzero]
      refine ⟨_, rfl, h.put hn hpos hled (by omega), ?_⟩
      have hperm := contents_update dib key T hplace e
      rw [occ, if_pos hzero, hocc] at hperm
      simpa using hperm
    · rw [if_neg hzero]
      obtain ⟨l, hl, hl0⟩ := hfree
      have htaken := Nat.pos_of_ne_zero hzero
      have hpass : ∃ l', l = l' + 1 := by
        refine ⟨l - 1, ?_⟩
        have hne : l ≠ 0 := fun h0 => hzero (by simpa [h0] using hl0)
        omega
      obtain ⟨l, rfl⟩ := hpass
      have hmiss : hit₂ e (T (place dib home e % n)) = false := by
        rw [hhit]
        exact (List.pairwise_cons.mp habsent).1 _ (mem_contents.mpr ⟨_, hplace, htaken, rfl⟩)
      rw [if_neg (by simp [hmiss])]
      have hfar : dib e ≤ (contents dib key n T).length :=
        hled.dib_le hpos (Nat.mod_lt _ (by omega)) hl0 htaken
      by_cases hpoor : dib (T (place dib home e % n)) < dib e
      · rw [if_pos hpoor]
        obtain ⟨b, hb⟩ : ∃ b, b = T (place dib home e % n) := ⟨_, rfl⟩
        have hplaced := h.placed (place dib home e) htaken
        have hblimit : dib (T (place dib home e % n)) + 1 < limit := by omega
        have hled' := h.evict hbumps htaken hblimit hpoor
        have hput := h.put hn hpos hled hpoor
        have hperm := contents_update dib key T hplace e
        rw [← hb] at hplaced hpoor htaken hled' hperm hblimit ⊢
        rw [occ, if_neg htaken.ne', hocc] at hperm
        have hbplace := hbumps.place_bump htaken hblimit
        have hnext : place dib home (bump b) ≡ place dib home e + 1 [MOD n] := by
          rw [hbplace]
          exact hplaced.add_right 1
        have hlength := hperm.length_eq
        simp only [List.length_append, List.length_cons, List.length_nil] at hlength
        have hbpos : 0 < dib (bump b) := by
          rw [hbumps.dib_bump b hblimit]
          omega
        have hfree' : dib (Function.update T (place dib home e % n) e
            ((place dib home (bump b) + l) % n)) = 0 := by
          have hcell : (place dib home (bump b) + l) % n = (place dib home e + (l + 1)) % n := by
            rw [Nat.add_comm l 1, ← Nat.add_assoc]
            exact hnext.add_right l
          rw [hcell, Function.update_of_ne, hl0]
          intro heq
          rw [heq, ← hb] at hl0
          omega
        have habsent' : (key (bump b) :: contents dib key n
            (Function.update T (place dib home e % n) e)).Pairwise fun x y => same x y = false := by
          rw [hbumps.key_bump]
          exact (hperm.pairwise_iff fun {x y} hxy => (hsymm y x).trans hxy).mpr habsent
        obtain ⟨T', hloop, hT', hcontents⟩ :=
          ih hput hbpos hled' (by omega) habsent' ⟨l, by omega, hfree'⟩
        refine ⟨T', ?_, hT', hcontents.trans ?_⟩
        · rw [Nat.mod_add_mod, ← hnext]
          exact hloop
        · rw [hbumps.key_bump]
          exact hperm
      · rw [if_neg hpoor]
        have helimit : dib e + 1 < limit := by omega
        have hnext := hbumps.place_bump hpos helimit
        have hbpos : 0 < dib (bump e) := by
          rw [hbumps.dib_bump e helimit]
          omega
        have hfree' : dib (T ((place dib home (bump e) + l) % n)) = 0 := by
          rw [hnext, Nat.add_assoc, Nat.add_comm 1 l]
          exact hl0
        obtain ⟨T', hloop, hT', hcontents⟩ := ih h hbpos
          (hled.pass hbumps hpos helimit (by omega)) hlimit (by rwa [hbumps.key_bump])
          ⟨l, by omega, hfree'⟩
        refine ⟨T', ?_, hT', ?_⟩
        · rw [Nat.mod_add_mod, ← hnext]
          exact hloop
        · rwa [hbumps.key_bump] at hcontents

/-- An element that is hit is met before the one that is carried takes a
cell. -/
theorem insertFrom_present (hit₂ : β → β → Bool) (fill : β → β → β)
    (h : Orderly dib home n T) (hbumps : Bumps dib home key limit bump)
    (hhit : ∀ b b', hit₂ b b' = same (key b) (key b')) (hk : k < n) (htaken : 0 < dib (T k))
    (hsame : same (key e) (key (T k)) = true) (hhome : home e = home (T k)) (hpos : 0 < dib e)
    (hdib : dib e ≤ dib (T k)) (hlimit : dib (T k) < limit) (hfuel : dib (T k) < dib e + fuel) :
    ∃ i e', insertFrom dib bump hit₂ fill n fuel T (place dib home e % n) e =
        some (Function.update T i (fill e' (T i)), some (T i)) ∧
      i < n ∧ 0 < dib (T i) ∧ same (key e) (key (T i)) = true ∧ key e' = key e := by
  induction fuel generalizing e with
  | zero => omega
  | succ fuel ih =>
    have hmod : k % n = k := Nat.mod_eq_of_lt hk
    have hled := h.led k
    have hplaced := h.placed k
    rw [hmod] at hled hplaced
    have hplace : place dib home e % n < n := Nat.mod_lt _ (by omega)
    rw [insertFrom]
    by_cases hlast : dib e = dib (T k)
    · have hcell : place dib home e % n = k := by
        have heq : place dib home e = place dib home (T k) := by
          unfold place
          rw [hhome, hlast]
        rw [heq]
        exact (show place dib home (T k) % n = k % n from hplaced htaken).trans hmod
      rw [hcell, if_neg htaken.ne', hhit, if_pos hsame]
      exact ⟨k, e, rfl, hk, htaken, hsame, rfl⟩
    · have hwalk : home e + (dib e - 1) = place dib home e := by
        unfold place
        omega
      have hfar := hled (dib e - 1) (by omega)
      rw [← hhome, hwalk] at hfar
      rw [if_neg (by omega)]
      cases hmeet : hit₂ e (T (place dib home e % n)) with
      | true => exact ⟨_, e, by rw [if_pos rfl], hplace, by omega, (hhit _ _).symm.trans hmeet, rfl⟩
      | false =>
        have helimit : dib e + 1 < limit := by omega
        have hnext := hbumps.place_bump hpos helimit
        have hdibe := hbumps.dib_bump e helimit
        rw [if_neg Bool.false_ne_true, if_neg (by omega), Nat.mod_add_mod, ← hnext]
        rw [← hbumps.home_bump] at hhome
        rw [← hbumps.key_bump e] at hsame ⊢
        exact ih hsame hhome (by omega) (by omega) (by omega)

/-! ## Search -/

/-- The first cell from `i` on with a `hit`, up to a free cell. -/
def findFrom (dib : β → Nat) (hit : β → Bool) (n : Nat) (T : Nat → β) :
    Nat → Nat → Option (Option Nat)
  | 0, _ => none
  | fuel + 1, i =>
    if dib (T i) = 0 then some none
    else if hit (T i) then some (some i)
    else findFrom dib hit n T fuel ((i + 1) % n)

variable {hit : β → Bool} {a : Nat}

theorem findFrom_cases (hit : β → Bool) (hn : 0 < n)
    (hfree : ∃ l, l < fuel ∧ dib (T ((a + l) % n)) = 0) :
    (∃ i, findFrom dib hit n T fuel (a % n) = some (some i) ∧ i < n ∧ 0 < dib (T i) ∧
        hit (T i) = true) ∨
      findFrom dib hit n T fuel (a % n) = some none ∧
        ∃ l, dib (T ((a + l) % n)) = 0 ∧ ∀ l' < l, hit (T ((a + l') % n)) = false := by
  induction fuel generalizing a with
  | zero =>
    obtain ⟨l, hl, -⟩ := hfree
    exact absurd hl (Nat.not_lt_zero _)
  | succ fuel ih =>
    rw [findFrom]
    by_cases hzero : dib (T (a % n)) = 0
    · rw [if_pos hzero]
      exact .inr ⟨rfl, 0, hzero, fun l' hl' => absurd hl' (Nat.not_lt_zero _)⟩
    · rw [if_neg hzero]
      cases hhit : hit (T (a % n)) with
      | true => exact .inl ⟨a % n, by simp, Nat.mod_lt a hn, Nat.pos_of_ne_zero hzero, hhit⟩
      | false =>
        obtain ⟨l, hl, hl0⟩ := hfree
        cases l with
        | zero => exact absurd hl0 hzero
        | succ l =>
          have hshift : ∀ m, (a + 1 + m) % n = (a + (m + 1)) % n := fun m => by
            rw [Nat.add_assoc, Nat.add_comm 1 m]
          rw [if_neg Bool.false_ne_true, Nat.mod_add_mod]
          rcases ih (a := a + 1) ⟨l, Nat.lt_of_succ_lt_succ hl, by rw [hshift]; exact hl0⟩ with
            hfound | ⟨hloop, m, hm, hmiss⟩
          · exact .inl hfound
          · refine .inr ⟨hloop, m + 1, by rw [← hshift]; exact hm, fun l' hl' => ?_⟩
            cases l' with
            | zero => exact hhit
            | succ l' =>
              rw [← hshift]
              exact hmiss l' (Nat.lt_of_succ_lt_succ hl')

/-- What is met from `a` on: a hit, or a free cell, and then none of the
elements with the home `a` is a hit. -/
theorem findFrom_spec (h : Orderly dib home n T) (hi : i < n) (hfree : dib (T i) = 0)
    (hhome : ∀ j, j < n → 0 < dib (T j) → hit (T j) = true → home (T j) ≡ a [MOD n]) :
    (∃ i, findFrom dib hit n T n (a % n) = some (some i) ∧ i < n ∧ 0 < dib (T i) ∧
        hit (T i) = true) ∨
      findFrom dib hit n T n (a % n) = some none ∧
        ∀ j, j < n → 0 < dib (T j) → hit (T j) = false := by
  have hn : 0 < n := Nat.zero_lt_of_lt hi
  obtain ⟨l, hl, hli⟩ := exists_steps hi a
  rcases findFrom_cases hit hn ⟨l, hl, by rw [hli]; exact hfree⟩ with
    hfound | ⟨hloop, m, hm, hmiss⟩
  · exact .inl hfound
  · refine .inr ⟨hloop, fun j hj hpos => ?_⟩
    cases hhit : hit (T j) with
    | false => rfl
    | true =>
      have hmod : j % n = j := Nat.mod_eq_of_lt hj
      have hled := h.led j
      have hplaced := h.placed j
      rw [hmod] at hled hplaced
      have hway : ∀ l, (home (T j) + l) % n = (a + l) % n := fun l =>
        (hhome j hj hpos hhit).add_right l
      have hpl : place dib home (T j) = home (T j) + (dib (T j) - 1) := by
        unfold place
        omega
      have hlast : (a + (dib (T j) - 1)) % n = j := by
        have hj : place dib home (T j) % n = j % n := hplaced hpos
        rw [← hway, ← hpl, hj, hmod]
      by_cases hmd : m < dib (T j)
      · by_cases hend : m + 1 < dib (T j)
        · have htaken := hled m hend
          rw [hway, hm] at htaken
          omega
        · obtain rfl : m = dib (T j) - 1 := by omega
          rw [hlast] at hm
          omega
      · have hnot := hmiss (dib (T j) - 1) (by omega)
        rw [hlast, hhit] at hnot
        cases hnot

/-! ## Deletion -/

/-- The elements behind the hole `i` move up, to the first that is at home. -/
def closeFrom (dib : β → Nat) (drop free : β → β) (n : Nat) :
    Nat → (Nat → β) → Nat → Option (Nat → β)
  | 0, _, _ => none
  | fuel + 1, T, i =>
    let j := (i + 1) % n
    if dib (T j) ≤ 1 then some (Function.update T i (free (T i)))
    else closeFrom dib drop free n fuel (Function.update T i (drop (T j))) j

/-- A table that would be orderly with the hole `k` closed. -/
structure Hole (dib home : β → Nat) (n : Nat) (T : Nat → β) (k : Nat) : Prop where
  placed : ∀ j, j % n ≠ k % n → 0 < dib (T (j % n)) → place dib home (T (j % n)) ≡ j [MOD n]
  rich : ∀ j, j % n ≠ k % n → (j + 1) % n ≠ k % n → dib (T ((j + 1) % n)) ≤ dib (T (j % n)) + 1
  gap : ∀ j, (j + 1) % n = k % n → dib (T ((k + 1) % n)) ≤ dib (T (j % n)) + 2

theorem Orderly.hole (h : Orderly dib home n T) (k : Nat) : Hole dib home n T k where
  placed j _ := h.placed j
  rich j _ _ := h.rich j
  gap j hj := by
    have hnext := h.rich j
    have hbehind := h.rich k
    rw [hj] at hnext
    omega

/-- Nothing behind the hole has to move. -/
theorem Hole.close (h : Hole dib home n T k) (hn : 2 ≤ n) (hb : dib b = 0)
    (hend : dib (T ((k + 1) % n)) ≤ 1) :
    Orderly dib home n (Function.update T (k % n) b) where
  placed j hj := by
    by_cases hjk : j % n = k % n
    · rw [hjk, Function.update_self, hb] at hj
      exact absurd hj (Nat.lt_irrefl 0)
    · rw [Function.update_of_ne hjk] at hj ⊢
      exact h.placed j hjk hj
  rich j := by
    by_cases hjk : j % n = k % n
    · have hnext : (j + 1) % n = (k + 1) % n := Nat.ModEq.add_right 1 hjk
      rw [hjk, Function.update_self, hnext, Function.update_of_ne (succ_mod_ne hn k)]
      omega
    · rw [Function.update_of_ne hjk]
      by_cases hnext : (j + 1) % n = k % n
      · rw [hnext, Function.update_self]
        omega
      · rw [Function.update_of_ne hnext]
        exact h.rich j hjk hnext

/-- The element behind the hole moves into it. -/
theorem Hole.move (h : Hole dib home n T k) (hn : 2 ≤ n) (hfar : 1 < dib (T ((k + 1) % n)))
    (hdib : dib b + 1 = dib (T ((k + 1) % n))) (hhome : home b = home (T ((k + 1) % n))) :
    Hole dib home n (Function.update T (k % n) b) (k + 1) where
  placed j hj hpos := by
    by_cases hjk : j % n = k % n
    · rw [hjk, Function.update_self] at hpos ⊢
      have hplaced := h.placed (k + 1) (succ_mod_ne hn k) (by omega)
      have hsucc : place dib home (T ((k + 1) % n)) = place dib home b + 1 := by
        unfold place
        omega
      rw [hsucc] at hplaced
      exact (Nat.ModEq.add_right_cancel' 1 hplaced).trans (show k % n = j % n from hjk.symm)
    · rw [Function.update_of_ne hjk] at hpos ⊢
      exact h.placed j hjk hpos
  rich j hj hnext := by
    have hjk : j % n ≠ k % n := fun heq => hnext (Nat.ModEq.add_right 1 heq)
    rw [Function.update_of_ne hjk]
    by_cases hhole : (j + 1) % n = k % n
    · have hgap := h.gap j hhole
      rw [hhole, Function.update_self]
      omega
    · rw [Function.update_of_ne hhole]
      exact h.rich j hjk hhole
  gap j hj := by
    have hjk : j % n = k % n := mod_eq_of_succ hj
    rw [hjk, Function.update_self]
    by_cases hround : (k + 1 + 1) % n = k % n
    · rw [hround, Function.update_self]
      omega
    · have hrich := h.rich (k + 1) (succ_mod_ne hn k) hround
      rw [Function.update_of_ne hround]
      omega

/-- What is in the hole does not matter. -/
theorem Hole.update (h : Hole dib home n T k) (hn : 2 ≤ n) (b : β) :
    Hole dib home n (Function.update T (k % n) b) k where
  placed j hj hpos := by
    rw [Function.update_of_ne hj] at hpos ⊢
    exact h.placed j hj hpos
  rich j hj hnext := by
    rw [Function.update_of_ne hj, Function.update_of_ne hnext]
    exact h.rich j hj hnext
  gap j hj := by
    have hjk : j % n ≠ k % n := fun heq => succ_mod_ne hn j (hj.trans heq.symm)
    rw [Function.update_of_ne hjk, Function.update_of_ne (succ_mod_ne hn k)]
    exact h.gap j hj

theorem closeFrom_spec (drop free : β → β) (h : Hole dib home n T k) (hn : 2 ≤ n)
    (hlimit : ∀ j, dib (T (j % n)) < limit)
    (hdrop : ∀ b, 0 < dib b → dib b < limit → dib (drop b) + 1 = dib b ∧ home (drop b) = home b ∧
      key (drop b) = key b)
    (hfree : ∀ b, dib (free b) = 0)
    (hend : ∃ l, l < fuel ∧ l + 1 < n ∧ dib (T ((k + 1 + l) % n)) ≤ 1) :
    ∃ T', closeFrom dib drop free n fuel T (k % n) = some T' ∧ Orderly dib home n T' ∧
      (occ dib key (T (k % n)) ++ contents dib key n T').Perm (contents dib key n T) := by
  induction fuel generalizing T k with
  | zero =>
    obtain ⟨l, hl, -⟩ := hend
    exact absurd hl (Nat.not_lt_zero _)
  | succ fuel ih =>
    have hk : k % n < n := Nat.mod_lt k (by omega)
    simp only [closeFrom, Nat.mod_add_mod]
    by_cases hlast : dib (T ((k + 1) % n)) ≤ 1
    · rw [if_pos hlast]
      refine ⟨_, rfl, h.close hn (hfree _) hlast, ?_⟩
      have hperm := contents_update dib key T hk (free (T (k % n)))
      rwa [occ, occ, if_pos (hfree _), List.nil_append] at hperm
    · rw [if_neg hlast]
      obtain ⟨b, hb⟩ : ∃ b, b = T ((k + 1) % n) := ⟨_, rfl⟩
      rw [← hb] at hlast ⊢
      obtain ⟨hdib, hhome, hkey⟩ := hdrop b (by omega) (hb ▸ hlimit (k + 1))
      have hmove := h.move hn (b := drop b) (by rw [← hb]; omega) (by rw [hdib, hb])
        (by rw [hhome, hb])
      obtain ⟨l, hl, hln, hl1⟩ := hend
      obtain ⟨l, rfl⟩ : ∃ l', l = l' + 1 := by
        refine ⟨l - 1, ?_⟩
        have hne : l ≠ 0 := fun h0 => hlast (by simpa [h0, ← hb] using hl1)
        omega
      have hshift : k + 1 + (l + 1) = k + 1 + 1 + l := by omega
      have hother : (k + 1 + 1 + l) % n ≠ k % n := by
        rw [Nat.add_assoc, Nat.add_assoc]
        exact add_mod_ne (by omega) (by omega) k
      have hend' : ∃ l, l < fuel ∧ l + 1 < n ∧
          dib (Function.update T (k % n) (drop b) ((k + 1 + 1 + l) % n)) ≤ 1 := by
        refine ⟨l, by omega, by omega, ?_⟩
        rw [Function.update_of_ne hother, ← hshift]
        exact hl1
      have hlimit' : ∀ j, dib (Function.update T (k % n) (drop b) (j % n)) < limit := by
        intro j
        by_cases hjk : j % n = k % n
        · rw [hjk, Function.update_self]
          have hblimit := hlimit (k + 1)
          rw [← hb] at hblimit
          omega
        · rw [Function.update_of_ne hjk]
          exact hlimit j
      obtain ⟨T', hloop, hT', hperm⟩ := ih hmove hlimit' hend'
      refine ⟨T', hloop, hT', ?_⟩
      rw [Function.update_of_ne (succ_mod_ne hn k), ← hb] at hperm
      have hupdate := contents_update dib key T hk (drop b)
      have hdropped : occ dib key (drop b) = [key b] := by
        rw [occ, if_neg (by omega), hkey]
      rw [occ, if_neg (show dib b ≠ 0 by omega)] at hperm
      rw [hdropped] at hupdate
      have hboth := (hperm.append_left (occ dib key (T (k % n)))).trans hupdate
      exact List.Perm.cons_inv ((List.perm_append_comm_assoc ..).trans hboth)

end Training.Lib.RobinHood
