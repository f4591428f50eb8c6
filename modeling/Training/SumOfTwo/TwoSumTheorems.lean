/-
Training.SumOfTwo.TwoSumTheorems — when two elements are found.

The chain of a key has the node of the last element with this key in
front of the others of the key, so a search finds some index of it among
the elements that have been inserted, or there is none (`Tracks`). What is
left is the key `INT_MIN`, which has no place in the table.
-/
import Training.SumOfTwo.TwoSum

namespace Training.SumOfTwo

open Training.Lib Training.Lib.Arrays

variable {nums : List Int} {target key x : Int} {result : Int × Int} {table : Table}
  {k i turns : Nat} {s : Fin hashSize}

/-! ## The table -/

/-- Where a key is hashed to. -/
def place (key : Int) : Option (Fin hashSize) := (hash key).bind slot

theorem slot_emod_ne_none (x : Int) : slot (x % hashSize) ≠ none := by
  have hin : (x % hashSize).toNat < hashSize ∧ 0 ≤ x % hashSize := by
    change (x % 10000).toNat < 10000 ∧ 0 ≤ x % 10000
    omega
  rw [slot, dif_pos hin]
  simp

theorem place_eq_none_iff : place key = none ↔ key = intMin := by
  constructor
  · intro h
    by_contra hne
    have habs : abs key = some (if key < 0 then -key else key) := if_neg hne
    rw [place, hash, habs, Option.map_some, Option.bind_some] at h
    exact slot_emod_ne_none _ h
  · rintro rfl
    rfl

theorem search_eq (table : Table) (key : Int) : search table key = (place key).map fun s =>
    ((table s).find? fun node => node.key = key).elim (-1) HashNode.value := by
  cases hkey : hash key with
  | none => simp [search, place, hkey]
  | some index => cases hslot : slot index <;> simp [search, place, hkey, hslot]

theorem insert_eq (table : Table) (key value : Int) : insert table key value =
    (place key).map fun s => Function.update table s ({ key, value } :: table s) := by
  cases hkey : hash key with
  | none => simp [insert, place, hkey]
  | some index => cases hslot : slot index <;> simp [insert, place, hkey, hslot]

/-- What the table says about the first `k` elements. -/
def Tracks (nums : List Int) (k : Nat) (table : Table) : Prop :=
  ∀ (key : Int) (s : Fin hashSize), place key = some s →
    ((∃ node, (table s).find? (fun node => node.key = key) = some node ∧
        ∃ j : Nat, j < k ∧ node.value = j ∧ nums[j]? = some key) ∨
      (table s).find? (fun node => node.key = key) = none ∧ ∀ j : Nat, j < k → nums[j]? ≠ some key)

theorem tracks_empty (nums : List Int) : Tracks nums 0 Table.empty := by
  intro key s _
  exact .inr ⟨rfl, fun j hj => absurd hj (Nat.not_lt_zero j)⟩

theorem tracks_insert (h : Tracks nums k table) (hk : nums[k]? = some x) (hx : place x = some s) :
    Tracks nums (k + 1) (Function.update table s ({ key := x, value := k } :: table s)) := by
  intro key s' hs'
  by_cases hkey : key = x
  · subst hkey
    obtain rfl : s = s' := Option.some.inj (hx.symm.trans hs')
    exact .inl ⟨{ key, value := k }, by simp, k, Nat.lt_succ_self k, rfl, hk⟩
  · have hfind : (Function.update table s ({ key := x, value := k } :: table s) s').find?
        (fun node => node.key = key) = (table s').find? fun node => node.key = key := by
      by_cases hs : s' = s
      · subst hs
        simp [Ne.symm hkey]
      · rw [Function.update_of_ne hs]
    rw [hfind]
    refine (h key s' hs').imp ?_ ?_
    · rintro ⟨node, hnode, j, hj, hrest⟩
      exact ⟨node, hnode, j, by omega, hrest⟩
    · rintro ⟨hnone, hall⟩
      refine ⟨hnone, fun j hj => ?_⟩
      by_cases hjk : j = k
      · rw [hjk, hk]
        exact fun heq => hkey (Option.some.inj heq).symm
      · exact hall j (by omega)

/-! ## The loop -/

theorem NoPair.succ (h : NoPair nums target k) (hk : nums[k]? = some x)
    (hnone : ∀ j : Nat, j < k → nums[j]? ≠ some (target - x)) : NoPair nums target (k + 1) := by
  intro i j a b hij hj ha hb hsum
  by_cases hjk : j = k
  · subst hjk
    obtain rfl : x = b := Option.some.inj (hk.symm.trans hb)
    exact hnone i hij (by rw [ha, ← hsum, Int.add_sub_cancel])
  · exact h i j a b hij (by omega) ha hb hsum

theorem NoPair.not_succ {j : Nat} (hk : nums[k]? = some x) (hj : j < k)
    (hmem : nums[j]? = some (target - x)) {m : Nat} (hm : k < m) : ¬NoPair nums target m :=
  fun h => h j k _ x hj hm hmem hk (Int.sub_add_cancel target x)

theorem twoSumLoop_iff (hfit : ∀ x ∈ nums, Fits (target - x)) (hlen : k + turns = nums.length)
    (htable : Tracks nums k table) (hpair : NoPair nums target k) :
    (∃ out, twoSumLoop nums target result turns k table = some out ∧
        IsAnswer nums target result out) ↔
      ∀ (i : Nat) (x : Int), k ≤ i → nums[i]? = some x → NoPair nums target i →
        target - x ≠ intMin ∧ (NoPair nums target (i + 1) → x ≠ intMin) := by
  induction turns generalizing k table with
  | zero =>
    obtain rfl : k = nums.length := by omega
    refine iff_of_true ⟨result, rfl, .inr ⟨hpair, rfl⟩⟩ fun i x hi hx => ?_
    rw [List.getElem?_eq_none hi] at hx
    exact absurd hx (by simp)
  | succ turns ih =>
    have hk : k < nums.length := by omega
    have hx : nums[k]? = some nums[k] := List.getElem?_eq_getElem hk
    have hsub : sub target nums[k] = some (target - nums[k]) :=
      if_pos (hfit _ (List.getElem_mem hk))
    simp only [twoSumLoop, read_eq hk, Option.bind_eq_bind, Option.bind_some, hsub, search_eq,
      insert_eq]
    cases hplace : place (target - nums[k]) with
    | none =>
      refine iff_of_false (by simp) fun h => ?_
      exact (h k _ (Nat.le_refl k) hx hpair).1 (place_eq_none_iff.mp hplace)
    | some s =>
      have hdefined : target - nums[k] ≠ intMin := fun heq => by
        rw [place_eq_none_iff.mpr heq] at hplace
        exact absurd hplace (by simp)
      simp only [Option.map_some, Option.bind_some]
      rcases htable _ s hplace with ⟨node, hnode, j, hj, hvalue, hmem⟩ | ⟨hnone, hall⟩
      · -- the two elements are found
        rw [hnode, Option.elim_some, hvalue, if_pos (by omega)]
        refine iff_of_true ⟨_, rfl, .inl ⟨j, k, _, _, by omega, rfl, hmem, hx, ?_⟩⟩ ?_
        · exact Int.sub_add_cancel target _
        · intro i y hi hy hno
          by_cases hik : i = k
          · subst hik
            obtain rfl : nums[i] = y := Option.some.inj (hx.symm.trans hy)
            exact ⟨hdefined, fun hsucc => absurd hsucc (NoPair.not_succ hx hj hmem (by omega))⟩
          · exact absurd hno (NoPair.not_succ hx hj hmem (by omega))
      · rw [hnone, Option.elim_none, if_neg (by simp)]
        have hpair' := hpair.succ hx hall
        cases hins : place nums[k] with
        | none =>
          refine iff_of_false (by simp) fun h => ?_
          exact (h k _ (Nat.le_refl k) hx hpair).2 hpair' (place_eq_none_iff.mp hins)
        | some s' =>
          have hkey : nums[k] ≠ intMin := fun heq => by
            rw [place_eq_none_iff.mpr heq] at hins
            exact absurd hins (by simp)
          rw [Option.map_some, Option.bind_some,
            ih (by omega) (tracks_insert htable hx hins) hpair']
          constructor
          · intro h i y hi hy hno
            by_cases hik : i = k
            · subst hik
              obtain rfl : nums[i] = y := Option.some.inj (hx.symm.trans hy)
              exact ⟨hdefined, fun _ => hkey⟩
            · exact h i y (by omega) hy hno
          · intro h i y hi
            exact h i y (by omega)

/-- The answer is right exactly when `INT_MIN` is never hashed before two
elements are found. -/
theorem twoSum_correct_iff (hfit : ∀ x ∈ nums, Fits (target - x)) :
    Correct nums target result ↔ HashesDefined nums target := by
  have hpair : NoPair nums target 0 := fun i j _ _ _ hj => absurd hj (Nat.not_lt_zero j)
  unfold Correct HashesDefined twoSum
  rw [twoSumLoop_iff hfit (Nat.zero_add _) (tracks_empty nums) hpair]
  exact forall_congr' fun i => forall_congr' fun x => ⟨fun h => h (Nat.zero_le i), fun h _ => h⟩

theorem twoSum_correct_iff_four :
    Correct [4, -29, 5, 9] (-20) (-1, -1) ↔ HashesDefined [4, -29, 5, 9] (-20) :=
  twoSum_correct_iff (by decide)

/-- The element is inserted at an undefined place. -/
theorem hash_undefined :
    Fits intMin ∧ Fits (-1 - intMin) ∧ ¬Correct [intMin] (-1) (-1, -1) := by
  refine ⟨by decide, by decide, ?_⟩
  rintro ⟨out, hout, -⟩
  have hnone : twoSum [intMin] (-1) (-1, -1) = none := rfl
  exact Option.some_ne_none out (hout.symm.trans hnone)

end Training.SumOfTwo
