/-
Training.Lib.Slots — tables of records whose first slots are in use.

The records of a table are in the slots 0 to `n - 1` of an array (`live`).
A new record goes into the slot `n` (`live_push`), and the last one goes
into the slot of one that is taken out (`live_remove`). A record is looked
up by a key in all slots of the array, in use or not (`find`): the one in
use is found (`find_live`), and what the other slots hold may be found too.
-/
import Mathlib.Data.List.Nodup
import Mathlib.Data.List.Perm.Basic

namespace Training.Lib.Slots

universe u v

variable {α : Type u} {κ : Type v} {slots slots' : Int → α} {n i size : Nat} {x : α}

/-- The records in the slots in use. -/
def live (slots : Int → α) (n : Nat) : List α := (List.range n).map fun i : Nat => slots i

@[simp] theorem length_live (slots : Int → α) (n : Nat) : (live slots n).length = n := by
  simp [live]

theorem live_succ (slots : Int → α) (n : Nat) : live slots (n + 1) = live slots n ++ [slots n] := by
  simp [live, List.range_succ]

theorem mem_live : x ∈ live slots n ↔ ∃ i, i < n ∧ slots (i : Int) = x := by
  simp [live]

theorem live_congr (h : ∀ i, i < n → slots' (i : Int) = slots i) : live slots' n = live slots n :=
  List.map_congr_left fun i hi => h i (List.mem_range.mp hi)

theorem live_push (hx : slots' (n : Int) = x) (h : ∀ i, i < n → slots' (i : Int) = slots i) :
    live slots' (n + 1) = live slots n ++ [x] := by
  rw [live_succ, live_congr h, hx]

/-- The record in the slot `i` is replaced. -/
theorem live_set (h : ∀ j, j < n → slots' (j : Int) = if j = i then x else slots j) :
    live slots' n = (live slots n).set i x := by
  refine List.ext_getElem (by simp) fun j hj hj' => ?_
  rw [List.getElem_set]
  simp only [live, List.getElem_map, List.getElem_range]
  rw [h j (by simpa using hj)]
  simp only [eq_comm]

theorem set_perm (hi : i < n) (x : α) :
    (slots (i : Int) :: (live slots n).set i x).Perm (x :: live slots n) := by
  have hlen : i < (live slots n).length := by simpa using hi
  have hget : (live slots n)[i] = slots (i : Int) := by simp [live]
  calc (slots (i : Int) :: (live slots n).set i x).Perm
        (slots (i : Int) :: x :: (live slots n).eraseIdx i) :=
          (List.set_perm_cons_eraseIdx hlen x).cons _
    _ |>.Perm (x :: slots (i : Int) :: (live slots n).eraseIdx i) := List.Perm.swap ..
    _ |>.Perm (x :: live slots n) := by
          rw [← hget]
          exact (List.getElem_cons_eraseIdx_perm hlen).cons _

/-- The record in the slot `i` is taken out, and the last one has its slot. -/
theorem live_remove (hi : i ≤ n)
    (h : ∀ j, j < n → slots' (j : Int) = if j = i then slots (n : Int) else slots j) :
    (slots (i : Int) :: live slots' n).Perm (live slots (n + 1)) := by
  rw [live_succ]
  rcases Nat.eq_or_lt_of_le hi with rfl | hlt
  · rw [live_congr fun j hj => (h j hj).trans (if_neg (Nat.ne_of_lt hj))]
    exact (List.perm_append_singleton _ _).symm
  · rw [live_set h]
    exact (set_perm hlt _).trans (List.perm_append_singleton _ _).symm

theorem pairwise_live {R : α → α → Prop} :
    (live slots n).Pairwise R ↔
      ∀ i j : Nat, i < j → j < n → R (slots (i : Int)) (slots (j : Int)) := by
  rw [List.pairwise_iff_getElem]
  simp only [live, List.length_map, List.length_range, List.getElem_map, List.getElem_range]
  constructor
  · intro h i j hij hj
    exact h i j (Nat.lt_trans hij hj) hj hij
  · intro h i j _ hj hij
    exact h i j hij hj

/-! ## Lookups -/

variable [DecidableEq κ] {key : α → κ} {k : κ}

/-- The first slot with the key. -/
def find (key : α → κ) (slots : Int → α) (size : Nat) (k : κ) : Option Nat :=
  (List.range size).find? fun i : Nat => key (slots i) = k

theorem find_eq_none : find key slots size k = none ↔ ∀ i, i < size → key (slots (i : Int)) ≠ k := by
  simp [find, List.find?_eq_none]

/-- The records in use have different keys, so a slot in use is the first one
with its key. -/
theorem find_live (hnodup : ((live slots n).map key).Nodup) (hi : i < n) (hn : n ≤ size) :
    find key slots size (key (slots (i : Int))) = some i := by
  have hget : ∀ j, j < n → ((live slots n).map key)[j]? = some (key (slots (j : Int))) := by
    intro j hj
    simp [live, hj]
  refine List.find?_range_eq_some.mpr ⟨by simp, by simpa using Nat.lt_of_lt_of_le hi hn, ?_⟩
  intro j hj
  have hne : key (slots (j : Int)) ≠ key (slots (i : Int)) := by
    intro heq
    have hjn : j < n := Nat.lt_trans hj hi
    have hsame : ((live slots n).map key)[j]? = ((live slots n).map key)[i]? := by
      rw [hget j hjn, hget i hi, heq]
    exact Nat.ne_of_lt hj ((List.getElem?_inj (by simpa using hjn) hnodup).mp hsame)
  simpa using hne

end Training.Lib.Slots
