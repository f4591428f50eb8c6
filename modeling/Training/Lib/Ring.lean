/-
Training.Lib.Ring — a queue in a circular array.

`elems slots size head count` are the `count` elements from the index
`head` on, oldest first. `elems_push` and `elems_pop` say what writing
behind the last element and moving `head` on do to them.
-/
import Mathlib.Data.Nat.ModEq
import Mathlib.Logic.Function.Basic
import Mathlib.Tactic.Common

namespace Training.Lib.Ring

universe u

variable {α : Type u} {slots : Nat → α} {size head count : Nat}

def elems (slots : Nat → α) (size head count : Nat) : List α :=
  (List.range count).map fun i => slots ((head + i) % size)

@[simp] theorem elems_zero : elems slots size head 0 = [] := rfl

@[simp] theorem length_elems : (elems slots size head count).length = count := by
  simp [elems]

/-- Different offsets below the size are different slots. -/
theorem index_inj {i j : Nat} (hi : i < size) (hj : j < size)
    (h : (head + i) % size = (head + j) % size) : i = j := by
  have hmod : i % size = j % size := Nat.ModEq.add_left_cancel' head h
  rwa [Nat.mod_eq_of_lt hi, Nat.mod_eq_of_lt hj] at hmod

/-- Writing behind the last element. -/
theorem elems_push (hroom : count < size) (x : α) :
    elems (Function.update slots ((head + count) % size) x) size head (count + 1) =
      elems slots size head count ++ [x] := by
  unfold elems
  rw [List.range_succ, List.map_append, List.map_singleton, Function.update_self]
  congr 1
  refine List.map_congr_left fun i hi => Function.update_of_ne ?_ _ _
  have hlt : i < count := List.mem_range.mp hi
  exact fun heq => absurd (index_inj (Nat.lt_trans hlt hroom) hroom heq) (Nat.ne_of_lt hlt)

/-- Moving `head` on. -/
theorem elems_pop :
    elems slots size head (count + 1) =
      slots (head % size) :: elems slots size ((head + 1) % size) count := by
  unfold elems
  rw [List.range_succ_eq_map, List.map_cons, List.map_map]
  congr 1
  refine List.map_congr_left fun i _ => ?_
  simp only [Function.comp_apply, Nat.mod_add_mod]
  congr 2
  omega

end Training.Lib.Ring
