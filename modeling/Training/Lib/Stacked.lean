/-
Training.Lib.Stacked — a stack in an array.

`Stacked data xs`: the array starts with the stack `xs`, the first of them
the bottom. A place that nothing has been written to holds `none`.
-/
import Mathlib.Data.List.Basic
import Mathlib.Tactic.Common

namespace Training.Lib

universe u

variable {α : Type u} {data : List (Option α)} {xs : List α} {x : α}

structure Stacked (data : List (Option α)) (xs : List α) : Prop where
  room : xs.length ≤ data.length
  start : data.take xs.length = xs.reverse.map some

theorem stacked_nil (data : List (Option α)) : Stacked data [] where
  room := Nat.zero_le _
  start := by simp

theorem Stacked.push (h : Stacked data xs) (hroom : xs.length < data.length) (x : α) :
    Stacked (data.set xs.length (some x)) (x :: xs) where
  room := by rwa [List.length_set]
  start := by
    have htake : (data.set xs.length (some x)).take xs.length = data.take xs.length := by
      rw [List.take_set, List.set_eq_of_length_le (List.length_take_le _ _)]
    rw [List.length_cons, List.take_succ_eq_append_getElem (by simpa using hroom), htake, h.start]
    simp

theorem Stacked.top (h : Stacked data (x :: xs)) : data[xs.length]? = some (some x) := by
  have hget := congrArg (fun ys => ys[xs.length]?) h.start
  simpa using hget

theorem Stacked.pop (h : Stacked data (x :: xs)) : Stacked data xs where
  room := Nat.le_of_succ_le h.room
  start := by
    have htake := congrArg (fun ys => ys.take xs.length) h.start
    simpa [List.take_take, List.take_append_of_le_length] using htake

theorem Stacked.grow (h : Stacked data xs) (more : List (Option α)) :
    Stacked (data ++ more) xs where
  room := by
    rw [List.length_append]
    exact Nat.le_add_right_of_le h.room
  start := by rw [List.take_append_of_le_length h.room, h.start]

end Training.Lib
