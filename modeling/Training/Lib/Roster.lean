/-
Training.Lib.Roster — a list of threads, one of which takes a step.

The states of the threads are a list, and a step of the thread `i`
replaces its state. What is added up over the threads changes by what
the one thread has before and after: the things they hold
(`flatMap_set_perm`), how many are in a kind of state (`countP_set`) and
what they count (`sum_map_set`).
-/
import Mathlib.Algebra.Ring.Nat
import Mathlib.Data.List.Perm.Basic

namespace Training.Lib.Roster

universe u v

variable {ω : Type u} {α : Type v} {ws : List ω} {w : ω} {i : Nat}

theorem flatMap_set_perm (h : ws[i]? = some w) (w' : ω) (f : ω → List α) :
    (f w ++ (ws.set i w').flatMap f).Perm (f w' ++ ws.flatMap f) := by
  obtain ⟨hi, hw⟩ := List.getElem?_eq_some_iff.mp h
  have hset : ((ws.set i w').flatMap f).Perm (f w' ++ (ws.eraseIdx i).flatMap f) :=
    (List.set_perm_cons_eraseIdx hi w').flatMap_right f
  have hget : (f w ++ (ws.eraseIdx i).flatMap f).Perm (ws.flatMap f) := by
    have hperm := (List.getElem_cons_eraseIdx_perm hi).flatMap_right f
    rwa [hw] at hperm
  calc (f w ++ (ws.set i w').flatMap f).Perm (f w ++ (f w' ++ (ws.eraseIdx i).flatMap f)) :=
        hset.append_left _
    _ |>.Perm (f w' ++ (f w ++ (ws.eraseIdx i).flatMap f)) := List.perm_append_comm_assoc ..
    _ |>.Perm (f w' ++ ws.flatMap f) := hget.append_left _

theorem countP_set (h : ws[i]? = some w) (w' : ω) (p : ω → Bool) :
    (ws.set i w').countP p + (if p w then 1 else 0) = ws.countP p + if p w' then 1 else 0 := by
  obtain ⟨hi, hw⟩ := List.getElem?_eq_some_iff.mp h
  have hset := (List.set_perm_cons_eraseIdx hi w').countP_eq p
  have hget := (List.getElem_cons_eraseIdx_perm hi).countP_eq p
  rw [hw] at hget
  rw [hset, ← hget, List.countP_cons, List.countP_cons]
  omega

theorem sum_map_set (h : ws[i]? = some w) (w' : ω) (f : ω → Nat) :
    ((ws.set i w').map f).sum + f w = (ws.map f).sum + f w' := by
  obtain ⟨hi, hw⟩ := List.getElem?_eq_some_iff.mp h
  have hset := ((List.set_perm_cons_eraseIdx hi w').map f).sum_nat
  have hget := ((List.getElem_cons_eraseIdx_perm hi).map f).sum_nat
  rw [hw] at hget
  rw [hset, ← hget, List.map_cons, List.map_cons, List.sum_cons, List.sum_cons]
  omega

/-- What the new state has in common with the old one stays in its place. -/
theorem map_set {w' : ω} {f : ω → α} (h : ws[i]? = some w) (hf : f w' = f w) :
    (ws.set i w').map f = ws.map f := by
  obtain ⟨hi, rfl⟩ := List.getElem?_eq_some_iff.mp h
  rw [List.map_set, hf, ← List.getElem_map f (h := by simpa using hi), List.set_getElem_self]

/-- A thread of the list that another one has left alone. -/
theorem mem_set {x w' : ω} (h : x ∈ ws.set i w') : x = w' ∨ x ∈ ws :=
  (List.mem_or_eq_of_mem_set h).symm

end Training.Lib.Roster
