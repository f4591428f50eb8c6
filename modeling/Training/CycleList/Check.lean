/-
Training.CycleList.Check — whether a linked list has a cycle,
`C/job_interview/08_cycle_list_check.c`.

Translation notes.

* `α` are the nodes, `next` is their link, and `NULL` is `none`. A link of
  `NULL` gives `none`, and so does a loop that is still going after `fuel`
  turns.
* The data of the nodes are read by nobody. `createNode`, `freeList` and
  `main` are left out.

The check ends, and finds the cycle: after `k` turns the slow pointer has
followed `k` links and the fast one `2 k + 1`, so they meet, if the fast one
does not come to the end before. They meet in a node, and then the list has
no end (`raceLoop_spec`).
-/
import Training.Lib.Orbits

namespace Training.CycleList

open Training.Lib.Orbits

universe u

variable {α : Type u} {next : α → Option α} {head : Option α} {k stop fuel : Nat}

/-- `p->next` -/
def link (next : α → Option α) (p : Option α) : Option (Option α) := p.map next

def raceLoop [DecidableEq α] (next : α → Option α) : Nat → Option α → Option α → Option Bool
  | 0, _, _ => none
  | fuel + 1, slow, fast =>
    if slow ≠ fast then
      if fast = none then some false
      else
        (link next fast).bind fun ahead =>
          if ahead = none then some false
          else
            (link next slow).bind fun slow =>
              (link next ahead).bind fun fast => raceLoop next fuel slow fast
    else some true

def hasCycle [DecidableEq α] (fuel : Nat) (next : α → Option α) (head : Option α) : Option Bool :=
  if head = none then some false
  else
    (link next head).bind fun second =>
      if second = none then some false else raceLoop next fuel head second

theorem link_follow (h : follow next head k ≠ none) :
    link next (follow next head k) = some (follow next head (k + 1)) := by
  obtain ⟨x, hx⟩ := Option.ne_none_iff_exists'.mp h
  simp [link, hx]

variable [DecidableEq α]

theorem raceLoop_spec (hmeets : follow next head (2 * stop + 1) = follow next head stop)
    (hk : k ≤ stop) (hnode : follow next head (2 * k) ≠ none) (hfuel : stop < k + fuel) :
    ∃ b, raceLoop next fuel (follow next head k) (follow next head (2 * k + 1)) = some b ∧
      (b = true ↔ Endless next head) := by
  induction fuel generalizing k with
  | zero => omega
  | succ fuel ih =>
    have hslow : follow next head k ≠ none := follow_ne_none_of_le (by omega) hnode
    rw [raceLoop]
    by_cases hmeet : follow next head k = follow next head (2 * k + 1)
    · refine ⟨true, if_neg (not_not.mpr hmeet), ?_⟩
      have hround : follow next head (k + (k + 1)) = follow next head k := by
        rw [hmeet]
        congr 1
        omega
      simpa using endless_of_repeat (Nat.succ_pos k) hround hslow
    · rw [if_pos hmeet]
      by_cases hfast : follow next head (2 * k + 1) = none
      · exact ⟨false, if_pos hfast, by simpa using fun hall => hall _ hfast⟩
      · rw [if_neg hfast, link_follow hfast, Option.bind_some]
        by_cases hahead : follow next head (2 * k + 1 + 1) = none
        · exact ⟨false, if_pos hahead, by simpa using fun hall => hall _ hahead⟩
        · have hlater : k ≠ stop := by
            rintro rfl
            exact hmeet hmeets.symm
          rw [if_neg hahead, link_follow hslow, link_follow hahead]
          exact ih (k := k + 1) (by omega) hahead (by omega)

/-- On every list the check ends, and says whether the list does not. -/
theorem hasCycle_iff [Finite α] (next : α → Option α) (head : Option α) :
    ∃ turns, ∀ fuel, turns ≤ fuel →
      ∃ b, hasCycle fuel next head = some b ∧ (b = true ↔ Endless next head) := by
  obtain ⟨stop, hmeets⟩ := exists_meet next head
  refine ⟨stop + 1, fun fuel hfuel => ?_⟩
  unfold hasCycle
  by_cases hhead : head = none
  · exact ⟨false, if_pos hhead, by simpa using fun hall => hall 0 hhead⟩
  · rw [if_neg hhead]
    have hfirst : follow next head 0 ≠ none := hhead
    rw [show link next head = _ from link_follow hfirst, Option.bind_some]
    by_cases hsecond : follow next head (0 + 1) = none
    · exact ⟨false, if_pos hsecond, by simpa using fun hall => hall _ hsecond⟩
    · rw [if_neg hsecond]
      exact raceLoop_spec (k := 0) hmeets (Nat.zero_le stop) hhead (by omega)

/-- Four nodes in a row and back to the second. -/
theorem hasCycle_iff_four : ∃ turns, ∀ fuel, turns ≤ fuel →
    ∃ b, hasCycle fuel (fun x : Fin 4 => if x = 3 then some 1 else some (x + 1)) (some 0) = some b ∧
      (b = true ↔ Endless (fun x : Fin 4 => if x = 3 then some 1 else some (x + 1)) (some 0)) :=
  hasCycle_iff _ _

end Training.CycleList
