/-
Training.Lib.Ledger — what is allocated, and the calls of `free`.

A ledger has the addresses that were handed out and not taken back.
`free(NULL)` does nothing; `free` of an address that is not in the ledger
is a mistake (`bad`). A list of calls takes each of its addresses out once,
and makes no mistake, where they are among those held, each once
(`freeAll_spec`).
-/
import Mathlib.Data.List.Perm.Basic
import Mathlib.Data.List.Nodup

namespace Training.Lib

structure Ledger where
  held : List Nat := []
  bad : Bool := false

namespace Ledger

variable {l : Ledger} {calls rest : List Nat}

/-- The addresses that are not `NULL`. -/
def addresses (ps : List Nat) : List Nat := ps.filter (· ≠ 0)

@[simp] theorem addresses_nil : addresses [] = [] := rfl

@[simp] theorem addresses_zero (ps : List Nat) : addresses (0 :: ps) = addresses ps := rfl

theorem addresses_cons {p : Nat} (hp : p ≠ 0) (ps : List Nat) :
    addresses (p :: ps) = p :: addresses ps := by
  simp [addresses, hp]

@[simp] theorem addresses_append (ps qs : List Nat) :
    addresses (ps ++ qs) = addresses ps ++ addresses qs := List.filter_append ..

def alloc (ps : List Nat) (l : Ledger) : Ledger := { l with held := ps ++ l.held }

def free (l : Ledger) (p : Nat) : Ledger :=
  if p = 0 then l else { held := l.held.erase p, bad := l.bad || p ∉ l.held }

/-- The calls, one after another. -/
def freeAll (calls : List Nat) (l : Ledger) : Ledger := calls.foldl free l

theorem freeAll_spec (hperm : l.held.Perm (addresses calls ++ rest)) :
    (freeAll calls l).held.Perm rest ∧ (freeAll calls l).bad = l.bad := by
  induction calls generalizing l with
  | nil => exact ⟨hperm, rfl⟩
  | cons p ps ih =>
    by_cases hp : p = 0
    · subst hp
      exact ih (l := l) hperm
    · rw [addresses_cons hp, List.cons_append] at hperm
      have hmem : p ∈ l.held := hperm.mem_iff.mpr List.mem_cons_self
      have hrest : (l.held.erase p).Perm (addresses ps ++ rest) := by
        have herase := hperm.erase p
        rwa [List.erase_cons_head] at herase
      have hfree : free l p = { held := l.held.erase p, bad := l.bad } := by
        simp [free, hp, hmem]
      have hnext := ih (l := { held := l.held.erase p, bad := l.bad }) hrest
      show (freeAll ps (free l p)).held.Perm rest ∧ (freeAll ps (free l p)).bad = l.bad
      rw [hfree]
      exact hnext

end Ledger

end Training.Lib
