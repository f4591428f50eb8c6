/-
Training.Lfu.Reference — what a cache of the least frequently used is.

The entries are a list, the one used last in front, and each counts its
uses. An entry that is read or written goes to the front with one use
more. Where a new key is one too many for the capacity, the victim is the
last entry of those with the fewest uses.
-/
import Mathlib.Tactic.Common

namespace Training.Lfu.Reference

universe u v

variable {κ : Type u} {β : Type v} [DecidableEq κ]

structure Entry (κ : Type u) (β : Type v) where
  key : κ
  value : β
  count : Int

def find (key : κ) (entries : List (Entry κ β)) : Option (Entry κ β) :=
  entries.find? fun e => e.key = key

/-- The entries without the one of `key`. -/
def without (key : κ) (entries : List (Entry κ β)) : List (Entry κ β) :=
  entries.filter fun e => e.key ≠ key

/-- The entries after a use of `e`. -/
def use (e : Entry κ β) (entries : List (Entry κ β)) : List (Entry κ β) :=
  { e with count := e.count + 1 } :: without e.key entries

def victim (entries : List (Entry κ β)) : Option (Entry κ β) :=
  (entries.filter fun e => entries.all fun f => e.count ≤ f.count).getLast?

/-- The entries without the victim, and its key. -/
def evict (entries : List (Entry κ β)) : List (Entry κ β) × Option κ :=
  match victim entries with
  | none => (entries, none)
  | some e => (without e.key entries, some e.key)

/-- The entries after a read, and what it returns; `missing` says that the
key is not there. -/
def get (missing : β) (key : κ) (entries : List (Entry κ β)) : List (Entry κ β) × β :=
  match find key entries with
  | none => (entries, missing)
  | some e => (use e entries, e.value)

/-- The entries after a write, and the key of the victim. -/
def put (capacity : Int) (key : κ) (value : β) (entries : List (Entry κ β)) :
    List (Entry κ β) × Option κ :=
  if capacity = 0 then (entries, none)
  else
    match find key entries with
    | some e => (use { e with value } entries, none)
    | none =>
        if capacity ≤ entries.length then (⟨key, value, 1⟩ :: (evict entries).1, (evict entries).2)
        else (⟨key, value, 1⟩ :: entries, none)

inductive Op (κ : Type u) (β : Type v)
  | get (key : κ)
  | put (key : κ) (value : β)

def Op.key : Op κ β → κ
  | .get key => key
  | .put key _ => key

inductive Answer (κ : Type u) (β : Type v)
  | value (v : β)
  | victim (key : Option κ)

def step (missing : β) (capacity : Int) (entries : List (Entry κ β)) : Op κ β → List (Entry κ β)
  | .get key => (get missing key entries).1
  | .put key value => (put capacity key value entries).1

def answer (missing : β) (capacity : Int) (entries : List (Entry κ β)) : Op κ β → Answer κ β
  | .get key => .value (get missing key entries).2
  | .put key value => .victim (put capacity key value entries).2

/-! ## Counts -/

variable {entries : List (Entry κ β)} {bound : κ → Nat} {key : κ} {e : Entry κ β}

theorem find_spec (h : find key entries = some e) : e ∈ entries ∧ e.key = key := by
  have htrue := List.find?_some h
  exact ⟨List.mem_of_find?_eq_some h, of_decide_eq_true htrue⟩

theorem evict_subset (entries : List (Entry κ β)) : (evict entries).1 ⊆ entries := by
  unfold evict
  split
  · exact fun _ h => h
  · exact fun _ h => (List.mem_filter.mp h).1

/-- The operations on `key`, and one more. -/
def oneMore (bound : κ → Nat) (key k : κ) : Nat := bound k + if key = k then 1 else 0

section Bound

variable (hes : ∀ f ∈ entries, f.count ≤ bound f.key)

include hes

theorem count_le_oneMore : ∀ f ∈ entries, f.count ≤ oneMore bound key f.key := by
  intro f hf
  have hle := hes f hf
  unfold oneMore
  omega

theorem count_le_use (he : e ∈ entries) (value : β) :
    ∀ f ∈ use { e with value } entries, f.count ≤ oneMore bound e.key f.key := by
  intro f hf
  rcases List.mem_cons.mp hf with rfl | hf
  · have hle := hes e he
    unfold oneMore
    dsimp only
    rw [if_pos rfl]
    omega
  · exact count_le_oneMore hes f (List.mem_filter.mp hf).1

theorem count_le_new (value : β) {others : List (Entry κ β)} (hsub : others ⊆ entries) :
    ∀ f ∈ (⟨key, value, 1⟩ :: others : List (Entry κ β)), f.count ≤ oneMore bound key f.key := by
  intro f hf
  rcases List.mem_cons.mp hf with rfl | hf
  · unfold oneMore
    dsimp only
    rw [if_pos rfl]
    omega
  · exact count_le_oneMore hes f (hsub hf)

/-- No entry counts more uses than there are operations on its key. -/
theorem count_le_step (missing : β) (capacity : Int) (op : Op κ β) :
    ∀ f ∈ step missing capacity entries op, f.count ≤ oneMore bound op.key f.key := by
  cases op with
  | get key =>
    show ∀ f ∈ (get missing key entries).1, f.count ≤ oneMore bound key f.key
    unfold get
    cases hf : find key entries with
    | none => exact count_le_oneMore hes
    | some e =>
      obtain ⟨hmem, rfl⟩ := find_spec hf
      exact count_le_use hes hmem e.value
  | put key value =>
    show ∀ f ∈ (put capacity key value entries).1, f.count ≤ oneMore bound key f.key
    unfold put
    split
    · exact count_le_oneMore hes
    · cases hf : find key entries with
      | some e =>
        obtain ⟨hmem, rfl⟩ := find_spec hf
        exact count_le_use hes hmem value
      | none =>
        dsimp only
        split
        · exact count_le_new hes value (evict_subset entries)
        · exact count_le_new hes value fun _ h => h

end Bound

end Training.Lfu.Reference
