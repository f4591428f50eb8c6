/-
Training.Lib.Probing — linear probing in a table of `size` slots.

`probe` goes from a slot to the next one, around the end of the table,
until it is at a slot that `stop` accepts. `dist size a b` is how many
slots it goes on from `a` to `b`, so the slot it ends at is the accepted
one with the least distance (`probe_eq_some`). `Reaches` says that the slots
on the way are taken.
-/
import Mathlib.Data.Nat.Find
import Mathlib.Tactic.Common

namespace Training.Lib.Probing

variable {size fuel a b e i : Nat} {stop : Nat → Bool} {p q : Nat → Prop}

def probe (size : Nat) (stop : Nat → Bool) : Nat → Nat → Option Nat
  | 0, _ => none
  | fuel + 1, idx => if stop idx then some idx else probe size stop fuel ((idx + 1) % size)

def dist (size a b : Nat) : Nat := if a ≤ b then b - a else size - a + b

/-! ## Distances -/

@[simp] theorem dist_self : dist size a a = 0 := by simp [dist]

theorem dist_lt (ha : a < size) (hb : b < size) : dist size a b < size := by
  unfold dist
  split <;> omega

theorem dist_pos (ha : a < size) (hne : b ≠ a) : 0 < dist size a b := by
  unfold dist
  split <;> omega

theorem dist_inj (ha : a < size) (hb : b < size) (he : e < size)
    (h : dist size a b = dist size a e) : b = e := by
  unfold dist at h
  split at h <;> split at h <;> omega

/-- One slot on, the others are one slot nearer. -/
theorem dist_succ (ha : a < size) (hb : b < size) (hne : b ≠ a) :
    dist size a b = dist size ((a + 1) % size) b + 1 := by
  have hnext : (a + 1) % size = if a + 1 = size then 0 else a + 1 := by
    split
    · rename_i h
      rw [h, Nat.mod_self]
    · exact Nat.mod_eq_of_lt (by omega)
  rw [hnext]
  unfold dist
  split <;> split <;> split <;> omega

/-! ## Probes -/

theorem probe_fuel_eq_some (ha : a < size) :
    probe size stop fuel a = some i ↔
      i < size ∧ dist size a i < fuel ∧ stop i = true ∧
        ∀ e, e < size → dist size a e < dist size a i → stop e = false := by
  induction fuel generalizing a with
  | zero => simp [probe]
  | succ fuel ih =>
    unfold probe
    have ha' : (a + 1) % size < size := Nat.mod_lt _ (Nat.lt_of_le_of_lt (Nat.zero_le a) ha)
    by_cases hstop : stop a = true
    · rw [if_pos hstop]
      constructor
      · rintro ⟨⟩
        exact ⟨ha, by simp, hstop, fun e _ he => by simp at he⟩
      · rintro ⟨-, -, -, hfirst⟩
        by_contra hne
        have hpos := dist_pos ha fun heq => hne (congrArg some heq.symm)
        have hfalse := hfirst a ha (by rwa [dist_self])
        rw [hstop] at hfalse
        cases hfalse
    · rw [if_neg hstop, ih ha']
      constructor
      · rintro ⟨hi, hdist, hsi, hfirst⟩
        have hia : i ≠ a := fun heq => hstop (heq ▸ hsi)
        refine ⟨hi, by rw [dist_succ ha hi hia]; omega, hsi, fun e he hlt => ?_⟩
        by_cases hea : e = a
        · exact hea ▸ Bool.eq_false_iff.mpr hstop
        · rw [dist_succ ha hi hia, dist_succ ha he hea] at hlt
          exact hfirst e he (by omega)
      · rintro ⟨hi, hdist, hsi, hfirst⟩
        have hia : i ≠ a := fun heq => hstop (heq ▸ hsi)
        rw [dist_succ ha hi hia] at hdist
        refine ⟨hi, by omega, hsi, fun e he hlt => ?_⟩
        by_cases hea : e = a
        · exact hea ▸ Bool.eq_false_iff.mpr hstop
        · exact hfirst e he (by rw [dist_succ ha hi hia, dist_succ ha he hea]; omega)

/-- A probe that may be at every slot ends at the nearest one accepted. -/
theorem probe_eq_some (ha : a < size) :
    probe size stop size a = some i ↔
      i < size ∧ stop i = true ∧
        ∀ e, e < size → dist size a e < dist size a i → stop e = false := by
  rw [probe_fuel_eq_some ha]
  exact ⟨fun h => ⟨h.1, h.2.2⟩, fun h => ⟨h.1, dist_lt ha h.1, h.2⟩⟩

/-- Where a slot is accepted the probe ends. -/
theorem exists_probe (ha : a < size) (hi : i < size) (hstop : stop i = true) :
    ∃ b, probe size stop size a = some b := by
  have hex : ∃ d, ∃ b, b < size ∧ stop b = true ∧ dist size a b = d := ⟨_, i, hi, hstop, rfl⟩
  classical
  obtain ⟨b, hb, hsb, hd⟩ := Nat.find_spec hex
  refine ⟨b, (probe_eq_some ha).mpr ⟨hb, hsb, fun e he hlt => ?_⟩⟩
  rw [hd] at hlt
  have hmin := Nat.find_min hex hlt
  exact Bool.eq_false_iff.mpr fun hse => hmin ⟨e, he, hse, rfl⟩

/-! ## The slots on the way -/

/-- The slots from `a` up to `b` have `p`. -/
def Reaches (size : Nat) (p : Nat → Prop) (a b : Nat) : Prop :=
  ∀ e, e < size → dist size a e < dist size a b → p e

theorem Reaches.mono (h : Reaches size p a b) (hpq : ∀ e, e < size → p e → q e) :
    Reaches size q a b :=
  fun e he hlt => hpq e he (h e he hlt)

end Training.Lib.Probing
