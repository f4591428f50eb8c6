/-
Training.Lib.Words — little-endian words in a string of bytes.

`wordAt k bytes off` is the number that the `k` bytes at `off` spell,
least significant first; past the end of the string it reads zeros. The
lemmas are the ones a wire format needs: a word written into a string is
read back at its offset (`wordAt_append`), and reading one is not
disturbed by what comes after it (`wordAt_take`) or by a store elsewhere
(`wordAt_set`).
-/
import Mathlib.Algebra.Group.Nat.Even
import Mathlib.Tactic.Common

namespace Training.Lib

def ofBytesLE : List UInt8 → Nat
  | [] => 0
  | b :: bs => b.toNat + 256 * ofBytesLE bs

def toBytesLE : Nat → Nat → List UInt8
  | 0, _ => []
  | k + 1, n => UInt8.ofNat n :: toBytesLE k (n / 256)

def wordAt (k : Nat) (bytes : List UInt8) (off : Nat) : Nat :=
  ofBytesLE ((bytes.drop off).take k)

@[simp] theorem length_toBytesLE (k n : Nat) : (toBytesLE k n).length = k := by
  induction k generalizing n with
  | zero => rfl
  | succ k ih => simp [toBytesLE, ih]

theorem ofBytesLE_toBytesLE {k n : Nat} (h : n < 256 ^ k) :
    ofBytesLE (toBytesLE k n) = n := by
  induction k generalizing n with
  | zero => simp [toBytesLE, ofBytesLE]; omega
  | succ k ih =>
    have hdiv : n / 256 < 256 ^ k := by
      rw [Nat.div_lt_iff_lt_mul (by decide)]
      rwa [Nat.pow_succ] at h
    have hmod : (UInt8.ofNat n).toNat = n % 256 := by simp
    rw [toBytesLE, ofBytesLE, ih hdiv, hmod]
    omega

theorem toBytesLE_ofBytesLE (bytes : List UInt8) :
    toBytesLE bytes.length (ofBytesLE bytes) = bytes := by
  induction bytes with
  | nil => rfl
  | cons b bs ih =>
    have hdiv : (b.toNat + 256 * ofBytesLE bs) / 256 = ofBytesLE bs := by
      have := b.toNat_lt
      omega
    have hmod : UInt8.ofNat (b.toNat + 256 * ofBytesLE bs) = b := by
      apply UInt8.toNat_inj.mp
      have := b.toNat_lt
      simp
    rw [List.length_cons, ofBytesLE, toBytesLE, hdiv, hmod, ih]

theorem ofBytesLE_lt (bytes : List UInt8) : ofBytesLE bytes < 256 ^ bytes.length := by
  induction bytes with
  | nil => simp [ofBytesLE]
  | cons b bs ih =>
    have hb : b.toNat < 256 := b.toNat_lt
    simp only [ofBytesLE, List.length_cons, Nat.pow_succ]
    omega

/-- A word of `k` bytes is read back at the length of what precedes it. -/
theorem wordAt_append (pre rest : List UInt8) {k n : Nat} (h : n < 256 ^ k) :
    wordAt k (pre ++ (toBytesLE k n ++ rest)) pre.length = n := by
  have htake : (toBytesLE k n ++ rest).take k = toBytesLE k n :=
    List.take_left' (length_toBytesLE k n)
  rw [wordAt, List.drop_left, htake, ofBytesLE_toBytesLE h]

theorem length_flatMap_toBytesLE (k : Nat) (words : List Nat) :
    (words.flatMap (toBytesLE k)).length = k * words.length := by
  induction words with
  | nil => rfl
  | cons w ws ih => simp [ih, Nat.mul_succ, Nat.add_comm]

/-- The words of a header are read back at their places. -/
theorem wordAt_flatMap {k i : Nat} {w : List Nat} (hi : i < w.length)
    (h : w[i] < 256 ^ k) (rest : List UInt8) :
    wordAt k (w.flatMap (toBytesLE k) ++ rest) (k * i) = w[i] := by
  have hlen : ((w.take i).flatMap (toBytesLE k)).length = k * i := by
    rw [length_flatMap_toBytesLE, List.length_take, Nat.min_eq_left (Nat.le_of_lt hi)]
  have hsplit : w.flatMap (toBytesLE k) = (w.take i).flatMap (toBytesLE k) ++
      (toBytesLE k w[i] ++ (w.drop (i + 1)).flatMap (toBytesLE k)) := by
    rw [← List.flatMap_cons, ← List.flatMap_append, ← List.drop_eq_getElem_cons hi,
      List.take_append_drop]
  rw [hsplit, List.append_assoc, List.append_assoc, ← hlen]
  exact wordAt_append _ _ h

theorem wordAt_take {k off m : Nat} (bytes : List UInt8) (h : off + k ≤ m) :
    wordAt k (bytes.take m) off = wordAt k bytes off := by
  rw [wordAt, wordAt, List.drop_take, List.take_take, Nat.min_eq_left (by omega)]

theorem wordAt_set {k off i : Nat} (bytes : List UInt8) (v : UInt8)
    (h : i < off ∨ off + k ≤ i) :
    wordAt k (bytes.set i v) off = wordAt k bytes off := by
  rw [wordAt, wordAt]
  congr 1
  apply List.ext_getElem
  · simp
  · intro j hj hj'
    have hne : i ≠ off + j := by
      simp only [List.length_take, List.length_drop] at hj'
      omega
    simp [List.getElem_set_ne hne]

end Training.Lib
