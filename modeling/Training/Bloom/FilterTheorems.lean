/-
Training.Bloom.FilterTheorems — what was added is found.

With at most 2^60 bytes the number of the bits does not wrap around, so
the place of a bit is in the array (`exists_bitIndex`). A string has the
same places whenever they are computed (`place`); `bloom_add` sets the bits
there and clears none (`bloomAdd_spec`), and `bloom_contains` finds all of
them set (`bloomContains_eq`).
-/
import Mathlib.Algebra.Ring.Nat
import Training.Bloom.Filter

namespace Training.Bloom

open Training.Lib

variable {bf bf' : BloomFilter} {index size : BitVec 64} {key : List (BitVec 8)}
  {keys : List (List (BitVec 8))} {byte : BitVec 8} {i j k : Nat}

/-! ## Bits -/

theorem toNat_mask_shift (index : BitVec 64) : (index % 8).toNat = index.toNat % 8 := by
  simp [BitVec.toNat_umod]

theorem toNat_byte_place (index : BitVec 64) : (index / 8).toNat = index.toNat / 8 := by
  simp [BitVec.toNat_udiv]

theorem getLsbD_mask (index : BitVec 64) (j : Nat) :
    (mask index).getLsbD j = decide (j = index.toNat % 8) := by
  have hlt := Nat.mod_lt index.toNat (show 0 < 8 by omega)
  rw [mask, toNat_mask_shift, BitVec.getLsbD_shiftLeft, BitVec.getLsbD_one]
  by_cases heq : j = index.toNat % 8
  · simp [heq]
    omega
  · simp [heq]
    omega

theorem getLsbD_or_mask (byte : BitVec 8) (index : BitVec 64) (hj : j < 8) :
    ((byte.setWidth 32 ||| mask index).setWidth 8).getLsbD j =
      (byte.getLsbD j || decide (j = index.toNat % 8)) := by
  have hj' : j < 32 := by omega
  simp only [BitVec.getLsbD_setWidth, BitVec.getLsbD_or, getLsbD_mask, hj, hj', decide_true,
    Bool.true_and]

theorem and_mask_eq_zero (byte : BitVec 8) (index : BitVec 64) :
    byte.setWidth 32 &&& mask index = 0 ↔ byte.getLsbD (index.toNat % 8) = false := by
  have hlt := Nat.mod_lt index.toNat (show 0 < 8 by omega)
  constructor
  · intro hzero
    have hbit := congrArg (fun b => b.getLsbD (index.toNat % 8)) hzero
    have hlt' : index.toNat % 8 < 32 := by omega
    simp only [BitVec.getLsbD_and, BitVec.getLsbD_setWidth, getLsbD_mask, hlt', decide_true,
      Bool.true_and, Bool.and_true] at hbit
    simpa using hbit
  · intro hclear
    refine BitVec.eq_of_getLsbD_eq fun j hj => ?_
    rw [BitVec.getLsbD_and, BitVec.getLsbD_setWidth, getLsbD_mask]
    by_cases heq : j = index.toNat % 8
    · simp [heq, hclear]
    · simp [heq]

/-! ## Places -/

/-- The filter has from 1 to 2^60 bytes. -/
def Sized (bf : BloomFilter) : Prop := 1 ≤ bf.size.toNat ∧ bf.size.toNat ≤ 2 ^ 60

/-- Where the bit `i` of a string is, in a filter of `size` bytes. -/
def place (size : BitVec 64) (key : List (BitVec 8)) (i : Nat) : BitVec 64 :=
  (hashBase key hashSeed1 + BitVec.ofNat 64 i * hashBase key hashSeed2) % (size * 8)

theorem toNat_bits (h : Sized bf) : (bf.size * 8).toNat = bf.size.toNat * 8 := by
  obtain ⟨hpos, hle⟩ := h
  rw [BitVec.toNat_mul]
  exact Nat.mod_eq_of_lt (by simp; omega)

theorem bitIndex_eq (h : Sized bf) (key : List (BitVec 8)) (i : Nat) :
    bitIndex bf (hashBase key hashSeed1) (hashBase key hashSeed2) i =
      some (place bf.size key i) := by
  refine if_neg fun hzero => ?_
  have hbits := toNat_bits h
  rw [hzero] at hbits
  have hpos := h.1
  simp at hbits
  omega

theorem place_lt (h : Sized bf) (key : List (BitVec 8)) (i : Nat) :
    (place bf.size key i).toNat < bf.size.toNat * 8 := by
  have hpos := h.1
  rw [place, BitVec.toNat_umod, toNat_bits h]
  exact Nat.mod_lt _ (by omega)

theorem byte_place_lt (h : Sized bf) (key : List (BitVec 8)) (i : Nat) :
    (place bf.size key i / 8).toNat < bf.bitArray.length := by
  have hlt := place_lt h key i
  rw [toNat_byte_place, bf.length_bitArray]
  omega

/-! ## Sets -/

/-- The bit `index` is set, and no bit is cleared. -/
theorem setBit_spec (h : (index / 8).toNat < bf.bitArray.length) :
    ∃ bf', setBit bf index = some bf' ∧ bf'.size = bf.size ∧ IsSet bf' index.toNat ∧
      ∀ k, IsSet bf k → IsSet bf' k := by
  have hmod : ∀ k, k % 8 < 8 := fun k => Nat.mod_lt k (by omega)
  obtain ⟨byte, hbyte⟩ : ∃ byte, bf.bitArray[(index / 8).toNat]? = some byte :=
    ⟨_, List.getElem?_eq_getElem h⟩
  rw [setBit, hbyte]
  refine ⟨_, rfl, rfl, ?_, ?_⟩
  · refine ⟨_, by rw [← toNat_byte_place, List.getElem?_set_self h], ?_⟩
    rw [getLsbD_or_mask _ _ (hmod _)]
    simp
  · intro k hk
    obtain ⟨old, hold, hbit⟩ := hk
    by_cases hsame : (index / 8).toNat = k / 8
    · refine ⟨_, by rw [← hsame, List.getElem?_set_self h], ?_⟩
      rw [← hsame, hbyte] at hold
      obtain rfl := Option.some.inj hold
      rw [getLsbD_or_mask _ _ (hmod k), hbit]
      rfl
    · exact ⟨old, by rw [List.getElem?_set_ne hsame, hold], hbit⟩

/-- The bits of a string that the loop has come to are set. -/
structure Added (bf : BloomFilter) (key : List (BitVec 8)) (i : Nat) (bf' : BloomFilter) :
    Prop where
  size : bf'.size = bf.size
  kept : ∀ k, IsSet bf k → IsSet bf' k
  set : ∀ j, j < i → IsSet bf' (place bf.size key j).toNat

theorem bloomAdd_spec (h : Sized bf) (key : List (BitVec 8)) :
    ∃ bf', bloomAdd bf key = some bf' ∧ Added bf key numHashes bf' := by
  have hturn : ∀ i s, 0 ≤ i → i < 0 + numHashes → Added bf key i s →
      ∃ s', (bitIndex s (hashBase key hashSeed1) (hashBase key hashSeed2) i).bind (setBit s) =
        some s' ∧ Added bf key (i + 1) s' := by
    intro i s _ _ hs
    have hsized : Sized s := by
      rw [Sized, hs.size]
      exact h
    obtain ⟨s', hset, hsize, hbit, hkept⟩ := setBit_spec (byte_place_lt hsized key i)
    refine ⟨s', by rw [bitIndex_eq hsized, Option.bind_some, hset], hsize.trans hs.size,
      fun k hk => hkept k (hs.kept k hk), fun j hj => ?_⟩
    rcases Nat.lt_succ_iff_lt_or_eq.mp hj with hlt | rfl
    · exact hkept _ (hs.set j hlt)
    · rw [← hs.size]
      exact hbit
  have hstart : Added bf key 0 bf :=
    ⟨rfl, fun _ hk => hk, fun j hj => absurd hj (Nat.not_lt_zero j)⟩
  exact forLoop_spec hturn hstart

/-! ## Queries -/

theorem containsLoop_spec (h : Sized bf) (key : List (BitVec 8)) (i turns : Nat) :
    ∃ r, containsLoop bf (hashBase key hashSeed1) (hashBase key hashSeed2) i turns = some r ∧
      ((∀ j, i ≤ j → j < i + turns → IsSet bf (place bf.size key j).toNat) → r = 1) := by
  induction turns generalizing i with
  | zero => exact ⟨1, rfl, fun _ => rfl⟩
  | succ turns ih =>
    have hlt := byte_place_lt h key i
    rw [containsLoop, bitIndex_eq h]
    simp only [Option.bind_eq_bind, Option.bind_some, List.getElem?_eq_getElem hlt]
    by_cases hclear : (bf.bitArray[(place bf.size key i / 8).toNat]).setWidth 32 &&&
        mask (place bf.size key i) = 0
    · refine ⟨0, if_pos hclear, fun hset => ?_⟩
      obtain ⟨byte, hbyte, hbit⟩ := hset i (Nat.le_refl i) (by omega)
      rw [← toNat_byte_place, List.getElem?_eq_getElem hlt] at hbyte
      obtain rfl := Option.some.inj hbyte
      rw [and_mask_eq_zero, hbit] at hclear
      exact absurd hclear (by decide)
    · obtain ⟨r, hr, hall⟩ := ih (i + 1)
      exact ⟨r, by rw [if_neg hclear, hr],
        fun hset => hall fun j hj hjn => hset j (by omega) (by omega)⟩

theorem exists_bloomContains (h : Sized bf) (key : List (BitVec 8)) :
    ∃ r, bloomContains bf key = some r ∧
      ((∀ j, j < numHashes → IsSet bf (place bf.size key j).toNat) → r = 1) := by
  obtain ⟨r, hr, hall⟩ := containsLoop_spec h key 0 numHashes
  exact ⟨r, hr, fun hset => hall fun j _ hj => hset j (by omega)⟩

/-! ## Histories -/

/-- A filter of `size` bytes with the bits of the strings. -/
structure Filled (size : BitVec 64) (keys : List (List (BitVec 8))) (bf : BloomFilter) : Prop where
  same : bf.size = size
  set : ∀ key ∈ keys, ∀ j, j < numHashes → IsSet bf (place size key j).toNat

theorem foldlM_bloomAdd (h : Sized bf) (before keys : List (List (BitVec 8)))
    (hbf : Filled size before bf) :
    ∃ bf', keys.foldlM bloomAdd bf = some bf' ∧ Filled size (before ++ keys) bf' := by
  induction keys generalizing bf before with
  | nil => exact ⟨bf, rfl, by simpa using hbf⟩
  | cons key keys ih =>
    obtain ⟨bf₁, hadd, hadded⟩ := bloomAdd_spec h key
    have hsized : Sized bf₁ := by
      rw [Sized, hadded.size]
      exact h
    have hfilled : Filled size (before ++ [key]) bf₁ := by
      refine ⟨hadded.size.trans hbf.same, fun other hother j hj => ?_⟩
      rcases List.mem_append.mp hother with hother | hother
      · exact hadded.kept _ (hbf.set other hother j hj)
      · rw [List.mem_singleton.mp hother, ← hbf.same]
        exact hadded.set j hj
    obtain ⟨bf', hrest, hbf'⟩ := ih hsized (before ++ [key]) hfilled
    refine ⟨bf', by simp [List.foldlM_cons, hadd, hrest], ?_⟩
    simpa using hbf'

/-- After any keys have been added, the filter contains each of them; no bit
is cleared again, and no index is outside the array. -/
theorem bloom_no_false_negatives (hpos : 1 ≤ size.toNat) (hle : size.toNat ≤ 2 ^ 60)
    (keys : List (List (BitVec 8))) : ∃ bf, keys.foldlM bloomAdd (bloomCreate size) = some bf ∧
      (∀ key ∈ keys, bloomContains bf key = some 1) ∧
      (∀ key, ∃ bf', bloomAdd bf key = some bf' ∧ ∀ k, IsSet bf k → IsSet bf' k) ∧
      (∀ key, ∃ r, bloomContains bf key = some r) ∧
      ∀ key i, ∃ index,
        bitIndex bf (hashBase key hashSeed1) (hashBase key hashSeed2) i = some index ∧
          (index / 8).toNat < bf.bitArray.length := by
  have hcreate : Filled size [] (bloomCreate size) := ⟨rfl, by simp⟩
  obtain ⟨bf, hrun, hfilled⟩ := foldlM_bloomAdd (show Sized (bloomCreate size) from ⟨hpos, hle⟩)
    [] keys hcreate
  have hsized : Sized bf := by
    rw [Sized, hfilled.same]
    exact ⟨hpos, hle⟩
  refine ⟨bf, hrun, ?_, ?_, ?_, ?_⟩
  · intro key hkey
    obtain ⟨r, hr, hall⟩ := exists_bloomContains hsized key
    rw [hr, hall fun j hj => hfilled.same ▸ hfilled.set key hkey j hj]
  · intro key
    obtain ⟨bf', hadd, hadded⟩ := bloomAdd_spec hsized key
    exact ⟨bf', hadd, hadded.kept⟩
  · intro key
    obtain ⟨r, hr, -⟩ := exists_bloomContains hsized key
    exact ⟨r, hr⟩
  · intro key i
    exact ⟨_, bitIndex_eq hsized key i, byte_place_lt hsized key i⟩

/-- `ab`, and a string with a negative character, in 16 bytes. -/
theorem bloom_no_false_negatives_two :
    ∃ bf, [[97, 98], [200]].foldlM bloomAdd (bloomCreate 16) = some bf ∧
      (∀ key ∈ [[97, 98], [200]], bloomContains bf key = some 1) ∧
      (∀ key, ∃ bf', bloomAdd bf key = some bf' ∧ ∀ k, IsSet bf k → IsSet bf' k) ∧
      (∀ key, ∃ r, bloomContains bf key = some r) ∧
      ∀ key i, ∃ index,
        bitIndex bf (hashBase key hashSeed1) (hashBase key hashSeed2) i = some index ∧
          (index / 8).toNat < bf.bitArray.length :=
  bloom_no_false_negatives (by decide) (by decide) _

end Training.Bloom
