/-
Training.Bloom.Filter — a Bloom filter,
`C/99_demo/11_bloom_filter/test_main.c`.

Translation notes.

* A string is the list of its characters up to the terminator. `char` is
  signed, `size_t` has 64 bits, and `|=` and `&` are done in `int`.
* A remainder modulo 0 and an access outside the bit array give `none`.
* `malloc` and `calloc` find memory. `bloom_free` and `main` are left out.
-/
import Mathlib.Data.List.Basic
import Mathlib.Tactic.Common
import Training.Lib.Loops

namespace Training.Bloom

open Training.Lib

def hashSeed1 : BitVec 64 := 131

def hashSeed2 : BitVec 64 := 137

def numHashes : Nat := 7

/-- There are `size` bytes. -/
structure BloomFilter where
  bitArray : List (BitVec 8)
  size : BitVec 64
  length_bitArray : bitArray.length = size.toNat

def hashBase (str : List (BitVec 8)) (seed : BitVec 64) : BitVec 64 :=
  str.foldl (fun hash c => hash * seed + c.signExtend 64) 0

def bloomCreate (size : BitVec 64) : BloomFilter where
  bitArray := List.replicate size.toNat 0
  size := size
  length_bitArray := List.length_replicate

/-- `(h1 + i * h2) % (bf->size * 8)` -/
def bitIndex (bf : BloomFilter) (h1 h2 : BitVec 64) (i : Nat) : Option (BitVec 64) :=
  if bf.size * 8 = 0 then none else some ((h1 + BitVec.ofNat 64 i * h2) % (bf.size * 8))

/-- `1 << (index % 8)` -/
def mask (index : BitVec 64) : BitVec 32 := 1#32 <<< (index % 8).toNat

/-- `bf->bit_array[index / 8] |= (1 << (index % 8))` -/
def setBit (bf : BloomFilter) (index : BitVec 64) : Option BloomFilter :=
  bf.bitArray[(index / 8).toNat]?.map fun byte =>
    { bf with
      bitArray := bf.bitArray.set (index / 8).toNat
        ((byte.setWidth 32 ||| mask index).setWidth 8)
      length_bitArray := by rw [List.length_set, bf.length_bitArray] }

def bloomAdd (bf : BloomFilter) (key : List (BitVec 8)) : Option BloomFilter :=
  let h1 := hashBase key hashSeed1
  let h2 := hashBase key hashSeed2
  forLoop (fun i bf => (bitIndex bf h1 h2 i).bind (setBit bf)) 0 numHashes bf

/-- The loop from `i` on, with `turns` turns left. -/
def containsLoop (bf : BloomFilter) (h1 h2 : BitVec 64) (i : Nat) : Nat → Option Int
  | 0 => some 1
  | turns + 1 => do
    let index ← bitIndex bf h1 h2 i
    let byte ← bf.bitArray[(index / 8).toNat]?
    if byte.setWidth 32 &&& mask index = 0 then return 0
    else containsLoop bf h1 h2 (i + 1) turns

def bloomContains (bf : BloomFilter) (key : List (BitVec 8)) : Option Int :=
  let h1 := hashBase key hashSeed1
  let h2 := hashBase key hashSeed2
  containsLoop bf h1 h2 0 numHashes

/-! ## What it is for -/

/-- The bit `k` of the array. -/
def IsSet (bf : BloomFilter) (k : Nat) : Prop :=
  ∃ byte, bf.bitArray[k / 8]? = some byte ∧ byte.getLsbD (k % 8) = true

end Training.Bloom
