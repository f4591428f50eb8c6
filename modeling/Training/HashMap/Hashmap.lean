/-
Training.HashMap.Hashmap — the hash map of `C/02_hash/02_hashmap/hashmap.c`,
open addressing with Robin Hood hashing.

Translation notes.

* `α` are the items of `elsize` bytes, and `zero` is the item that `memset`
  leaves. The bytes behind `buckets` are a function of the index; `room` is
  how many buckets fit into what was allocated. `spare` and `edata` hold a
  bucket for the time of a call, and are locals here.
* The sizes in bytes and the capacities are `size_t`: they are computed
  modulo `2 ^ 64`.
* The 48 bits of `hash` and the 16 bits of `dib` are natural numbers; `dib`
  is counted modulo `2 ^ 16`.
* `seed0`, `seed1` and `udata` are part of the callbacks.
* A load factor is a percentage: `n * (p / 100.0)`, rounded down, is
  `n * p / 100` for a power of two `n` below `2 ^ 48` and `50 ≤ p ≤ 95`,
  and `n * 0.10` is `n / 10`. The factor NaN is left out.
* `granted` says whether the calls of `malloc` in a function succeed. What
  `elfree` is called with is an answer.
* A loop that goes on for more turns than the map has buckets has no result,
  and so has the doubling of a capacity that has been at 0.
-/
import Mathlib.Algebra.Ring.Nat
import Mathlib.Logic.Function.Basic
import Mathlib.Tactic.Common

namespace Training.HashMap

universe u

/-- `struct bucket`, with the item behind it. -/
structure Bucket (α : Type u) where
  hash : Nat
  dib : Nat
  item : α

/-- What `hashmap_new` is called with. -/
structure Callbacks (α : Type u) where
  hash : α → Nat
  compare : Option (α → α → Int)
  /-- `elfree` is not `NULL`. -/
  elfree : Bool
  elsize : Nat
  zero : α

structure Hashmap (α : Type u) where
  cap : Nat
  nbuckets : Nat
  count : Nat
  mask : Nat
  growat : Nat
  shrinkat : Nat
  loadfactor : Nat
  growpower : Nat
  oom : Bool
  buckets : Nat → Bucket α
  room : Nat

variable {α : Type u}

/-- `entry->dib += 1` -/
def Bucket.further (entry : Bucket α) : Bucket α := { entry with dib := (entry.dib + 1) % 2 ^ 16 }

/-- `prev->dib--` -/
def Bucket.nearer (prev : Bucket α) : Bucket α :=
  { prev with dib := (prev.dib + 2 ^ 16 - 1) % 2 ^ 16 }

def GROW_AT : Nat := 60

def hashmapSetGrowByPower (map : Hashmap α) (power : Nat) : Hashmap α :=
  { map with growpower := if power < 1 then 1 else if power > 16 then 16 else power }

def clampLoadFactor (factor : Nat) : Nat :=
  if factor < 50 then 50 else if factor > 95 then 95 else factor

def hashmapSetLoadFactor (map : Hashmap α) (factor : Nat) : Hashmap α :=
  let loadfactor := clampLoadFactor factor
  { map with loadfactor := loadfactor, growat := map.nbuckets * loadfactor / 100 }

def clipHash (hash : Nat) : Nat := hash &&& 0xFFFFFFFFFFFF

namespace Callbacks

def getHash (cb : Callbacks α) (key : α) : Nat := clipHash (cb.hash key)

/-- `!map->compare || map->compare(a, b, map->udata) == 0` -/
def equal (cb : Callbacks α) (a b : α) : Bool :=
  match cb.compare with
  | none => true
  | some compare => compare a b = 0

/-- `sizeof(struct bucket) + elsize`, and up to a multiple of
`sizeof(uintptr_t)`. -/
def bucketsz (cb : Callbacks α) : Nat :=
  let size := (8 + cb.elsize) % 2 ^ 64
  (size + (8 - size % 8) % 8) % 2 ^ 64

/-- How many buckets fit into `malloc(bucketsz * nbuckets)`. -/
def roomFor (cb : Callbacks α) (nbuckets : Nat) : Nat :=
  cb.bucketsz * nbuckets % 2 ^ 64 / cb.bucketsz

end Callbacks

/-- `while (ncap < cap) ncap *= 2;` -/
def ncapLoop (cap : Nat) : Nat → Nat → Option Nat
  | 0, _ => none
  | fuel + 1, ncap => if ncap < cap then ncapLoop cap fuel (ncap * 2 % 2 ^ 64) else some ncap

/-- The number of buckets of a new map. After 60 doublings `ncap` is 0, and
stays 0. -/
def roundCap (cap : Nat) : Option Nat := if cap < 16 then some 16 else ncapLoop cap 64 16

/-- `memset(buckets, 0, …)` -/
def zeroBuckets (cb : Callbacks α) : Nat → Bucket α := fun _ => ⟨0, 0, cb.zero⟩

/-- Gives `NULL` when a call of `malloc` fails. -/
def hashmapNewWithAllocator (cb : Callbacks α) (cap : Nat) (granted : Bool) :
    Option (Option (Hashmap α)) :=
  (roundCap cap).map fun cap =>
    if granted then
      let loadfactor := clampLoadFactor GROW_AT
      some {
        cap := cap
        nbuckets := cap
        count := 0
        mask := cap - 1
        growat := cap * loadfactor / 100
        shrinkat := cap / 10
        loadfactor := loadfactor
        growpower := 1
        oom := false
        buckets := zeroBuckets cb
        room := cb.roomFor cap }
    else none

/-- The items that `elfree` is called with. -/
def freeElements (cb : Callbacks α) (map : Hashmap α) : List α :=
  if cb.elfree then
    (List.range map.nbuckets).flatMap fun i =>
      if (map.buckets i).dib ≠ 0 then [(map.buckets i).item] else []
  else []

/-- Gives the items that are freed, too. -/
def hashmapClear (cb : Callbacks α) (map : Hashmap α) (updateCap granted : Bool) :
    Hashmap α × List α :=
  let freed := freeElements cb map
  let map := { map with count := 0 }
  let map :=
    if updateCap then { map with cap := map.nbuckets }
    else if map.nbuckets ≠ map.cap then
      -- the old buckets stay when `malloc` fails
      { map with
        nbuckets := map.cap
        room := if granted then cb.roomFor map.cap else map.room }
    else map
  ({ map with
    buckets := fun i => if i < map.nbuckets then zeroBuckets cb i else map.buckets i
    mask := map.nbuckets - 1
    growat := map.nbuckets * map.loadfactor / 100
    shrinkat := map.nbuckets / 10 }, freed)

/-- The loop of `resize0` that puts `entry` into the new map. -/
def moveLoop (mask : Nat) : Nat → (Nat → Bucket α) → Nat → Bucket α → Option (Nat → Bucket α)
  | 0, _, _, _ => none
  | fuel + 1, buckets, j, entry =>
    let bucket := buckets j
    if bucket.dib = 0 then some (Function.update buckets j entry)
    else if bucket.dib < entry.dib then
      moveLoop mask fuel (Function.update buckets j entry) ((j + 1) &&& mask) bucket.further
    else moveLoop mask fuel buckets ((j + 1) &&& mask) entry.further

/-- The buckets of the new map, after those of the old map that are given. -/
def moveAll (nbuckets mask : Nat) : List (Bucket α) → (Nat → Bucket α) → Option (Nat → Bucket α)
  | [], buckets => some buckets
  | entry :: entries, buckets =>
    if entry.dib = 0 then moveAll nbuckets mask entries buckets
    else
      let entry := { entry with dib := 1 }
      (moveLoop mask nbuckets buckets (entry.hash &&& mask) entry).bind
        (moveAll nbuckets mask entries)

/-- Gives the map, and whether it has the new size. -/
def resize (cb : Callbacks α) (map : Hashmap α) (newCap : Nat) (granted : Bool) :
    Option (Hashmap α × Bool) :=
  (hashmapNewWithAllocator cb newCap granted).bind fun
    | none => some (map, false)
    | some map2 =>
      (moveAll map2.nbuckets map2.mask ((List.range map.nbuckets).map map.buckets)
          map2.buckets).map fun buckets =>
        ({ map with
          buckets := buckets
          nbuckets := map2.nbuckets
          mask := map2.mask
          growat := map2.growat
          shrinkat := map2.shrinkat
          room := map2.room }, true)

/-- The loop of `hashmap_set_with_hash`; gives the item that is replaced. -/
def setLoop (cb : Callbacks α) (mask : Nat) :
    Nat → (Nat → Bucket α) → Nat → Bucket α → Option ((Nat → Bucket α) × Option α)
  | 0, _, _, _ => none
  | fuel + 1, buckets, i, entry =>
    let bucket := buckets i
    if bucket.dib = 0 then some (Function.update buckets i entry, none)
    else if entry.hash = bucket.hash && cb.equal entry.item bucket.item then
      some (Function.update buckets i { bucket with item := entry.item }, some bucket.item)
    else if bucket.dib < entry.dib then
      setLoop cb mask fuel (Function.update buckets i entry) ((i + 1) &&& mask) bucket.further
    else setLoop cb mask fuel buckets ((i + 1) &&& mask) entry.further

def hashmapSetWithHash (cb : Callbacks α) (map : Hashmap α) (item : α) (hash : Nat)
    (granted : Bool) : Option (Hashmap α × Option α) :=
  let hash := clipHash hash
  let map := { map with oom := false }
  let resized : Option (Hashmap α × Bool) :=
    if map.count ≥ map.growat then
      resize cb map (map.nbuckets * 2 ^ map.growpower % 2 ^ 64) granted
    else some (map, true)
  resized.bind fun (map, ok) =>
    if ok then
      let entry : Bucket α := ⟨hash, 1, item⟩
      (setLoop cb map.mask map.nbuckets map.buckets (entry.hash &&& map.mask) entry).map
        fun (buckets, old) =>
          ({ map with
            buckets := buckets
            count := if old.isNone then map.count + 1 else map.count }, old)
    else some ({ map with oom := true }, none)

def hashmapSet (cb : Callbacks α) (map : Hashmap α) (item : α) (granted : Bool) :
    Option (Hashmap α × Option α) :=
  hashmapSetWithHash cb map item (cb.getHash item) granted

/-- The loops of `hashmap_get_with_hash` and `hashmap_delete_with_hash`: the
index of the bucket with the key. -/
def findLoop (cb : Callbacks α) (map : Hashmap α) (key : α) (hash : Nat) :
    Nat → Nat → Option (Option Nat)
  | 0, _ => none
  | fuel + 1, i =>
    let bucket := map.buckets i
    if bucket.dib = 0 then some none
    else if bucket.hash = hash && cb.equal key bucket.item then some (some i)
    else findLoop cb map key hash fuel ((i + 1) &&& map.mask)

def hashmapGetWithHash (cb : Callbacks α) (map : Hashmap α) (key : α) (hash : Nat) :
    Option (Option α) :=
  let hash := clipHash hash
  (findLoop cb map key hash map.nbuckets (hash &&& map.mask)).map fun i =>
    i.map fun i => (map.buckets i).item

def hashmapGet (cb : Callbacks α) (map : Hashmap α) (key : α) : Option (Option α) :=
  hashmapGetWithHash cb map key (cb.getHash key)

def hashmapProbe (map : Hashmap α) (position : Nat) : Option α :=
  let bucket := map.buckets (position &&& map.mask)
  if bucket.dib = 0 then none else some bucket.item

/-- The loop of `hashmap_delete_with_hash` that moves the buckets up; `i` is
the index of `prev`. -/
def closeLoop (mask : Nat) : Nat → (Nat → Bucket α) → Nat → Option (Nat → Bucket α)
  | 0, _, _ => none
  | fuel + 1, buckets, i =>
    let prev := buckets i
    let j := (i + 1) &&& mask
    let bucket := buckets j
    if bucket.dib ≤ 1 then some (Function.update buckets i { prev with dib := 0 })
    else closeLoop mask fuel (Function.update buckets i bucket.nearer) j

def hashmapDeleteWithHash (cb : Callbacks α) (map : Hashmap α) (key : α) (hash : Nat)
    (granted : Bool) : Option (Hashmap α × Option α) :=
  let hash := clipHash hash
  let map := { map with oom := false }
  (findLoop cb map key hash map.nbuckets (hash &&& map.mask)).bind fun
    | none => some (map, none)
    | some i =>
      let bucket := map.buckets i
      let buckets := Function.update map.buckets i { bucket with dib := 0 }
      (closeLoop map.mask map.nbuckets buckets i).bind fun buckets =>
        let map := { map with buckets := buckets, count := map.count - 1 }
        if map.nbuckets > map.cap ∧ map.count ≤ map.shrinkat then
          (resize cb map (map.nbuckets / 2) granted).map fun (map, _) => (map, some bucket.item)
        else some (map, some bucket.item)

def hashmapDelete (cb : Callbacks α) (map : Hashmap α) (key : α) (granted : Bool) :
    Option (Hashmap α × Option α) :=
  hashmapDeleteWithHash cb map key (cb.getHash key) granted

/-- The items that `elfree` is called with. -/
def hashmapFree (cb : Callbacks α) : Option (Hashmap α) → List α
  | none => []
  | some map => freeElements cb map

/-- `hashmap_scan`: whether `iter` returned true for all items. -/
def hashmapScan (map : Hashmap α) (iter : α → Bool) : Bool :=
  (List.range map.nbuckets).all fun i => (map.buckets i).dib = 0 || iter (map.buckets i).item

/-- `hashmap_iter`: the item, and the index to go on from; `fuel` is what is
left of the buckets. -/
def hashmapIter (map : Hashmap α) : Nat → Nat → Option (α × Nat)
  | 0, _ => none
  | fuel + 1, i =>
    if i ≥ map.nbuckets then none
    else if (map.buckets i).dib ≠ 0 then some ((map.buckets i).item, i + 1)
    else hashmapIter map fuel (i + 1)

end Training.HashMap
