/-
Training.HashMap.Calls — the calls of a hash map, and what a dictionary says
to them.

* `Car`, `iterCar` and `iterDeleteCarAll` are those of
  `C/02_hash/02_hashmap/test_main.c`.
* `step` makes a call of the map.
* `Does` is what the call may do to a dictionary: a list of elements, no two
  the same. What `malloc` refuses is a choice, and so is the order in which
  all items are visited.

Translation notes.

* A pointer to a name is its address. `hashmap_xxhash3` is left out: `hash`
  is any function of a car.
* What is printed is left out. The `free` of the name of a car that is
  deleted is the item in the answer.
* `granted fuel` says whether the calls of `malloc` in that round succeed.
-/
import Training.HashMap.Hashmap
import Training.HashMap.MapTheorems

namespace Training.HashMap

universe u

variable {α : Type u}

structure Car where
  id : Int
  name : Nat
  band : Int
  price : Int
  duration : Int
  deriving DecidableEq

def carCompare (a b : Car) : Int := a.id - b.id

/-- `sizeof(car_t)`, with the pointer at a multiple of 8 -/
def carSize : Nat := 32

/-- What `main` calls `hashmap_new` with. -/
def carCallbacks (hash : Car → Nat) : Callbacks Car :=
  ⟨hash, some carCompare, true, carSize, ⟨0, 0, 0, 0, 0⟩⟩

/-- The cars that are printed. -/
def iterCar (map : Hashmap α) : Nat → Nat → Option (List α)
  | 0, _ => none
  | fuel + 1, index =>
    match hashmapIter map map.nbuckets index with
    | none => some []
    | some (car, index) => (iterCar map fuel index).map (car :: ·)

/-- Gives the map, and the cars that were deleted. -/
def iterDeleteCarAll (cb : Callbacks α) (granted : Nat → Bool) :
    Nat → Hashmap α → Option (Hashmap α × List α)
  | 0, _ => none
  | fuel + 1, map =>
    -- the index is 0 in each round
    match hashmapIter map map.nbuckets 0 with
    | none => some (map, [])
    | some (car, _) =>
      (hashmapDelete cb map car (granted fuel)).bind fun (map, deleted) =>
        (iterDeleteCarAll cb granted fuel map).map fun (map, rest) => (map, deleted.toList ++ rest)

/-! ## Calls -/

inductive Call (α : Type u)
  | set (item : α) (granted : Bool)
  | setWithHash (item : α) (hash : Nat) (granted : Bool)
  | get (key : α)
  | getWithHash (key : α) (hash : Nat)
  | probe (position : Nat)
  | delete (key : α) (granted : Bool)
  | deleteWithHash (key : α) (hash : Nat) (granted : Bool)
  | count
  | oom
  | scan (iter : α → Bool)
  /-- A loop of `hashmap_iter` over the whole map. -/
  | iterate
  | clear (updateCap granted : Bool)
  | setLoadFactor (factor : Nat)
  | setGrowByPower (power : Nat)

inductive Answer (α : Type u)
  /-- What `hashmap_set` gives, and then `hashmap_oom`. -/
  | replaced (old : Option α) (oom : Bool)
  | item (found : Option α)
  | number (count : Nat)
  | flag (value : Bool)
  /-- The items that were visited, or that `elfree` was called with. -/
  | items (all : List α)
  | done

def step (cb : Callbacks α) (map : Hashmap α) : Call α → Option (Hashmap α × Answer α)
  | .set item granted =>
    (hashmapSet cb map item granted).map fun (map, old) => (map, .replaced old map.oom)
  | .setWithHash item hash granted =>
    (hashmapSetWithHash cb map item hash granted).map fun (map, old) => (map, .replaced old map.oom)
  | .get key => (hashmapGet cb map key).map fun found => (map, .item found)
  | .getWithHash key hash =>
    (hashmapGetWithHash cb map key hash).map fun found => (map, .item found)
  | .probe position => some (map, .item (hashmapProbe map position))
  | .delete key granted =>
    (hashmapDelete cb map key granted).map fun (map, found) => (map, .item found)
  | .deleteWithHash key hash granted =>
    (hashmapDeleteWithHash cb map key hash granted).map fun (map, found) => (map, .item found)
  | .count => some (map, .number map.count)
  | .oom => some (map, .flag map.oom)
  | .scan iter => some (map, .flag (hashmapScan map iter))
  | .iterate => (iterCar map (map.nbuckets + 1) 0).map fun all => (map, .items all)
  | .clear updateCap granted =>
    let (map, freed) := hashmapClear cb map updateCap granted
    some (map, .items freed)
  | .setLoadFactor factor => some (hashmapSetLoadFactor map factor, .done)
  | .setGrowByPower power => some (hashmapSetGrowByPower map power, .done)

/-! ## The dictionary -/

structure Dict (α : Type u) where
  /-- The items, each with the hash it was set with. -/
  elements : List (Nat × α)
  oom : Bool

def Dict.items (d : Dict α) : List α := d.elements.map Prod.snd

/-- The element takes the place of one that is the same, unless there is no
memory for it. -/
def Sets (cb : Callbacks α) (d : Dict α) (x : Nat × α) (granted : Bool) (b : Answer α)
    (d' : Dict α) : Prop :=
  b = .replaced (held cb x d.elements) false ∧ d' = ⟨x :: remove cb x d.elements, false⟩ ∨
    granted = false ∧ b = .replaced none true ∧ d' = ⟨d.elements, true⟩

def Does (cb : Callbacks α) (d : Dict α) (a : Call α) (b : Answer α) (d' : Dict α) : Prop :=
  match a with
  | .set item granted => Sets cb d (cb.getHash item, item) granted b d'
  | .setWithHash item hash granted => Sets cb d (clipHash hash, item) granted b d'
  | .get key => b = .item (held cb (cb.getHash key, key) d.elements) ∧ d' = d
  | .getWithHash key hash => b = .item (held cb (clipHash hash, key) d.elements) ∧ d' = d
  | .probe _ => (∃ found, b = .item found ∧ ∀ item, found = some item → item ∈ d.items) ∧ d' = d
  | .delete key _ =>
    b = .item (held cb (cb.getHash key, key) d.elements) ∧
      d' = ⟨remove cb (cb.getHash key, key) d.elements, false⟩
  | .deleteWithHash key hash _ =>
    b = .item (held cb (clipHash hash, key) d.elements) ∧
      d' = ⟨remove cb (clipHash hash, key) d.elements, false⟩
  | .count => b = .number d.elements.length ∧ d' = d
  | .oom => b = .flag d.oom ∧ d' = d
  | .scan iter => b = .flag (d.items.all iter) ∧ d' = d
  | .iterate => (∃ all, b = .items all ∧ all.Perm d.items) ∧ d' = d
  | .clear _ _ =>
    (∃ freed, b = .items freed ∧ freed.Perm (if cb.elfree then d.items else [])) ∧
      d' = ⟨[], d.oom⟩
  | .setLoadFactor _ => b = .done ∧ d' = d
  | .setGrowByPower _ => b = .done ∧ d' = d

end Training.HashMap
