/-
Training.Lru.Cache — the cache of the least recently used,
`C/job_interview/14_LRU.c`.

Translation notes.

* The nodes are addresses, `NULL` is 0, and a field of the nodes is a
  function of the address. `malloc` returns an address that is not in
  use; `live` has the nodes that have been allocated and not freed.
* `obj->cache` has 10000 entries, and a key is an index of it.
* `put` also returns the key of the node that it removes, which the code
  keeps to itself.
-/
import Mathlib.Logic.Function.Basic
import Mathlib.Tactic.Common

namespace Training.Lru

/-- An index of `obj->cache`. -/
abbrev Key := Fin 10000

def null : Nat := 0

/-- `LRUCache` and the nodes. -/
structure LRUCache where
  capacity : Int
  size : Int
  head : Nat
  tail : Nat
  cache : Key → Nat
  key : Nat → Key
  value : Nat → Int
  prev : Nat → Nat
  next : Nat → Nat
  live : List Nat

/-- `create_node`, `node` being the result of `malloc`. -/
def createNode (obj : LRUCache) (node : Nat) (key : Key) (value : Int) : LRUCache :=
  { obj with
    key := Function.update obj.key node key
    value := Function.update obj.value node value
    prev := Function.update obj.prev node null
    next := Function.update obj.next node null
    live := node :: obj.live }

/-- `create_lru`, in a memory that has any contents. -/
def createLru (capacity : Int) (head tail : Nat) (key : Nat → Key) (value : Nat → Int)
    (prev next : Nat → Nat) : LRUCache :=
  let obj : LRUCache :=
    { capacity, size := 0, head, tail, cache := fun _ => null, key, value, prev, next, live := [] }
  let obj := createNode (createNode obj head 0 0) tail 0 0
  { obj with
    next := Function.update obj.next head tail
    prev := Function.update obj.prev tail head }

def addToHead (obj : LRUCache) (node : Nat) : LRUCache :=
  let prev := Function.update obj.prev node obj.head
  let next := Function.update obj.next node (obj.next obj.head)
  let prev := Function.update prev (next obj.head) node
  let next := Function.update next obj.head node
  { obj with prev, next }

def removeNode (obj : LRUCache) (node : Nat) : LRUCache :=
  let next := Function.update obj.next (obj.prev node) (obj.next node)
  let prev := Function.update obj.prev (next node) (obj.prev node)
  { obj with prev, next }

def moveToHead (obj : LRUCache) (node : Nat) : LRUCache := addToHead (removeNode obj node) node

def removeTail (obj : LRUCache) : LRUCache × Nat :=
  let node := obj.prev obj.tail
  (removeNode obj node, node)

def get (obj : LRUCache) (key : Key) : LRUCache × Int :=
  if obj.cache key = null then (obj, -1)
  else
    let node := obj.cache key
    let obj := moveToHead obj node
    (obj, obj.value node)

/-- The part of `put` for a key that is not there. -/
def insert (obj : LRUCache) (key : Key) (value : Int) (node : Nat) : LRUCache :=
  let obj := createNode obj node key value
  let obj := { obj with cache := Function.update obj.cache key node }
  let obj := addToHead obj node
  { obj with size := obj.size + 1 }

/-- The part of `put` for a cache that has one node too many. -/
def evict (obj : LRUCache) : LRUCache × Key :=
  let removed := (removeTail obj).2
  let obj := (removeTail obj).1
  ({ obj with
      cache := Function.update obj.cache (obj.key removed) null
      live := obj.live.erase removed
      size := obj.size - 1 }, obj.key removed)

/-- `node` is the result of `malloc`. -/
def put (obj : LRUCache) (key : Key) (value : Int) (node : Nat) : LRUCache × Option Key :=
  if obj.cache key ≠ null then
    let node := obj.cache key
    (moveToHead { obj with value := Function.update obj.value node value } node, none)
  else
    let obj := insert obj key value node
    if obj.size > obj.capacity then ((evict obj).1, some (evict obj).2) else (obj, none)

inductive Event
  | get (key : Key)
  | put (key : Key) (value : Int) (node : Nat)

def step (obj : LRUCache) : Event → LRUCache
  | .get key => (get obj key).1
  | .put key value node => (put obj key value node).1

/-- `malloc` returns a node that is not in use. -/
def Granted (obj : LRUCache) : Event → Prop
  | .get _ => True
  | .put _ _ node => node ≠ null ∧ node ∉ obj.live

end Training.Lru
