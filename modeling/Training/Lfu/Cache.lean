/-
Training.Lfu.Cache — the cache of the least frequently used,
`C/job_interview/17_LFU.c`.

Translation notes.

* The nodes are addresses, and a field of the nodes is a function of the
  address. `live` has the nodes that have been allocated and not freed.
  A `FreqList` is only in its entry of `freq_map`, so the entry holds it.
* An operation that does not end, reads through `NULL` or increments
  `INT_MAX` is a `Fault`. The probes stop when they have been at every
  slot: from then on nothing changes.
* `put` also returns the key of the node that it removes, which the code
  keeps to itself.
-/
import Mathlib.Logic.Function.Basic
import Training.Lib.Malloc
import Training.Lib.Probing

namespace Training.Lfu

open Training.Lib Training.Lib.Probing

/-- `HASH_SIZE` -/
def hashSize : Nat := 20001

def intMax : Int := 2147483647

inductive Fault
  | loops
  | nullPointer
  | overflow
deriving DecidableEq, Repr

/-- The sentinels of a bucket. -/
structure FreqList where
  head : Nat
  tail : Nat

/-- `LFUCache` and the nodes. -/
structure LFUCache where
  capacity : Int
  size : Int
  minFreq : Int
  keyMap : Nat → Nat
  freqMap : Nat → Option FreqList
  key : Nat → Int
  val : Nat → Int
  freq : Nat → Int
  prev : Nat → Nat
  next : Nat → Nat
  live : List Nat

def getHashIndex (key : Int) : Nat := ((key.tmod hashSize + hashSize).tmod hashSize).toNat

def createNode (obj : LFUCache) (node : Nat) (key val freq : Int) : LFUCache :=
  { obj with
    key := Function.update obj.key node key
    val := Function.update obj.val node val
    freq := Function.update obj.freq node freq
    prev := Function.update obj.prev node null
    next := Function.update obj.next node null
    live := node :: obj.live }

def createFreqList (obj : LFUCache) (malloc : Malloc) : LFUCache × FreqList :=
  let head := malloc.alloc obj.live
  let obj := createNode obj head 0 0 0
  let tail := malloc.alloc obj.live
  let obj := createNode obj tail 0 0 0
  ({ obj with
      next := Function.update obj.next head tail
      prev := Function.update obj.prev tail head }, ⟨head, tail⟩)

/-- The two stores of `removeNode`. -/
def unlink (obj : LFUCache) (node : Nat) : LFUCache :=
  let next := Function.update obj.next (obj.prev node) (obj.next node)
  { obj with next, prev := Function.update obj.prev (next node) (obj.prev node) }

def removeNode (obj : LFUCache) (node : Nat) : Except Fault LFUCache :=
  if obj.prev node = null ∨ (unlink obj node).next node = null then .error .nullPointer
  else .ok (unlink obj node)

def addNodeToHead (obj : LFUCache) (list : FreqList) (node : Nat) : LFUCache :=
  let next := Function.update obj.next node (obj.next list.head)
  let prev := Function.update obj.prev node list.head
  let prev := Function.update prev (next list.head) node
  let next := Function.update next list.head node
  { obj with next, prev }

/-- `lFUCacheCreate`, in a memory that has any contents. -/
def lFUCacheCreate (capacity : Int) (key val freq : Nat → Int) (prev next : Nat → Nat) : LFUCache :=
  { capacity, size := 0, minFreq := 0, keyMap := fun _ => null, freqMap := fun _ => none,
    key, val, freq, prev, next, live := [] }

/-- The bucket at `idx` of `freq_map`, which is created where there is none. -/
def bucketAt (obj : LFUCache) (idx : Nat) (malloc : Malloc) : LFUCache × FreqList :=
  match obj.freqMap idx with
  | some list => (obj, list)
  | none =>
      let r := createFreqList obj malloc
      ({ r.1 with freqMap := Function.update r.1.freqMap idx (some r.2) }, r.2)

/-- The part of `increaseFreq` for the old bucket, which the node has left. -/
def leaveBucket (obj : LFUCache) (oldList : FreqList) (oldFreq newFreq : Int) : LFUCache :=
  if obj.next oldList.head = oldList.tail then
    { obj with
      minFreq := if obj.minFreq = oldFreq then newFreq else obj.minFreq
      live := (obj.live.erase oldList.head).erase oldList.tail
      freqMap := Function.update obj.freqMap (getHashIndex oldFreq) none }
  else obj

/-- The node is put into the bucket at `idx`. -/
def enterBucket (obj : LFUCache) (idx node : Nat) (malloc : Malloc) : LFUCache :=
  let r := bucketAt obj idx malloc
  addNodeToHead r.1 r.2 node

/-- The part of `increaseFreq` for the new bucket. -/
def joinBucket (obj : LFUCache) (node : Nat) (newFreq : Int) (malloc : Malloc) : LFUCache :=
  let obj := enterBucket obj (getHashIndex newFreq) node malloc
  { obj with freq := Function.update obj.freq node newFreq }

def increaseFreq (obj : LFUCache) (node : Nat) (malloc : Malloc) : Except Fault LFUCache :=
  if obj.freq node = intMax then .error .overflow
  else
    let oldFreq := obj.freq node
    let newFreq := oldFreq + 1
    match removeNode obj node, obj.freqMap (getHashIndex oldFreq) with
    | .error e, _ => .error e
    | .ok _, none => .error .nullPointer
    | .ok obj, some oldList =>
        .ok (joinBucket (leaveBucket obj oldList oldFreq newFreq) node newFreq malloc)

/-- The slot where a probe for `key` ends: an empty one, or the one of the
node with the key. -/
def findSlot (obj : LFUCache) (key : Int) : Option Nat :=
  probe hashSize (fun idx => obj.keyMap idx = null ∨ obj.key (obj.keyMap idx) = key) hashSize
    (getHashIndex key)

def lFUCacheGet (obj : LFUCache) (key : Int) (malloc : Malloc) : Except Fault (LFUCache × Int) :=
  if obj.capacity = 0 then .ok (obj, -1)
  else
    match findSlot obj key with
    | none => .error .loops
    | some idx =>
        if obj.keyMap idx = null then .ok (obj, -1)
        else
          let node := obj.keyMap idx
          match increaseFreq obj node malloc with
          | .error e => .error e
          | .ok obj => .ok (obj, obj.val node)

/-- The part of `lFUCachePut` for a full cache, and the key it removes. -/
def evict (obj : LFUCache) : Except Fault (LFUCache × Int) :=
  match obj.freqMap (getHashIndex obj.minFreq) with
  | none => .error .nullPointer
  | some minList =>
      let evictNode := obj.prev minList.tail
      match removeNode obj evictNode with
      | .error e => .error e
      | .ok obj =>
          match findSlot obj (obj.key evictNode) with
          | none => .error .loops
          | some evictIdx =>
              if obj.keyMap evictIdx = null then .error .nullPointer
              else
                .ok ({ obj with
                  keyMap := Function.update obj.keyMap evictIdx null
                  live := obj.live.erase evictNode
                  size := obj.size - 1 }, obj.key evictNode)

/-- The end of `lFUCachePut`, for a key that is not there. -/
def insert (obj : LFUCache) (key value : Int) (malloc : Malloc) : Except Fault LFUCache :=
  let newNode := malloc.alloc obj.live
  let obj := createNode obj newNode key value 1
  match probe hashSize (fun idx => obj.keyMap idx = null) hashSize (getHashIndex key) with
  | none => .error .loops
  | some insertIdx =>
      let obj := { obj with keyMap := Function.update obj.keyMap insertIdx newNode }
      let obj := enterBucket obj (getHashIndex 1) newNode malloc
      .ok { obj with minFreq := 1, size := obj.size + 1 }

def lFUCachePut (obj : LFUCache) (key value : Int) (malloc : Malloc) :
    Except Fault (LFUCache × Option Int) :=
  if obj.capacity = 0 then .ok (obj, none)
  else
    match findSlot obj key with
    | none => .error .loops
    | some idx =>
        if obj.keyMap idx ≠ null then
          let existNode := obj.keyMap idx
          let obj := { obj with val := Function.update obj.val existNode value }
          (increaseFreq obj existNode malloc).map fun obj => (obj, none)
        else if obj.size ≥ obj.capacity then
          match evict obj with
          | .error e => .error e
          | .ok (obj, victim) => (insert obj key value malloc).map fun obj => (obj, some victim)
        else (insert obj key value malloc).map fun obj => (obj, none)

inductive Event
  | get (key : Int) (malloc : Malloc)
  | put (key value : Int) (malloc : Malloc)

/-- After a fault there is no cache. -/
abbrev State := Except Fault LFUCache

def step (s : State) : Event → State
  | .get key malloc => s.bind fun obj => (lFUCacheGet obj key malloc).map Prod.fst
  | .put key value malloc => s.bind fun obj => (lFUCachePut obj key value malloc).map Prod.fst

end Training.Lfu
