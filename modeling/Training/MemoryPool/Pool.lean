/-
Training.MemoryPool.Pool — the general-purpose memory pool,
`C/06_mempool/01_mempool/memorypool.c`.

Translation notes.

* The heap is bytes at addresses. The header and the footer of a chunk
  are little-endian words in it: `_MP_Chunk` has `alloc_mem` at 0, `prev`
  at 8, `next` at 16 and the `int` `is_free` at 24.
* `_MP_Memory` and `MemoryPool` are records and `mlist` is a list, the
  newest memory first. Nothing here reads them through the heap, so a
  store in front of a memory's `start` leaves its record alone. The code
  has one: a request whose size wraps around to 0 can be given the chunk at
  `start`, and its footer is written over `next`, the last field of the
  record. Past such a request the code follows `next` into the chunk and
  the model its list, and a run says nothing about the code any more.
* `mem_size_t` and `uintptr_t` have 64 bits and wrap around. Addresses are
  not reduced.
* The results of `malloc` are arguments: a call of `MemoryPoolAlloc` has a
  list of them, and past its end `malloc` returns `NULL`, which is 0.
  `MemoryPoolInit` makes no pool when the header of its first chunk is not
  in what `malloc` gave, which is undefined.
* A loop over a list in the heap takes as many turns as the pool's
  memories have bytes. `none` is a call that does not come back: it needs
  more turns, or follows `NULL`.
* `mergeFreeChunk` and `memoryPoolFree` also return the headers of which
  the merging reads `is_free`, `passes` counts how often the label
  `FIND_FREE_CHUNK` is passed, and `live` has the blocks handed out and not
  freed. The code has none of them.
-/
import Mathlib.Tactic.Common
import Training.Lib.Machine
import Training.Lib.Memory

namespace Training.MemoryPool

open Training.Lib.Memory

/-- The values of `mem_size_t`, which is `unsigned long long`. -/
def memSizeT : Nat := 18446744073709551616

/-- `sizeof(struct _mp_chunk)` -/
def chunkHeader : Nat := 32

/-- `sizeof(struct _mp_chunk*)` -/
def chunkEnd : Nat := 8

/-- `sizeof(_MP_Memory)` -/
def memoryHeader : Nat := 64

def add (a b : Nat) : Nat := (a + b) % memSizeT

def sub (a b : Nat) : Nat := (memSizeT + a - b) % memSizeT

def mpAlignSize (n : Nat) : Nat := add n 7 / 8 * 8

/-! ## The heap -/

abbrev Heap := Nat → UInt8

/-- The fields of `_MP_Chunk`. -/
inductive Field where
  | allocMem
  | prev
  | next
  | isFree
deriving DecidableEq, Repr

def Field.offset : Field → Nat
  | .allocMem => 0
  | .prev => 8
  | .next => 16
  | .isFree => 24

def Field.width : Field → Nat
  | .isFree => 4
  | _ => 8

/-- `c->f` -/
def Heap.get (h : Heap) (f : Field) (c : Nat) : Nat := load f.width h (c + f.offset)

/-- `c->f = v` -/
def Heap.set (h : Heap) (f : Field) (c v : Nat) : Heap := store f.width h (c + f.offset) v

/-- The footer of the chunk that ends at `e`. -/
def Heap.footer (h : Heap) (e : Nat) : Nat := load chunkEnd h (e - chunkEnd)

def Heap.setFooter (h : Heap) (e v : Nat) : Heap := store chunkEnd h (e - chunkEnd) v

/-! ## The records -/

structure Memory where
  start : Nat
  id : Nat
  mempoolSize : Nat
  allocMem : Nat
  allocProgMem : Nat
  freeList : Nat
  allocList : Nat

structure Pool where
  lastId : Nat
  autoExtend : Bool
  mempoolSize : Nat
  maxMempoolSize : Nat
  allocMempoolSize : Nat
  mlist : List Memory

/-- `MP_INIT_MEMORY_STRUCT`: the record. -/
def Memory.init (mm : Memory) (mempoolSz : Nat) : Memory :=
  { mm with
    mempoolSize := mempoolSz
    allocMem := 0
    allocProgMem := 0
    freeList := mm.start
    allocList := 0 }

/-- `MP_INIT_MEMORY_STRUCT`: the header of the one chunk. -/
def Heap.init (h : Heap) (start mempoolSz : Nat) : Heap :=
  (((h.set .isFree start 1).set .allocMem start mempoolSz).set .prev start 0).set .next start 0

/-- `MP_DLINKLIST_INS_FRT`; the head of the list is then `x`. -/
def dlinklistInsFrt (h : Heap) (head x : Nat) : Heap :=
  let h := (h.set .prev x 0).set .next x head
  if head ≠ 0 then h.set .prev head x else h

/-- `MP_DLINKLIST_DEL` -/
def dlinklistDel (h : Heap) (head x : Nat) : Heap × Nat :=
  if h.get .prev x = 0 then
    (if h.get .next x ≠ 0 then h.set .prev (h.get .next x) 0 else h, h.get .next x)
  else
    let h := h.set .next (h.get .prev x) (h.get .next x)
    (if h.get .next x ≠ 0 then h.set .prev (h.get .next x) (h.get .prev x) else h, head)

/-- `find_memory_list`; the position of the memory is returned. -/
def findMemoryList (mp : Pool) (p : Nat) : Option Nat :=
  mp.mlist.findIdx? fun mm => decide (mm.start ≤ p ∧ p < mm.start + mp.mempoolSize)

/-! ## Allocation -/

/-- The loop over the free list: the first chunk of at least `total` bytes, or 0. -/
def firstFit (h : Heap) (total : Nat) : Nat → Nat → Option Nat
  | 0, free => if free = 0 then some 0 else none
  | fuel + 1, free =>
      if free = 0 then some 0
      else if total ≤ h.get .allocMem free then some free
      else firstFit h total fuel (h.get .next free)

/-- `*free = *notFree` -/
def Heap.copyChunk (h : Heap) (dst src : Nat) : Heap :=
  (((h.set .allocMem dst (h.get .allocMem src)).set .prev dst (h.get .prev src)).set .next dst
    (h.get .next src)).set .isFree dst (h.get .isFree src)

/-- The remainder `free` takes the place of `notFree` in the free list. -/
def relink (h : Heap) (head free : Nat) : Heap × Nat :=
  let result := if h.get .prev free = 0 then (h, free) else (h.set .next (h.get .prev free) free, head)
  (if result.1.get .next free ≠ 0 then result.1.set .prev (result.1.get .next free) free
    else result.1, result.2)

/-- The chunk is cut off the front of the free chunk. -/
def splitChunk (h : Heap) (head total notFree : Nat) : Heap × Nat :=
  let free := notFree + total
  let h := h.copyChunk free notFree
  let h := h.set .allocMem free (sub (h.get .allocMem free) total)
  let h := h.setFooter (free + h.get .allocMem free) free
  let linked := relink h head free
  let h := (linked.1.set .isFree notFree 0).set .allocMem notFree total
  (h.setFooter (notFree + total) notFree, linked.2)

/-- The whole free chunk is taken. -/
def wholeChunk (h : Heap) (head notFree : Nat) : Heap × Nat :=
  let linked := dlinklistDel h head notFree
  (linked.1.set .isFree notFree 0, linked.2)

/-- The record after a chunk of `size` bytes has been taken. -/
def Memory.taken (mm : Memory) (freeList allocList size : Nat) : Memory :=
  { mm with
    freeList := freeList
    allocList := allocList
    allocMem := add mm.allocMem size
    allocProgMem := add mm.allocProgMem (sub (sub size chunkHeader) chunkEnd) }

/-- A chunk of `total` bytes is taken from the free chunk `free`. -/
def takeChunk (h : Heap) (mm : Memory) (total free : Nat) : Heap × Memory :=
  let taken :=
    if h.get .allocMem free - total > chunkHeader + chunkEnd then splitChunk h mm.freeList total free
    else wholeChunk h mm.freeList free
  let h := dlinklistInsFrt taken.1 mm.allocList free
  (h, mm.taken taken.2 free (h.get .allocMem free))

/-- What the search ends with: the heap, the memories and the pointer. -/
structure Found where
  heap : Heap
  mlist : List Memory
  ptr : Nat

/-- The loop over the memories; the inner `none` is one that finds no chunk. -/
def allocFrom (h : Heap) (mempoolSize total : Nat) : List Memory → Option (Option Found)
  | [] => some none
  | mm :: rest =>
      let others := (allocFrom h mempoolSize total rest).map fun found =>
        found.map fun found => { found with mlist := mm :: found.mlist }
      if sub mempoolSize mm.allocMem < total then others
      else
        match firstFit h total mempoolSize mm.freeList with
        | none => none
        | some 0 => others
        | some free =>
            let taken := takeChunk h mm total free
            some (some { heap := taken.1, mlist := taken.2 :: rest, ptr := free + chunkHeader })

/-- What is left to `malloc` for another memory. -/
def Pool.addMemSz (mp : Pool) : Nat :=
  let addMemSz := sub mp.maxMempoolSize mp.mempoolSize
  if addMemSz ≥ mp.mempoolSize then mp.mempoolSize else addMemSz

/-- `extend_memory_list`: the record of the new memory, which `malloc` puts
at `s`. -/
def Pool.newMemory (mp : Pool) (s : Nat) : Memory :=
  Memory.init ⟨s + memoryHeader, mp.lastId, 0, 0, 0, 0, 0⟩ mp.addMemSz

/-- The pool with a new memory. -/
def Pool.extended (mp : Pool) (s : Nat) : Pool :=
  { mp with
    lastId := (mp.lastId + 1) % 4294967296
    allocMempoolSize := add mp.allocMempoolSize mp.addMemSz
    mlist := mp.newMemory s :: mp.mlist }

/-- The code between the loops and the `goto`; `s` is what `malloc` returns. -/
def extend (h : Heap) (mp : Pool) (total s : Nat) : Option (Heap × Pool) :=
  if mp.autoExtend then
    if add mp.allocMempoolSize total > mp.maxMempoolSize then none
    else if s = 0 then none
    else some (h.init (s + memoryHeader) mp.addMemSz, mp.extended s)
  else none

/-- The part of `MemoryPoolAlloc` from `FIND_FREE_CHUNK` on. -/
def findFreeChunk (total : Nat) (mallocs : List Nat) (h : Heap) (mp : Pool) :
    Option (Heap × Pool × Nat) :=
  match allocFrom h mp.mempoolSize total mp.mlist with
  | none => none
  | some (some found) => some (found.heap, { mp with mlist := found.mlist }, found.ptr)
  | some none =>
      match mallocs with
      | [] => some (h, mp, 0)
      | s :: mallocs =>
          match extend h mp total s with
          | none => some (h, mp, 0)
          | some (h, mp) => findFreeChunk total mallocs h mp

/-- How often the label is passed. -/
def passes (total : Nat) (mallocs : List Nat) (h : Heap) (mp : Pool) : Nat :=
  match allocFrom h mp.mempoolSize total mp.mlist with
  | none => 1
  | some (some _) => 1
  | some none =>
      match mallocs with
      | [] => 1
      | s :: mallocs =>
          match extend h mp total s with
          | none => 1
          | some (h, mp) => passes total mallocs h mp + 1

/-- The bytes of a chunk for a block of `wantsize` bytes. -/
def totalNeededSize (wantsize : Nat) : Nat := mpAlignSize (add wantsize (chunkHeader + chunkEnd))

def memoryPoolAlloc (h : Heap) (mp : Pool) (wantsize : Nat) (mallocs : List Nat) :
    Option (Heap × Pool × Nat) :=
  if wantsize = 0 then some (h, mp, 0)
  else if totalNeededSize wantsize > mp.mempoolSize then some (h, mp, 0)
  else findFreeChunk (totalNeededSize wantsize) mallocs h mp

/-! ## Release -/

/-- The loop back to the first of the free chunks in front of `p0`, and the
headers it reads. -/
def walkBack (h : Heap) (start : Nat) : Nat → Nat → Nat → Option (Nat × List Nat)
  | 0, _, _ => none
  | fuel + 1, p0, p1 =>
      if h.get .isFree p0 ≠ 0 then
        if p0 - chunkEnd - chunkHeader ≤ start then some (p0, [p0])
        else (walkBack h start fuel (h.footer p0) p0).map fun r => (r.1, p0 :: r.2)
      else some (p1, [p0])

/-- The heap and the free list after the merging, and the headers it reads. -/
structure Merged where
  heap : Heap
  freeList : Nat
  reads : List Nat

/-- The loop over the free chunks behind `p1`, which it takes in. -/
def absorb (stop p1 : Nat) : Nat → Heap → Nat → Nat → Option Merged
  | 0, _, _, _ => none
  | fuel + 1, h, freeList, p0 =>
      if p0 < stop then
        if h.get .isFree p0 ≠ 0 then
          let linked := dlinklistDel h freeList p0
          let h := linked.1.set .allocMem p1
            (add (linked.1.get .allocMem p1) (linked.1.get .allocMem p0))
          (absorb stop p1 fuel h linked.2 (p0 + h.get .allocMem p0)).map fun r =>
            { r with reads := p0 :: r.reads }
        else some { heap := h, freeList, reads := [p0] }
      else some { heap := h, freeList, reads := [] }

def mergeFreeChunk (h : Heap) (mempoolSize : Nat) (mm : Memory) (c : Nat) : Option Merged :=
  match walkBack h mm.start mempoolSize c c with
  | none => none
  | some (p1, back) =>
      (absorb (mm.start + mempoolSize) p1 mempoolSize h mm.freeList (p1 + h.get .allocMem p1)).map
        fun r =>
          { r with
            heap := r.heap.setFooter (p1 + r.heap.get .allocMem p1) p1
            reads := back ++ r.reads }

/-- The record after a chunk of `size` bytes has been released. -/
def Memory.released (mm : Memory) (freeList allocList size : Nat) : Memory :=
  { mm with
    freeList := freeList
    allocList := allocList
    allocMem := sub mm.allocMem size
    allocProgMem := sub mm.allocProgMem (sub (sub size chunkHeader) chunkEnd) }

/-- The chunk `ck` moves from the allocated to the free ones. -/
def releaseChunk (h : Heap) (mm : Memory) (ck : Nat) : Heap × Memory :=
  let linked := dlinklistDel h mm.allocList ck
  let h := (dlinklistInsFrt linked.1 mm.freeList ck).set .isFree ck 1
  (h, mm.released ck linked.2 (h.get .allocMem ck))

/-- The memory that `MemoryPoolFree` takes the pointer for one of. -/
def ownerOf (mp : Pool) (p : Nat) : Option Nat :=
  if mp.autoExtend then findMemoryList mp p else some 0

def memoryPoolFree (h : Heap) (mp : Pool) (p : Nat) : Option (Heap × Pool × List Nat) :=
  if p = 0 then some (h, mp, [])
  else
    match ownerOf mp p with
    | none => none
    | some i =>
        match mp.mlist[i]? with
        | none => none
        | some mm =>
            let released := releaseChunk h mm (p - chunkHeader)
            (mergeFreeChunk released.1 mp.mempoolSize released.2 (p - chunkHeader)).map fun r =>
              (r.heap,
                { mp with mlist := mp.mlist.set i { released.2 with freeList := r.freeList } },
                r.reads)

/-! ## The pool -/

def memoryPoolClear (h : Heap) (mp : Pool) : Heap × Pool :=
  (mp.mlist.foldl (fun h mm => h.init mm.start mm.mempoolSize) h,
    { mp with mlist := mp.mlist.map fun mm => mm.init mm.mempoolSize })

/-- `mpPtr` and `s` are what `malloc` returns; `auto_extend` is not written
when the two sizes are the same, and then it is `junk`. -/
def memoryPoolInit (h : Heap) (maxMempoolSize mempoolSize mpPtr s : Nat) (junk : Bool) :
    Option (Heap × Pool) :=
  if mempoolSize > maxMempoolSize then none
  else if mpPtr = 0 then none
  else if s = 0 then none
  else if (memoryHeader + mempoolSize) % memSizeT < memoryHeader + chunkHeader then none
  else
    some (h.init (s + memoryHeader) mempoolSize,
      { lastId := 1
        autoExtend := if mempoolSize < maxMempoolSize then true else junk
        mempoolSize := mempoolSize
        maxMempoolSize := maxMempoolSize
        allocMempoolSize := mempoolSize
        mlist := [Memory.init ⟨s + memoryHeader, 0, 0, 0, 0, 0, 0⟩ mempoolSize] })

def getTotalMemory (mp : Pool) : Nat := mp.allocMempoolSize

/-! ## Runs -/

/-- A pointer that was returned and the size that was wanted. -/
structure Block where
  ptr : Nat
  wantsize : Nat
deriving DecidableEq, Repr

structure State where
  heap : Heap
  pool : Pool
  live : List Block := []
  /-- a call has not come back -/
  stuck : Bool := false

inductive Event where
  | alloc (wantsize : Nat) (mallocs : List Nat)
  | free (p : Nat)
  | clear

def State.alloc (s : State) (wantsize : Nat) (mallocs : List Nat) : State :=
  match memoryPoolAlloc s.heap s.pool wantsize mallocs with
  | none => { s with stuck := true }
  | some (heap, pool, p) =>
      { s with heap, pool, live := if p = 0 then s.live else ⟨p, wantsize⟩ :: s.live }

def State.free (s : State) (p : Nat) : State :=
  match memoryPoolFree s.heap s.pool p with
  | none => { s with stuck := true }
  | some (heap, pool, _) => { s with heap, pool, live := s.live.filter fun b => b.ptr ≠ p }

def State.clear (s : State) : State :=
  let cleared := memoryPoolClear s.heap s.pool
  { s with heap := cleared.1, pool := cleared.2, live := [] }

def step (s : State) (e : Event) : State :=
  if s.stuck then s
  else
    match e with
    | .alloc wantsize mallocs => s.alloc wantsize mallocs
    | .free p => s.free p
    | .clear => s.clear

/-! ## What `malloc` and the caller promise -/

/-- An object of `n` bytes lies in the lower half of the address space. -/
def Placed (s n : Nat) : Prop := s + n % memSizeT ≤ 9223372036854775808

instance (s n : Nat) : Decidable (Placed s n) := inferInstanceAs (Decidable (_ ≤ _))

/-- The object at `s` has no byte in common with a memory of the pool. -/
def Memory.Clear (mm : Memory) (s n : Nat) : Prop :=
  s + n % memSizeT ≤ mm.start - memoryHeader ∨ mm.start + mm.mempoolSize ≤ s

instance (mm : Memory) (s n : Nat) : Decidable (mm.Clear s n) := inferInstanceAs (Decidable (_ ∨ _))

/-- `malloc` returns objects apart from the pool's own, and the pointer that
is freed is live. -/
def State.Granted (s : State) : Event → Prop
  | .alloc wantsize mallocs =>
      wantsize < memSizeT ∧
        ∀ a ∈ mallocs, a ≠ 0 →
          Placed a (memoryHeader + s.pool.addMemSz) ∧
            ∀ mm ∈ s.pool.mlist, mm.Clear a (memoryHeader + s.pool.addMemSz)
  | .free p => ∃ b ∈ s.live, b.ptr = p
  | .clear => True

/-- A pool as `MemoryPoolInit` makes it. -/
structure Created (s : State) : Prop where
  made : ∃ h maxMempoolSize mempoolSize mpPtr a junk,
    memoryPoolInit h maxMempoolSize mempoolSize mpPtr a junk = some (s.heap, s.pool) ∧
      maxMempoolSize < memSizeT ∧ Placed a (memoryHeader + mempoolSize)
  live : s.live = []
  running : s.stuck = false

end Training.MemoryPool
