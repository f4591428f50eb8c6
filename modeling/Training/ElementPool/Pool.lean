/-
Training.ElementPool.Pool — the pool of elements of one size,
`C/06_mempool/02_mempool/pool.c`.

Translation notes.

* Memory is bytes at addresses. An element that has been freed holds the
  link to the next one, a little-endian pointer of eight bytes.
* `malloc` succeeds; its result is an argument. The table `blocks` is a
  list, which `realloc` keeps.
* The `uint32_t` arithmetic wraps around, and the conversion of
  `blocksUsed` to `int32_t` does. `++block` at the greatest `int32_t`,
  and an index outside the table, set `faulted`, and there the model ends.
* `live` has the elements handed out and not freed since the last
  `poolFreeAll`. The code never reads it.
-/
import Mathlib.Logic.Function.Basic
import Training.Lib.Memory

namespace Training.ElementPool

open Training.Lib.Memory

def uint32Size : Nat := 4294967296

def int32Max : Int := 2147483647

/-- The conversion of a `uint32_t` to `int32_t`. -/
def toInt32 (n : Nat) : Int := if n < 2147483648 then n else n - 4294967296

/-- `sizeof(poolFreed)` -/
def pointerSize : Nat := 8

structure Pool where
  elementSize : Nat
  blockSize : Nat
  used : Nat
  block : Int
  /-- 0 is `NULL` -/
  freed : Nat
  blocksUsed : Nat
  blocks : List Nat
  mem : Nat → UInt8
  faulted : Bool
  live : List Nat

def poolBlocksInitial : Nat := 1

def poolFreeAll (p : Pool) : Pool :=
  { p with used := (p.blockSize + uint32Size - 1) % uint32Size, block := -1, freed := 0, live := [] }

def poolInitialize (elementSize blockSize : Nat) (mem : Nat → UInt8) : Pool :=
  poolFreeAll {
    elementSize := max elementSize pointerSize
    blockSize := blockSize
    used := 0
    block := 0
    freed := 0
    blocksUsed := poolBlocksInitial
    blocks := List.replicate poolBlocksInitial 0
    mem := mem
    faulted := false
    live := [] }

/-- The table is doubled, when the blocks in use fill it. -/
def Pool.growTable (p : Pool) : Pool :=
  if p.block == toInt32 p.blocksUsed then
    let blocksUsed := p.blocksUsed * 2 % uint32Size
    { p with blocksUsed, blocks := p.blocks ++ List.replicate (blocksUsed - p.blocksUsed) 0 }
  else p

/-- The block is allocated, when there is none; `m` is what `malloc`
returns. -/
def Pool.fillBlock (p : Pool) (m : Nat) : Pool :=
  if p.blocks[p.block.toNat]? = some 0 then { p with blocks := p.blocks.set p.block.toNat m } else p

/-- `used` and `block` move on to the next element. -/
def Pool.advance (p : Pool) (m : Nat) : Pool :=
  let used := (p.used + 1) % uint32Size
  if used == p.blockSize then
    if p.block == int32Max then { p with faulted := true }
    else
      let p := { p with used := 0, block := p.block + 1 }
      p.growTable.fillBlock m
  else { p with used }

/-- The element at `block` and `used`. -/
def Pool.current (p : Pool) : Option Nat × Pool :=
  if p.faulted || decide (p.block < 0) then (none, { p with faulted := true })
  else
    match p.blocks[p.block.toNat]? with
    | none => (none, { p with faulted := true })
    | some block => (some (block + p.used * p.elementSize % uint32Size), p)

def poolMalloc (p : Pool) (m : Nat) : Option Nat × Pool :=
  if p.freed ≠ 0 then (some p.freed, { p with freed := load pointerSize p.mem p.freed })
  else (p.advance m).current

def poolFree (p : Pool) (ptr : Nat) : Pool :=
  { p with mem := store pointerSize p.mem ptr p.freed, freed := ptr }

/-! ## Runs -/

inductive Event where
  | malloc (m : Nat)
  | free (ptr : Nat)
  | freeAll
  /-- the application writes a byte -/
  | write (a : Nat) (b : UInt8)

def step (p : Pool) (e : Event) : Pool :=
  if p.faulted then p
  else
    match e with
    | .malloc m =>
        match poolMalloc p m with
        | (some ptr, p) => { p with live := ptr :: p.live }
        | (none, p) => p
    | .free ptr => { poolFree p ptr with live := p.live.erase ptr }
    | .freeAll => poolFreeAll p
    | .write a b => { p with mem := Function.update p.mem a b }

end Training.ElementPool
