/-
Training.Arena.Pool — the arena pool, `C/06_mempool/mempool.c`:
`mp_create_pool`, `mp_alloc_small`, `mp_alloc_large`, `mp_malloc`,
`mp_calloc`, `mp_free` and `mp_reset_pool`.

Translation notes.

* Addresses are numbers modulo 2^64. A node is its header, at `addr`;
  `nodes` are the nodes from `head` on along `next`, and `tail` is the
  `next` of the last one. The pool starts at `head - 24`.
* `posix_memalign` fails, or returns an address; with it come the words
  that the memory has where a node keeps `last` and `next`, because the
  code does not initialise both. `mp_create_pool` leaves `head->next` as it
  is, and `mp_alloc_small` adds `size` to the `last` it finds.
* A walk along a `tail` that is not `NULL`, and a use of a `NULL` node or
  of the result of `mp_alloc_large` that nothing was returned for, set
  `faulted`, and there the model ends.
* The zeros that `mp_calloc` writes are the application's data.
* `blocks` has the small blocks handed out since the last reset. The code
  never reads it.
-/
import Training.Lib.Align

namespace Training.Arena

open Training.Lib

def sizeTSize : Nat := 18446744073709551616

def mpAlignment : Nat := 32

/-- `sizeof(mp_node_t)` -/
def nodeSize : Nat := 32

/-- `sizeof(mp_pool_t)` -/
def poolSize : Nat := 24

/-- `sizeof(mp_large_t)` -/
def largeSize : Nat := 16

/-- `mp_align_ptr` to `MP_ALIGNMENT` -/
def mpAlignPtr (p : Nat) : Nat := (p + (mpAlignment - 1)) % sizeTSize / mpAlignment * mpAlignment

/-- What `posix_memalign` returned, and two words of it. -/
structure Fresh where
  addr : Nat
  last : Nat
  next : Nat

structure Node where
  addr : Nat
  last : Nat
  end_ : Nat
  failed : Nat

/-- `mp_large_t`; an `alloc` of 0 is `NULL`. -/
structure Large where
  addr : Nat
  alloc : Nat

structure Block where
  addr : Nat
  size : Nat

structure Pool where
  max : Nat
  /-- the index of the current node -/
  current : Nat
  large : List Large
  nodes : List Node
  tail : Nat
  faulted : Bool
  blocks : List Block

/-- What a function returns: nothing at the end of `mp_alloc_large`. -/
inductive Ret where
  | null
  | ptr (p : Nat)
  | missing

def Pool.fault (pool : Pool) : Pool := { pool with faulted := true }

def mpCreatePool (size : Nat) (m : Option Fresh) : Option Pool :=
  m.map fun m =>
    let head := m.addr + poolSize
    let last := head + nodeSize
    { max := size
      current := 0
      large := []
      nodes := [{ addr := head, last := last, end_ := (last + size) % sizeTSize, failed := 0 }]
      tail := m.next
      faulted := false
      blocks := [] }

/-! ## Small blocks -/

/-- The loop of `mp_alloc_small` from the node with the index `i` on: the
current node, and the nodes with their failures counted. -/
def countFailures (current : Nat) : Nat → List Node → Nat × List Node
  | i, h :: h' :: rest =>
      let (current, nodes) :=
        countFailures (if h.failed > 4 then i + 1 else current) (i + 1) (h' :: rest)
      (current, { h with failed := h.failed + 1 } :: nodes)
  | _, nodes => (current, nodes)

def Node.psize (h : Node) : Nat := (((h.end_ : Int) - h.addr) % sizeTSize).toNat

/-- `mp_alloc_small`: a new node with a block. -/
def mpAllocSmall (pool : Pool) (size : Nat) (m : Option Fresh) : Ret × Pool :=
  match m, pool.nodes with
  | none, _ => (.null, pool)
  | some _, [] => (.null, pool.fault)
  | some m, head :: _ =>
      if pool.tail ≠ 0 then (.null, pool.fault)
      else
        let newNode : Node :=
          { addr := m.addr
            last := (m.last + size) % sizeTSize
            end_ := (m.addr + head.psize) % sizeTSize
            failed := 0 }
        let p := mpAlignPtr (m.addr + nodeSize)
        let (current, nodes) :=
          countFailures pool.current pool.current (pool.nodes.drop pool.current)
        (.ptr p, { pool with
          current
          nodes := pool.nodes.take pool.current ++ nodes ++ [newNode]
          tail := 0
          blocks := pool.blocks ++ [⟨p, size⟩] })

/-- `p->end - p->last < size`, a comparison of `size_t`s -/
def Node.full (h : Node) (size : Nat) : Bool :=
  decide ((((h.end_ : Int) - h.last) % sizeTSize).toNat < size)

/-- The node that the loop of `mp_malloc` stops at. -/
def Pool.room (pool : Pool) (size : Nat) : Option Nat :=
  ((pool.nodes.drop pool.current).findIdx? fun h => !h.full size).map (· + pool.current)

/-! ## Large blocks -/

/-- The record without memory among the first five. -/
def emptyLarge (large : List Large) : Option Nat := (large.take 5).findIdx? fun l => l.alloc == 0

/-- `mp_alloc_large`; `lm` is what `posix_memalign` returns for the memory,
`m` what it returns for a node. -/
def mpAllocLarge (pool : Pool) (lm : Option Nat) (m : Option Fresh) : Ret × Pool :=
  match lm with
  | none => (.null, pool)
  | some p =>
      match emptyLarge pool.large with
      | some i =>
          (.ptr p, { pool with large := pool.large.modify i fun l => { l with alloc := p } })
      | none =>
          match mpAllocSmall pool largeSize m with
          | (.ptr addr, pool) => (.missing, { pool with large := ⟨addr, p⟩ :: pool.large })
          | (_, pool) => (.missing, pool.fault)

/-! ## The interface -/

def mpMalloc (pool : Pool) (size : Nat) (lm : Option Nat) (m : Option Fresh) : Ret × Pool :=
  if size > pool.max then mpAllocLarge pool lm m
  else
    match pool.room size with
    | some i =>
        match pool.nodes[i]? with
        | some h =>
            let p := mpAlignPtr h.last
            (.ptr p, { pool with
              nodes := pool.nodes.set i { h with last := (p + size) % sizeTSize }
              blocks := pool.blocks ++ [⟨p, size⟩] })
        | none => (.null, pool.fault)
    | none => if pool.tail ≠ 0 then (.null, pool.fault) else mpAllocSmall pool size m

def mpCalloc (pool : Pool) (size : Nat) (lm : Option Nat) (m : Option Fresh) : Ret × Pool :=
  match mpMalloc pool size lm m with
  | (.missing, pool) => (.missing, pool.fault)
  | result => result

def mpFree (pool : Pool) (p : Nat) : Pool :=
  match pool.large.findIdx? fun l => l.alloc == p with
  | some i => { pool with large := pool.large.modify i fun l => { l with alloc := 0 } }
  | none => pool

def mpResetPool (pool : Pool) : Pool :=
  if pool.tail ≠ 0 then pool.fault
  else { pool with
    large := []
    nodes := pool.nodes.map fun h => { h with last := h.addr + nodeSize }
    blocks := [] }

/-! ## Runs -/

inductive Event where
  | malloc (size : Nat) (lm : Option Nat) (m : Option Fresh)
  | calloc (size : Nat) (lm : Option Nat) (m : Option Fresh)
  | free (p : Nat)
  | reset

def step (pool : Pool) (e : Event) : Pool :=
  if pool.faulted then pool
  else
    match e with
    | .malloc size lm m => (mpMalloc pool size lm m).2
    | .calloc size lm m => (mpCalloc pool size lm m).2
    | .free p => mpFree pool p
    | .reset => mpResetPool pool

end Training.Arena
