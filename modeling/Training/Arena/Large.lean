/-
Training.Arena.Large — the large blocks of the arena pool,
`C/06_mempool/mempool.c`: what each function gets from `posix_memalign` and
hands to `free`, and `mp_destory_pool`.

Translation notes.

* `mp_free` and `mp_reset_pool` hand to `free` what they find in the
  records of `pool->large`, `mp_destory_pool` also the nodes behind `head`
  and the pool. The ledger has what `posix_memalign` returned and was not
  freed; the node `head` is in the memory of the pool.
* The `if (l->alloc)` before a `free` makes no difference to the ledger,
  where `free(NULL)` does nothing.
-/
import Training.Arena.PoolTheorems
import Training.Lib.Ledger

namespace Training.Arena

open Training.Lib

/-- What the records of `pool->large` have. -/
def Pool.allocs (pool : Pool) : List Nat := pool.large.map Large.alloc

/-- The memory of the pool is that of its first node, too. -/
def Pool.memories (pool : Pool) : List Nat :=
  match pool.nodes with
  | [] => []
  | head :: rest => rest.map Node.addr ++ [head.addr - poolSize]

/-! ## Calls of `posix_memalign` and `free` -/

def mpMallocTakes (pool : Pool) (size : Nat) (lm : Option Nat) (m : Option Fresh) : List Nat :=
  if size > pool.max then
    lm.toList ++
      if lm.isSome && (emptyLarge pool.large).isNone then (m.map Fresh.addr).toList else []
  else if (pool.room size).isNone then (m.map Fresh.addr).toList
  else []

def mpFreeFrees (pool : Pool) (p : Nat) : List Nat :=
  if pool.large.any fun l => l.alloc == p then [p] else []

def Pool.takes (pool : Pool) : Event → List Nat
  | .malloc size lm m => mpMallocTakes pool size lm m
  | .calloc size lm m => mpMallocTakes pool size lm m
  | .free _ => []
  | .reset => []

def Pool.frees (pool : Pool) : Event → List Nat
  | .malloc .. => []
  | .calloc .. => []
  | .free p => mpFreeFrees pool p
  | .reset => pool.allocs

/-- What `mp_destory_pool` hands to `free`; it walks along the `next` of
the last node. -/
def mpDestoryPool (pool : Pool) : Option (List Nat) :=
  if pool.tail ≠ 0 then none else some (pool.allocs ++ pool.memories)

/-! ## Runs -/

structure Book where
  pool : Pool
  ledger : Ledger

def Book.step (b : Book) (e : Event) : Book :=
  if b.pool.faulted then b
  else
    { pool := Arena.step b.pool e
      ledger := (b.ledger.alloc (b.pool.takes e)).freeAll (b.pool.frees e) }

/-- The large block is what is returned, and in a record. -/
def Pool.Returns (pool : Pool) (result : Ret × Pool) (size : Nat) (lm : Option Nat) : Prop :=
  pool.max < size → ∀ p ∈ lm, result.1 = .ptr p ∧ p ∈ result.2.allocs

/-- What a call owes the caller: a request for a large block returns it, a
block that is freed is released once and its record emptied, and a reset
releases all of them. -/
def Pool.Keeps (pool : Pool) : Event → Prop
  | .malloc size lm m => pool.Returns (mpMalloc pool size lm m) size lm
  | .calloc size lm m => pool.Returns (mpCalloc pool size lm m) size lm
  | .free p => (p ∉ pool.allocs → mpFreeFrees pool p = []) ∧
      (p ≠ 0 → p ∈ pool.allocs → mpFreeFrees pool p = [p] ∧
        ∃ before l after, pool.large = before ++ l :: after ∧ l.alloc = p ∧
          (mpFree pool p).large = before ++ { l with alloc := 0 } :: after)
  | .reset => (mpResetPool pool).allocs = []

/-- Each block in a record is there once and is allocated, and destroying
the pool releases what is allocated, each address once. -/
structure Book.Sound (b : Book) : Prop where
  distinct : (Ledger.addresses b.pool.allocs).Nodup
  held : ∀ p ∈ Ledger.addresses b.pool.allocs, p ∈ b.ledger.held
  destroyed : ∃ calls, mpDestoryPool b.pool = some calls ∧
    (Ledger.addresses calls).Perm b.ledger.held
  calls : b.ledger.bad = false

structure Book.Right (b : Book) (e : Event) : Prop where
  keeps : b.pool.Keeps e
  sound : (b.step e).Sound

/-- A request for a large block finds a record that was emptied. -/
def Book.Reuses (b : Book) : Event → Prop
  | .malloc size lm _ => b.pool.max < size → lm.isSome = true →
      (emptyLarge b.pool.large).isSome = true
  | .calloc size lm _ => b.pool.max < size → lm.isSome = true →
      (emptyLarge b.pool.large).isSome = true
  | .free _ => True
  | .reset => True

/-- What `posix_memalign` promises, for all memory it returns. -/
structure Book.Placed (b : Book) (e : Event) : Prop where
  nodes : b.pool.Placed e
  distinct : (b.pool.takes e).Nodup
  fresh : ∀ p ∈ b.pool.takes e, p ≠ 0 ∧ p ∉ b.ledger.held

/-- The blocks and the records fit into their nodes. -/
def Book.Stored (b : Book) : Event → Prop
  | .malloc size lm m => b.pool.FitsMalloc size lm m
  | .calloc size lm m => b.pool.FitsMalloc size lm m
  | .free _ => True
  | .reset => True

end Training.Arena
