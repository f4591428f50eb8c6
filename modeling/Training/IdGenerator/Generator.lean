/-
Training.IdGenerator.Generator — the distributed id generator,
`C/job_interview/24_distributed_ID_generator.c`.

Translation notes.

* `generate_id` holds the generator's lock from its first line to its
  last, so at most one call of a generator is under way. A step is one
  reading of the clock, by the call that holds the lock of the generator
  `i` or, when nobody does, by one that takes it. The calls of different
  generators and their readings interleave in every way.
* `phase` says where the call that holds the lock waits for its next
  reading.
* The readings are values of `current_millis ()`. `uint64_t` wraps around.
* `issued` logs the ids returned, with the generator they come from. The
  code never reads it.
-/
import Mathlib.Algebra.Ring.Nat
import Mathlib.Tactic.Common
import Training.Lib.Machine

namespace Training.IdGenerator

def uint64Size : Nat := 18446744073709551616

/-- `EPOCH`, 2021-01-01 00:00:00 UTC -/
def epoch : Nat := 1609459200000

def sequenceBits : Nat := 12

def workerIdBits : Nat := 10

def maxWorkerId : Nat := 1 <<< workerIdBits - 1

def maxSequence : Nat := 1 <<< sequenceBits - 1

inductive Phase
  /-- nobody holds the lock -/
  | idle
  /-- in `wait_next_millis`, the clock has moved backwards -/
  | regressed
  /-- in `wait_next_millis`, the sequence is used up -/
  | exhausted
deriving DecidableEq, Repr

/-- `DistributedIDGenerator` -/
structure Generator where
  lastTimestamp : Nat
  workerId : Nat
  sequence : Nat
  phase : Phase
deriving DecidableEq, Repr

/-- `id_generator_init`; `none` is the result -1. -/
def idGeneratorInit (workerId : Nat) : Option Generator :=
  if workerId > maxWorkerId then none else some ⟨0, workerId, 0, .idle⟩

/-- The timestamp, the worker and the sequence number in one word. -/
def pack (timestamp workerId sequence : Nat) : Nat :=
  ((timestamp + uint64Size - epoch) % uint64Size) <<< (workerIdBits + sequenceBits) % uint64Size |||
    workerId <<< sequenceBits ||| sequence

/-- The end of `generate_id`, from the store of `last_timestamp` on. -/
def Generator.finish (gen : Generator) (timestamp : Nat) : Generator × Option Nat :=
  ({ gen with lastTimestamp := timestamp, phase := .idle },
    some (pack timestamp gen.workerId gen.sequence))

/-- The sequence number for a timestamp that is not in the past. -/
def Generator.number (gen : Generator) (timestamp : Nat) : Generator × Option Nat :=
  if gen.lastTimestamp = timestamp then
    let gen := { gen with sequence := (gen.sequence + 1) &&& maxSequence }
    if gen.sequence = 0 then ({ gen with phase := .exhausted }, none) else gen.finish timestamp
  else { gen with sequence := 0 }.finish timestamp

/-- What `generate_id` does with the next reading of the clock. -/
def generateId (gen : Generator) (millis : Nat) : Generator × Option Nat :=
  match gen.phase with
  | .idle =>
      if millis < gen.lastTimestamp then ({ gen with phase := .regressed }, none)
      else gen.number millis
  | .regressed => if millis ≤ gen.lastTimestamp then (gen, none) else gen.number millis
  | .exhausted => if millis ≤ gen.lastTimestamp then (gen, none) else gen.finish millis

/-! ## Several generators -/

structure State where
  gens : List Generator
  issued : List (Nat × Nat)
deriving DecidableEq, Repr

structure Reading where
  gen : Nat
  millis : Nat
deriving DecidableEq, Repr

def step (s : State) (r : Reading) : State :=
  match s.gens[r.gen]? with
  | none => s
  | some gen =>
      let result := generateId gen r.millis
      { gens := s.gens.set r.gen result.1
        issued := s.issued ++ result.2.toList.map fun id => (r.gen, id) }

/-- The generators of the workers, if all the ids are accepted. -/
def State.init (workerIds : List Nat) : Option State :=
  (workerIds.mapM idGeneratorInit).map fun gens => ⟨gens, []⟩

/-- The ids of one generator, in the order of its lock. -/
def State.idsOf (s : State) (i : Nat) : List Nat :=
  (s.issued.filter fun e => e.1 == i).map Prod.snd

end Training.IdGenerator
