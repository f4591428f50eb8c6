/-
Training.Udp.SharedRing — one ring used by two threads without a lock.

`recv_worker_thread` writes `recv_buffer` through `push_to_recv_buff`
while the application reads it through `rdt_recv`. Here the two threads
take the steps of those calls one at a time, in any order: each load of a
pointer, each byte copied and each store of a pointer is a step of its
own. `Writer` and `Reader` say where in its call a thread is and what it
holds in its locals.

Translation notes.

* A request may be a bare `ringbuff_write` or `ringbuff_read`, or the one
  inside `push_to_recv_buff` or `rdt_recv` (`checked`), with the test the
  caller makes first.
* `ringbuff_data_size` loads both pointers. A thread's own pointer has the
  same value whenever it is loaded, so the order of the two does not
  matter; `wr_point` is first here.
* `memcpy` copies upwards. `copyIndex` is the cell of the `i`-th byte over
  both pieces, `copyEnd` the pointer after them.
* `point + len` is the one `int` that a large ring can overflow. Past
  `INT_MAX` the behaviour is undefined, and the machine stops there.
-/
import Training.Lib.Machine
import Training.Udp.RingBuffer

namespace Training.Udp

open Training.Lib

/-! ## Shared cells -/

structure RingCells where
  size : Nat
  wrPoint : Nat
  rdPoint : Nat
  buffer : Nat → UInt8

def intMax : Nat := 2147483647

/-- `ringbuff_data_size` on the two pointers as they were loaded. -/
def loadedDataSize (size wr rd : Nat) : Nat :=
  if rd ≤ wr then wr - rd else wr + size - rd

def loadedFreeSize (size wr rd : Nat) : Nat := size - 1 - loadedDataSize size wr rd

/-- The cell of the `i`-th of `len` bytes copied from `point` on. -/
def copyIndex (size point len i : Nat) : Nat :=
  if point + len > size - 1 ∧ size - point ≤ i then i - (size - point) else point + i

def copyEnd (size point len : Nat) : Nat :=
  if point + len > size - 1 then len - (size - point) else point + len

def setByte (buffer : Nat → UInt8) (i : Nat) (v : UInt8) : Nat → UInt8 :=
  fun j => if j = i then v else buffer j

/-! ## Threads -/

/-- `char *buff, int len`. -/
structure WriteRequest where
  buff : Nat → UInt8
  len : Nat
  checked : Bool

structure ReadRequest where
  len : Nat
  checked : Bool

/-- The first `len` bytes of a request. -/
def WriteRequest.bytes (r : WriteRequest) (len : Nat) : List UInt8 :=
  (List.range len).map r.buff

/-- Where the writing thread is. -/
inductive Writer where
  | idle
  /-- `0 == ringbuff_free_size (..)` in `push_to_recv_buff` -/
  | checkWr (r : WriteRequest)
  | checkRd (r : WriteRequest) (wr : Nat)
  /-- `free_size` in `ringbuff_write` -/
  | sizeWr (r : WriteRequest)
  | sizeRd (r : WriteRequest) (wr : Nat)
  /-- `point = rb->wr_point`, with `len` cut to the free size -/
  | point (r : WriteRequest) (len : Nat)
  /-- `done` of the `len` bytes are copied -/
  | copy (r : WriteRequest) (len point done : Nat)

/-- Where the reading thread is. -/
inductive Reader where
  | idle
  /-- the wait loop of `rdt_recv` -/
  | waitWr (r : ReadRequest)
  | waitRd (r : ReadRequest) (wr : Nat)
  /-- `data_size` in `ringbuff_read` -/
  | sizeWr (r : ReadRequest)
  | sizeRd (r : ReadRequest) (wr : Nat)
  | point (len : Nat)
  /-- the bytes copied so far -/
  | copy (len point : Nat) (done : List UInt8)

/-! ## The machine -/

structure SharedRing where
  cells : RingCells
  writer : Writer
  reader : Reader
  writes : List WriteRequest
  reads : List ReadRequest
  /-- bytes of the writes that have returned -/
  accepted : List UInt8
  /-- bytes of the reads that have returned -/
  returned : List UInt8
  /-- an `int` went past `INT_MAX` -/
  overflow : Bool

def SharedRing.init (size : Nat) (writes : List WriteRequest) (reads : List ReadRequest) :
    SharedRing where
  cells := { size, wrPoint := 0, rdPoint := 0, buffer := fun _ => 0 }
  writer := .idle
  reader := .idle
  writes := writes
  reads := reads
  accepted := []
  returned := []
  overflow := false

def SharedRing.writerStep (s : SharedRing) : SharedRing :=
  match s.writer with
  | .idle =>
      match s.writes with
      | [] => s
      | r :: writes => { s with writes, writer := if r.checked then .checkWr r else .sizeWr r }
  | .checkWr r => { s with writer := .checkRd r s.cells.wrPoint }
  | .checkRd r wr =>
      if 0 = loadedFreeSize s.cells.size wr s.cells.rdPoint then { s with writer := .idle }
      else { s with writer := .sizeWr r }
  | .sizeWr r => { s with writer := .sizeRd r s.cells.wrPoint }
  | .sizeRd r wr =>
      { s with
        writer := .point r (truncateLen r.len (loadedFreeSize s.cells.size wr s.cells.rdPoint)) }
  | .point r len =>
      if s.cells.wrPoint + len > intMax then { s with overflow := true }
      else { s with writer := .copy r len s.cells.wrPoint 0 }
  | .copy r len point done =>
      if done < len then
        { s with
          cells := { s.cells with
            buffer := setByte s.cells.buffer (copyIndex s.cells.size point len done)
              (r.buff done) }
          writer := .copy r len point (done + 1) }
      else
        { s with
          cells := { s.cells with wrPoint := copyEnd s.cells.size point len }
          accepted := s.accepted ++ r.bytes len
          writer := .idle }

def SharedRing.readerStep (s : SharedRing) : SharedRing :=
  match s.reader with
  | .idle =>
      match s.reads with
      | [] => s
      | r :: reads => { s with reads, reader := if r.checked then .waitWr r else .sizeWr r }
  | .waitWr r => { s with reader := .waitRd r s.cells.wrPoint }
  | .waitRd r wr =>
      if 0 = loadedDataSize s.cells.size wr s.cells.rdPoint then { s with reader := .waitWr r }
      else { s with reader := .sizeWr r }
  | .sizeWr r => { s with reader := .sizeRd r s.cells.wrPoint }
  | .sizeRd r wr =>
      { s with
        reader := .point (truncateLen r.len (loadedDataSize s.cells.size wr s.cells.rdPoint)) }
  | .point len =>
      if s.cells.rdPoint + len > intMax then { s with overflow := true }
      else { s with reader := .copy len s.cells.rdPoint [] }
  | .copy len point done =>
      if done.length < len then
        { s with
          reader := .copy len point
            (done ++ [s.cells.buffer (copyIndex s.cells.size point len done.length)]) }
      else
        { s with
          cells := { s.cells with rdPoint := copyEnd s.cells.size point len }
          returned := s.returned ++ done
          reader := .idle }

inductive RingThread where
  | writer
  | reader
  deriving DecidableEq, Repr

def SharedRing.step (s : SharedRing) (t : RingThread) : SharedRing :=
  if s.overflow then s
  else
    match t with
    | .writer => s.writerStep
    | .reader => s.readerStep

/-! ## What may be asked of a run -/

/-- The cell the writer's next step stores into. -/
def SharedRing.nextStore (s : SharedRing) : Option Nat :=
  match s.writer with
  | .copy _ len point done =>
      if done < len then some (copyIndex s.cells.size point len done) else none
  | _ => none

/-- The cell the reader's next step loads, and the number of the byte in
the stream it takes it for. -/
def SharedRing.nextLoad (s : SharedRing) : Option (Nat × Nat) :=
  match s.reader with
  | .copy len point done =>
      if done.length < len then
        some (copyIndex s.cells.size point len done.length, s.returned.length + done.length)
      else none
  | _ => none

/-- Byte `k` of the stream of accepted bytes lives in cell `k % size`.
Bytes are read in the order they were written, none is overwritten before
it is read, and none is read before it is written. -/
structure SharedRing.Sound (s : SharedRing) : Prop where
  noOverflow : s.overflow = false
  returned : s.returned <+: s.accepted
  store : ∀ i, s.nextStore = some i →
    i < s.cells.size ∧
      ∀ k, s.returned.length ≤ k → k < s.accepted.length → k % s.cells.size ≠ i
  load : ∀ i k, s.nextLoad = some (i, k) →
    i = k % s.cells.size ∧ k < s.accepted.length ∧ s.accepted[k]? = some (s.cells.buffer i)

end Training.Udp
