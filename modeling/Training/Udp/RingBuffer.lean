/-
Training.Udp.RingBuffer — the byte ring buffer of
`Warehouse/C/C-protocol/udp/ring_buffer.c` (`C/rudp_self/ring_buffer.c`
is the same file).

`wrPoint` and `rdPoint` are the offsets of the next byte to write and to
read. One cell stays free, so that `wrPoint = rdPoint` is the empty ring
and nothing else. Both pointers lie inside the buffer BY CONSTRUCTION:
the two proof fields are part of the ring, and `ringbuffWrite` and
`ringbuffRead` rebuild them from the code's own case split.

The storage that `calloc` returns is a function from offsets to bytes.
Only offsets below `size` are ever read or written
(`Training.Udp.RingBufferTheorems`).

`char *buff, int len` arguments are the list of the `len` bytes at
`buff`. The calls that pass a negative `len` taken from the wire are the
subject of `Training.Udp.Wire`.
-/
import Mathlib.Tactic.Common

namespace Training.Udp

/-! ## Storage -/

/-- `memcpy (buffer + point, src, n)`. -/
def memcpy (buffer : Nat → UInt8) (point : Nat) (src : List UInt8) : Nat → UInt8 :=
  fun i => if point ≤ i then src.getD (i - point) (buffer i) else buffer i

/-- The `n` bytes at `buffer + point`. -/
def bytesAt (buffer : Nat → UInt8) (point n : Nat) : List UInt8 :=
  (List.range n).map fun i => buffer (point + i)

@[simp] theorem length_bytesAt (buffer : Nat → UInt8) (point n : Nat) :
    (bytesAt buffer point n).length = n := by
  simp [bytesAt]

/-! ## The ring -/

structure Ringbuffer where
  size : Nat
  wrPoint : Nat
  rdPoint : Nat
  buffer : Nat → UInt8
  wr_lt : wrPoint < size
  rd_lt : rdPoint < size

/-- `ringbuff_init`; its `assert (size > 0)` is the hypothesis. -/
def ringbuffInit (size : Nat) (h : 0 < size) : Ringbuffer where
  size := size
  wrPoint := 0
  rdPoint := 0
  buffer := fun _ => 0
  wr_lt := h
  rd_lt := h

/-- `ringbuff_data_size`: `wr_point - rd_point`, plus `size` when that
is negative. -/
def ringbuffDataSize (rb : Ringbuffer) : Nat :=
  if rb.rdPoint ≤ rb.wrPoint then rb.wrPoint - rb.rdPoint
  else rb.wrPoint + rb.size - rb.rdPoint

def ringbuffFreeSize (rb : Ringbuffer) : Nat :=
  rb.size - 1 - ringbuffDataSize rb

def isRingbuffFull (rb : Ringbuffer) : Bool :=
  ringbuffDataSize rb == rb.size - 1

def isRingbuffEmpty (rb : Ringbuffer) : Bool :=
  rb.wrPoint == rb.rdPoint

theorem ringbuffDataSize_lt (rb : Ringbuffer) : ringbuffDataSize rb < rb.size := by
  have hw := rb.wr_lt
  have hr := rb.rd_lt
  unfold ringbuffDataSize
  split <;> omega

/-- `if (len > free_size) len = free_size;` and its twin in
`ringbuff_read`. -/
def truncateLen (len room : Nat) : Nat :=
  if len > room then room else len

theorem truncateLen_le (len room : Nat) : truncateLen len room ≤ room := by
  unfold truncateLen
  split <;> omega

theorem truncateLen_eq_min (len room : Nat) : truncateLen len room = min len room := by
  unfold truncateLen
  split <;> omega

theorem wrap_lt (rb : Ringbuffer) {len room : Nat} (point : Nat) (h : room < rb.size) :
    truncateLen len room - (rb.size - point) < rb.size := by
  have := truncateLen_le len room
  omega

theorem flat_lt (rb : Ringbuffer) {len point : Nat} (hp : point < rb.size)
    (h : ¬ point + len > rb.size - 1) : point + len < rb.size := by
  omega

theorem ringbuffFreeSize_lt (rb : Ringbuffer) : ringbuffFreeSize rb < rb.size := by
  have := rb.wr_lt
  unfold ringbuffFreeSize
  omega

/-- `ringbuff_write`: the bytes stored are the first `len` that fit, in
one piece or, past the end of the storage, in two. The result is the new
ring and the count the call returns. -/
def ringbuffWrite (rb : Ringbuffer) (buff : List UInt8) : Ringbuffer × Nat :=
  let len := truncateLen buff.length (ringbuffFreeSize rb)
  if h : rb.wrPoint + len > rb.size - 1 then
    let firstpartLen := rb.size - rb.wrPoint
    ({ rb with
        buffer := memcpy (memcpy rb.buffer rb.wrPoint (buff.take firstpartLen)) 0
          ((buff.drop firstpartLen).take (len - firstpartLen))
        wrPoint := len - firstpartLen
        wr_lt := wrap_lt rb _ (ringbuffFreeSize_lt rb) },
      firstpartLen + (len - firstpartLen))
  else
    ({ rb with
        buffer := memcpy rb.buffer rb.wrPoint (buff.take len)
        wrPoint := rb.wrPoint + len
        wr_lt := flat_lt rb rb.wr_lt h },
      len)

/-- `ringbuff_read`: the ring after the call and the bytes copied out;
the count the call returns is their number. -/
def ringbuffRead (rb : Ringbuffer) (len : Nat) : Ringbuffer × List UInt8 :=
  let len := truncateLen len (ringbuffDataSize rb)
  if h : rb.rdPoint + len > rb.size - 1 then
    let firstpartLen := rb.size - rb.rdPoint
    ({ rb with
        rdPoint := len - firstpartLen
        rd_lt := wrap_lt rb _ (ringbuffDataSize_lt rb) },
      bytesAt rb.buffer rb.rdPoint firstpartLen ++ bytesAt rb.buffer 0 (len - firstpartLen))
  else
    ({ rb with
        rdPoint := rb.rdPoint + len
        rd_lt := flat_lt rb rb.rd_lt h },
      bytesAt rb.buffer rb.rdPoint len)

end Training.Udp
