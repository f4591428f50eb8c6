/-
Training.Udp.RingBufferRefinement — the ring buffer is a bounded FIFO of
`size - 1` bytes.

`ring_refines_fifo` is about every run from `ringbuff_init`: the bytes
between the pointers are the queue's, every call answers what the queue
answers, and in every state the pointers are in range, the two sizes add
up and the two predicates are right.

The functions compute in `int`. `Ringbuffer.ints` lists what a call
computes, and for sizes and lengths up to 2^30 no entry leaves the type;
that is the range in which the natural numbers of
`Training.Udp.RingBuffer` are the code's `int`s.
-/
import Training.Lib.Fifo
import Training.Udp.RingBufferTheorems

namespace Training.Udp

open Training.Lib

/-! ## Calls -/

abbrev RingCall := Fifo.Op UInt8

/-- The `len` a call passes. -/
def ringLen : RingCall → Nat
  | .write buff => buff.length
  | .read len => len

def ringStep (rb : Ringbuffer) : RingCall → Ringbuffer
  | .write buff => (ringbuffWrite rb buff).1
  | .read len => (ringbuffRead rb len).1

def ringAnswer (rb : Ringbuffer) : RingCall → Fifo.Answer UInt8
  | .write buff => .count (ringbuffWrite rb buff).2
  | .read len => .elems (ringbuffRead rb len).2

/-! ## `int` arithmetic -/

def FitsInt (x : Int) : Prop := -2147483648 ≤ x ∧ x < 2147483648

/-- What `ringbuff_data_size` and `ringbuff_free_size` compute. -/
def Ringbuffer.sizeInts (rb : Ringbuffer) : List Int :=
  let size : Int := rb.wrPoint - rb.rdPoint
  [size, if size ≥ 0 then size else size + rb.size, rb.size - 1,
    rb.size - 1 - ringbuffDataSize rb]

/-- What the copying half of `ringbuff_write` and `ringbuff_read`
computes, from the length cut to the room there is. -/
def Ringbuffer.copyInts (rb : Ringbuffer) (point len : Nat) : List Int :=
  let firstpartLen : Int := rb.size - point
  if point + len > rb.size - 1 then
    [point + len, rb.size - 1, firstpartLen, len - firstpartLen,
      firstpartLen + (len - firstpartLen)]
  else [point + len, rb.size - 1]

/-- What a call computes. -/
def Ringbuffer.ints (rb : Ringbuffer) (c : RingCall) : List Int :=
  (ringLen c : Int) :: rb.sizeInts ++
    match c with
    | .write buff =>
        rb.copyInts rb.wrPoint (truncateLen buff.length (ringbuffFreeSize rb))
    | .read len => rb.copyInts rb.rdPoint (truncateLen len (ringbuffDataSize rb))

theorem fitsInt_sizeInts {rb : Ringbuffer} (hsize : rb.size ≤ 1073741824) :
    ∀ x ∈ rb.sizeInts, FitsInt x := by
  have hw := rb.wr_lt
  have hr := rb.rd_lt
  have hdata := ringbuffDataSize_lt rb
  intro x hx
  simp only [Ringbuffer.sizeInts, List.mem_cons, List.not_mem_nil, or_false] at hx
  unfold FitsInt
  rcases hx with rfl | rfl | rfl | rfl
  · omega
  · split <;> omega
  · omega
  · omega

theorem fitsInt_copyInts {rb : Ringbuffer} {point len : Nat}
    (hsize : rb.size ≤ 1073741824) (hpoint : point < rb.size) (hlen : len < rb.size) :
    ∀ x ∈ rb.copyInts point len, FitsInt x := by
  intro x hx
  unfold FitsInt
  simp only [Ringbuffer.copyInts] at hx
  split at hx
  · simp only [List.mem_cons, List.not_mem_nil, or_false] at hx
    omega
  · simp only [List.mem_cons, List.not_mem_nil, or_false] at hx
    omega

/-- No `int` of a call overflows. -/
theorem fitsInt_ints {rb : Ringbuffer} (hsize : rb.size ≤ 1073741824) {c : RingCall}
    (hlen : ringLen c ≤ 1073741824) : ∀ x ∈ rb.ints c, FitsInt x := by
  intro x hx
  simp only [Ringbuffer.ints, List.cons_append, List.mem_cons, List.mem_append] at hx
  rcases hx with rfl | hx | hx
  · unfold FitsInt
    omega
  · exact fitsInt_sizeInts hsize x hx
  · cases c with
    | write buff =>
      have hroom := truncateLen_le buff.length (ringbuffFreeSize rb)
      have hfree := ringbuffFreeSize_lt rb
      exact fitsInt_copyInts hsize rb.wr_lt (by omega) x hx
    | read len =>
      have hroom := truncateLen_le len (ringbuffDataSize rb)
      have hdata := ringbuffDataSize_lt rb
      exact fitsInt_copyInts hsize rb.rd_lt (by omega) x hx

/-! ## States -/

/-- What holds of a ring of `n` bytes between two calls. -/
structure RingFacts (n : Nat) (rb : Ringbuffer) : Prop where
  size : rb.size = n
  wr_lt : rb.wrPoint < n
  rd_lt : rb.rdPoint < n
  dataSize : ringbuffDataSize rb = rb.contents.length
  freeSize : ringbuffDataSize rb + ringbuffFreeSize rb = n - 1
  empty : isRingbuffEmpty rb = true ↔ rb.contents.length = 0
  full : isRingbuffFull rb = true ↔ rb.contents.length = n - 1

theorem isRingbuffEmpty_iff (rb : Ringbuffer) :
    isRingbuffEmpty rb = true ↔ rb.contents.length = 0 := by
  have hw := rb.wr_lt
  have hr := rb.rd_lt
  rw [length_contents, isRingbuffEmpty, beq_iff_eq, ringbuffDataSize]
  split <;> omega

theorem isRingbuffFull_iff (rb : Ringbuffer) :
    isRingbuffFull rb = true ↔ rb.contents.length = rb.size - 1 := by
  rw [length_contents, isRingbuffFull, beq_iff_eq]

theorem ringFacts {n : Nat} {rb : Ringbuffer} (h : rb.size = n) : RingFacts n rb where
  size := h
  wr_lt := h ▸ rb.wr_lt
  rd_lt := h ▸ rb.rd_lt
  dataSize := (length_contents rb).symm
  freeSize := h ▸ dataSize_add_freeSize rb
  empty := isRingbuffEmpty_iff rb
  full := h ▸ isRingbuffFull_iff rb

/-! ## Steps -/

@[simp] theorem size_ringStep (rb : Ringbuffer) (c : RingCall) :
    (ringStep rb c).size = rb.size := by
  cases c with
  | write buff => exact ringbuffWrite_size rb buff
  | read len => exact ringbuffRead_size rb len

theorem freeSize_eq_contents (rb : Ringbuffer) :
    ringbuffFreeSize rb = rb.size - 1 - rb.contents.length := by
  rw [length_contents, ringbuffFreeSize]

/-- A call does to the bytes between the pointers what the queue does. -/
theorem contents_ringStep (rb : Ringbuffer) (c : RingCall) :
    (ringStep rb c).contents = Fifo.step (rb.size - 1) rb.contents c := by
  cases c with
  | write buff =>
    show (ringbuffWrite rb buff).1.contents = _
    rw [contents_ringbuffWrite, ringbuffWrite_count, freeSize_eq_contents, Fifo.step_write,
      ← List.take_take, List.take_of_length_le (List.length_take_le' _ _)]
  | read len => exact contents_ringbuffRead rb len

/-- And it answers what the queue answers. -/
theorem ringAnswer_eq (rb : Ringbuffer) (c : RingCall) :
    ringAnswer rb c = Fifo.answer (rb.size - 1) rb.contents c := by
  cases c with
  | write buff => rw [ringAnswer, ringbuffWrite_count, freeSize_eq_contents, Fifo.answer]
  | read len => rw [ringAnswer, ringbuffRead_bytes, Fifo.answer]

/-! ## Runs -/

/-- Every run of calls on a ring of `n` bytes is the run of the bounded
FIFO, with the same answers, and stays within `int`. -/
theorem ring_refines_fifo {n : Nat} (hn : 0 < n) (hmax : n ≤ 1073741824)
    (calls : List RingCall) (hlen : ∀ c ∈ calls, ringLen c ≤ 1073741824) :
    (run ringStep (ringbuffInit n hn) calls).contents
        = run (Fifo.step (n - 1)) [] calls ∧
      trace ringStep ringAnswer (ringbuffInit n hn) calls
        = trace (Fifo.step (n - 1)) (Fifo.answer (n - 1)) [] calls ∧
      Throughout ringStep (RingFacts n) (ringbuffInit n hn) calls ∧
      Along ringStep (fun rb c => ∀ x ∈ rb.ints c, FitsInt x) (ringbuffInit n hn) calls := by
  have hstep : ∀ (rb : Ringbuffer) (c : RingCall), rb.size = n → (ringStep rb c).size = n :=
    fun rb c h => (size_ringStep rb c).trans h
  have hsim : ∀ (rb : Ringbuffer) (c : RingCall), rb.size = n →
      (ringStep rb c).contents = Fifo.step (n - 1) rb.contents c := by
    rintro rb c rfl
    exact contents_ringStep rb c
  have hanswer : ∀ (rb : Ringbuffer) (c : RingCall), rb.size = n →
      ringAnswer rb c = Fifo.answer (n - 1) rb.contents c := by
    rintro rb c rfl
    exact ringAnswer_eq rb c
  have hnil := contents_ringbuffInit n hn
  have hinputs : Along ringStep (fun _ c => ringLen c ≤ 1073741824) (ringbuffInit n hn) calls :=
    along_of_forall hlen
  refine ⟨?_, ?_, ?_, ?_⟩
  · rw [run_refines hstep hsim calls rfl, hnil]
  · rw [trace_refines hstep hsim hanswer calls rfl, hnil]
  · exact throughout_of_step (fun rb c h _ => hstep rb c h) (fun rb h => ringFacts h)
      hinputs rfl
  · exact along_of_invariant (fun rb c h _ => hstep rb c h)
      (fun rb c h hc => fitsInt_ints (by rw [h]; exact hmax) hc) hinputs rfl

/-- A ring of four bytes, written past its end and read round it. -/
theorem ring_refines_fifo_wrapped :
    trace ringStep ringAnswer (ringbuffInit 4 (by decide))
        [.write [1, 2], .read 1, .write [3, 4, 5], .read 9]
      = [.count 2, .elems [1], .count 2, .elems [2, 3, 4]] :=
  (ring_refines_fifo (by decide) (by decide)
    [.write [1, 2], .read 1, .write [3, 4, 5], .read 9] (by decide)).2.1

end Training.Udp
