/-
Training.Udp.RingBufferTheorems — the ring buffer is a bounded byte
queue.

`Ringbuffer.contents` is the queue a ring stands for: the bytes from
`rdPoint` on, round the end of the storage, up to `wrPoint`. A write
appends the longest prefix of its argument that fits in the free size
(`contents_ringbuffWrite`, `ringbuffWrite_count`), a read takes its
bytes from the front (`ringbuffRead_bytes`, `contents_ringbuffRead`),
and the sizes the code computes are the queue's
(`length_contents`, `dataSize_add_freeSize`).

Both operations copy in one piece or in two. `ringIndex_cases` names the
two positions a byte of the queue can have, and the rest is arithmetic
on them.
-/
import Training.Udp.RingBuffer

namespace Training.Udp

/-! ## The queue a ring stands for -/

/-- The offset of the `i`-th byte after `rdPoint`. -/
def ringIndex (rb : Ringbuffer) (i : Nat) : Nat :=
  (rb.rdPoint + i) % rb.size

def Ringbuffer.contents (rb : Ringbuffer) : List UInt8 :=
  (List.range (ringbuffDataSize rb)).map fun i => rb.buffer (ringIndex rb i)

@[simp] theorem length_contents (rb : Ringbuffer) :
    rb.contents.length = ringbuffDataSize rb := by
  simp [Ringbuffer.contents]

theorem getElem_contents (rb : Ringbuffer) (i : Nat) (h : i < rb.contents.length) :
    rb.contents[i] = rb.buffer (ringIndex rb i) := by
  simp [Ringbuffer.contents]

/-- A byte of the queue lies after `rdPoint`, or wrapped round the end. -/
theorem ringIndex_cases (rb : Ringbuffer) {i : Nat} (h : i < rb.size) :
    (ringIndex rb i = rb.rdPoint + i ∧ rb.rdPoint + i < rb.size) ∨
      (ringIndex rb i + rb.size = rb.rdPoint + i) := by
  have hr := rb.rd_lt
  unfold ringIndex
  by_cases hlt : rb.rdPoint + i < rb.size
  · exact Or.inl ⟨Nat.mod_eq_of_lt hlt, hlt⟩
  · right
    have hsub : rb.rdPoint + i - rb.size < rb.size := by omega
    rw [Nat.mod_eq_sub_mod (by omega), Nat.mod_eq_of_lt hsub]
    omega

theorem ringIndex_lt (rb : Ringbuffer) (i : Nat) : ringIndex rb i < rb.size :=
  Nat.mod_lt _ (by have := rb.wr_lt; omega)

/-- The queue runs from `rdPoint` up to `wrPoint`, or round the end. -/
theorem dataSize_cases (rb : Ringbuffer) :
    (rb.rdPoint ≤ rb.wrPoint ∧ ringbuffDataSize rb + rb.rdPoint = rb.wrPoint) ∨
      (rb.wrPoint < rb.rdPoint ∧ ringbuffDataSize rb + rb.rdPoint = rb.wrPoint + rb.size) := by
  have hr := rb.rd_lt
  unfold ringbuffDataSize
  split <;> omega

@[simp] theorem contents_ringbuffInit (size : Nat) (h : 0 < size) :
    (ringbuffInit size h).contents = [] := by
  simp [Ringbuffer.contents, ringbuffDataSize, ringbuffInit]

theorem dataSize_add_freeSize (rb : Ringbuffer) :
    ringbuffDataSize rb + ringbuffFreeSize rb = rb.size - 1 := by
  have := ringbuffDataSize_lt rb
  unfold ringbuffFreeSize
  omega

/-! ## `memcpy` -/

theorem memcpy_of_lt {buffer : Nat → UInt8} {point i : Nat} {src : List UInt8}
    (h : i < point) : memcpy buffer point src i = buffer i := by
  simp [memcpy, Nat.not_le.mpr h]

theorem memcpy_of_ge {buffer : Nat → UInt8} {point i : Nat} {src : List UInt8}
    (h : point + src.length ≤ i) : memcpy buffer point src i = buffer i := by
  have hnone : src[i - point]? = none := List.getElem?_eq_none (by omega)
  simp [memcpy, hnone]

theorem memcpy_of_mem {buffer : Nat → UInt8} {point i : Nat} {src : List UInt8}
    (hp : point ≤ i) (h : i - point < src.length) :
    memcpy buffer point src i = src[i - point] := by
  simp [memcpy, hp, h]

theorem getElem_bytesAt (buffer : Nat → UInt8) (point n i : Nat)
    (h : i < (bytesAt buffer point n).length) :
    (bytesAt buffer point n)[i] = buffer (point + i) := by
  simp [bytesAt]

/-! ## Writing -/

@[simp] theorem ringbuffWrite_size (rb : Ringbuffer) (buff : List UInt8) :
    (ringbuffWrite rb buff).1.size = rb.size := by
  unfold ringbuffWrite
  dsimp only
  split <;> rfl

@[simp] theorem ringbuffWrite_rdPoint (rb : Ringbuffer) (buff : List UInt8) :
    (ringbuffWrite rb buff).1.rdPoint = rb.rdPoint := by
  unfold ringbuffWrite
  dsimp only
  split <;> rfl

/-- The count a write returns: everything, or what fits. -/
theorem ringbuffWrite_count (rb : Ringbuffer) (buff : List UInt8) :
    (ringbuffWrite rb buff).2 = min buff.length (ringbuffFreeSize rb) := by
  have hw := rb.wr_lt
  have hlen := truncateLen_eq_min buff.length (ringbuffFreeSize rb)
  unfold ringbuffWrite
  dsimp only
  split
  · dsimp only
    omega
  · exact hlen

/-- The bytes past the free size are never looked at. -/
theorem ringbuffWrite_congr (rb : Ringbuffer) {buff buff' : List UInt8}
    (h : buff.take (ringbuffFreeSize rb) = buff'.take (ringbuffFreeSize rb)) :
    ringbuffWrite rb buff = ringbuffWrite rb buff' := by
  have hlen : truncateLen buff.length (ringbuffFreeSize rb)
      = truncateLen buff'.length (ringbuffFreeSize rb) := by
    have := congrArg List.length h
    rw [truncateLen_eq_min, truncateLen_eq_min]
    simpa [Nat.min_comm] using this
  have htake : ∀ n, n ≤ ringbuffFreeSize rb → buff.take n = buff'.take n := by
    intro n hn
    have := congrArg (List.take n) h
    rwa [List.take_take, List.take_take, Nat.min_eq_left hn] at this
  have hfit := truncateLen_le buff'.length (ringbuffFreeSize rb)
  have hw := rb.wr_lt
  simp only [ringbuffWrite, hlen]
  split
  · have hfirst : rb.size - rb.wrPoint ≤ truncateLen buff'.length (ringbuffFreeSize rb) := by
      omega
    simp only [← List.drop_take, htake _ hfit, htake _ (Nat.le_trans hfirst hfit)]
  · simp only [htake _ hfit]

/-- Where the write pointer stands after `n` more bytes. -/
theorem ringbuffWrite_wrPoint (rb : Ringbuffer) (buff : List UInt8) :
    (ringbuffWrite rb buff).1.wrPoint
      = if rb.wrPoint + (ringbuffWrite rb buff).2 < rb.size
        then rb.wrPoint + (ringbuffWrite rb buff).2
        else rb.wrPoint + (ringbuffWrite rb buff).2 - rb.size := by
  have hw := rb.wr_lt
  have hle := truncateLen_le buff.length (ringbuffFreeSize rb)
  unfold ringbuffWrite
  dsimp only
  split
  · dsimp only
    split <;> omega
  · dsimp only
    split <;> omega

theorem ringbuffWrite_dataSize (rb : Ringbuffer) (buff : List UInt8) :
    ringbuffDataSize (ringbuffWrite rb buff).1
      = ringbuffDataSize rb + (ringbuffWrite rb buff).2 := by
  have hcount := ringbuffWrite_count rb buff
  have hsum := dataSize_add_freeSize rb
  have hw := rb.wr_lt
  have hr := rb.rd_lt
  have hold := dataSize_cases rb
  have hnew := dataSize_cases (ringbuffWrite rb buff).1
  have hbound := ringbuffDataSize_lt (ringbuffWrite rb buff).1
  rw [ringbuffWrite_wrPoint, ringbuffWrite_rdPoint, ringbuffWrite_size] at hnew
  rw [ringbuffWrite_size] at hbound
  split_ifs at hnew <;> omega

/-- A write leaves the bytes of the queue where they are. -/
theorem buffer_ringbuffWrite_old (rb : Ringbuffer) (buff : List UInt8) {i : Nat}
    (hi : i < ringbuffDataSize rb) :
    (ringbuffWrite rb buff).1.buffer (ringIndex rb i) = rb.buffer (ringIndex rb i) := by
  have hw := rb.wr_lt
  have hr := rb.rd_lt
  have hsize := ringbuffDataSize_lt rb
  have hlen := truncateLen_le buff.length (ringbuffFreeSize rb)
  have hsum := dataSize_add_freeSize rb
  have hcase := dataSize_cases rb
  have hpos := ringIndex_cases rb (i := i) (by omega)
  have hlt := ringIndex_lt rb i
  unfold ringbuffWrite
  dsimp only
  split
  · -- the second piece ends before `rdPoint`, the first starts after the queue
    dsimp only
    rw [memcpy_of_ge, memcpy_of_lt]
    · omega
    · simp only [List.length_take, List.length_drop]
      omega
  · dsimp only
    by_cases hbefore : ringIndex rb i < rb.wrPoint
    · exact memcpy_of_lt hbefore
    · rw [memcpy_of_ge]
      simp only [List.length_take]
      omega

/-- A write stores its bytes right after the queue. -/
theorem buffer_ringbuffWrite_new (rb : Ringbuffer) (buff : List UInt8) {j : Nat}
    (hj : j < (ringbuffWrite rb buff).2) (hb : j < buff.length) :
    (ringbuffWrite rb buff).1.buffer (ringIndex rb (ringbuffDataSize rb + j)) = buff[j] := by
  have hw := rb.wr_lt
  have hr := rb.rd_lt
  have hcount := ringbuffWrite_count rb buff
  have hlen := truncateLen_eq_min buff.length (ringbuffFreeSize rb)
  have hsum := dataSize_add_freeSize rb
  have hpos := ringIndex_cases rb (i := ringbuffDataSize rb + j) (by omega)
  have hlt := ringIndex_lt rb (ringbuffDataSize rb + j)
  -- the byte's offset is `wrPoint + j`, or that less `size`
  have hoff : (ringIndex rb (ringbuffDataSize rb + j) = rb.wrPoint + j ∧
        rb.wrPoint + j < rb.size) ∨
      (ringIndex rb (ringbuffDataSize rb + j) + rb.size = rb.wrPoint + j) := by
    have hcase := dataSize_cases rb
    omega
  generalize ringIndex rb (ringbuffDataSize rb + j) = k at hoff hlt ⊢
  unfold ringbuffWrite
  dsimp only
  split
  · dsimp only
    rcases hoff with ⟨hk, hin⟩ | hk
    · rw [memcpy_of_ge, memcpy_of_mem (by omega)]
      · rw [List.getElem_take]
        congr 1
        omega
      · simp only [List.length_take]
        omega
      · simp only [List.length_take, List.length_drop]
        omega
    · rw [memcpy_of_mem (Nat.zero_le _)]
      · rw [List.getElem_take, List.getElem_drop]
        congr 1
        omega
      · simp only [List.length_take, List.length_drop]
        omega
  · dsimp only
    rw [memcpy_of_mem (by omega)]
    · rw [List.getElem_take]
      congr 1
      omega
    · simp only [List.length_take]
      omega

/-- A write appends what fits to the queue. -/
theorem contents_ringbuffWrite (rb : Ringbuffer) (buff : List UInt8) :
    (ringbuffWrite rb buff).1.contents
      = rb.contents ++ buff.take (ringbuffWrite rb buff).2 := by
  have hcount := ringbuffWrite_count rb buff
  have hindex : ∀ i, ringIndex (ringbuffWrite rb buff).1 i = ringIndex rb i := by
    intro i
    simp [ringIndex]
  refine List.ext_getElem ?_ ?_
  · simp only [length_contents, List.length_append, List.length_take,
      ringbuffWrite_dataSize]
    omega
  · intro i h1 h2
    rw [getElem_contents, hindex]
    by_cases hi : i < rb.contents.length
    · rw [List.getElem_append_left hi, getElem_contents]
      exact buffer_ringbuffWrite_old rb buff (by simpa using hi)
    · rw [List.getElem_append_right (by omega), List.getElem_take]
      simp only [length_contents] at hi h1 ⊢
      rw [ringbuffWrite_dataSize] at h1
      obtain ⟨j, rfl⟩ : ∃ j, i = ringbuffDataSize rb + j := ⟨i - ringbuffDataSize rb, by omega⟩
      rw [buffer_ringbuffWrite_new rb buff (j := j) (by omega) (by omega)]
      congr 1
      omega

/-! ## Reading -/

@[simp] theorem ringbuffRead_size (rb : Ringbuffer) (len : Nat) :
    (ringbuffRead rb len).1.size = rb.size := by
  unfold ringbuffRead
  dsimp only
  split <;> rfl

@[simp] theorem ringbuffRead_wrPoint (rb : Ringbuffer) (len : Nat) :
    (ringbuffRead rb len).1.wrPoint = rb.wrPoint := by
  unfold ringbuffRead
  dsimp only
  split <;> rfl

@[simp] theorem ringbuffRead_buffer (rb : Ringbuffer) (len : Nat) :
    (ringbuffRead rb len).1.buffer = rb.buffer := by
  unfold ringbuffRead
  dsimp only
  split <;> rfl

/-- Where the read pointer stands: the offset of the first byte left. -/
theorem ringbuffRead_rdPoint (rb : Ringbuffer) (len : Nat) :
    (ringbuffRead rb len).1.rdPoint = ringIndex rb (min len (ringbuffDataSize rb)) := by
  have hr := rb.rd_lt
  have hsize := ringbuffDataSize_lt rb
  have hlen := truncateLen_eq_min len (ringbuffDataSize rb)
  have hpos := ringIndex_cases rb (i := min len (ringbuffDataSize rb)) (by omega)
  have hlt := ringIndex_lt rb (min len (ringbuffDataSize rb))
  unfold ringbuffRead
  dsimp only
  split
  · dsimp only
    omega
  · dsimp only
    omega

theorem ringbuffRead_dataSize (rb : Ringbuffer) (len : Nat) :
    ringbuffDataSize (ringbuffRead rb len).1 = ringbuffDataSize rb - len := by
  have hr := rb.rd_lt
  have hw := rb.wr_lt
  have hsize := ringbuffDataSize_lt rb
  have hpos := ringIndex_cases rb (i := min len (ringbuffDataSize rb)) (by omega)
  have hlt := ringIndex_lt rb (min len (ringbuffDataSize rb))
  have hold := dataSize_cases rb
  have hnew := dataSize_cases (ringbuffRead rb len).1
  have hbound := ringbuffDataSize_lt (ringbuffRead rb len).1
  rw [ringbuffRead_rdPoint, ringbuffRead_wrPoint, ringbuffRead_size] at hnew
  rw [ringbuffRead_size] at hbound
  omega

/-- A read takes its bytes from the front of the queue. -/
theorem ringbuffRead_bytes (rb : Ringbuffer) (len : Nat) :
    (ringbuffRead rb len).2 = rb.contents.take len := by
  have hr := rb.rd_lt
  have hsize := ringbuffDataSize_lt rb
  have hlen := truncateLen_eq_min len (ringbuffDataSize rb)
  unfold ringbuffRead
  dsimp only
  split
  · refine List.ext_getElem ?_ ?_
    · simp only [List.length_append, length_bytesAt, List.length_take, length_contents]
      omega
    · intro i h1 h2
      have hpos := ringIndex_cases rb (i := i)
        (by simp only [List.length_take, length_contents] at h2; omega)
      rw [List.getElem_take, getElem_contents]
      by_cases hi : i < rb.size - rb.rdPoint
      · rw [List.getElem_append_left (by simpa using hi), getElem_bytesAt]
        congr 1
        omega
      · rw [List.getElem_append_right (by simpa using hi), getElem_bytesAt]
        congr 1
        simp only [length_bytesAt]
        have hlt := ringIndex_lt rb i
        omega
  · refine List.ext_getElem ?_ ?_
    · simp only [length_bytesAt, List.length_take, length_contents]
      omega
    · intro i h1 h2
      have hpos := ringIndex_cases rb (i := i)
        (by simp only [List.length_take, length_contents] at h2; omega)
      rw [List.getElem_take, getElem_contents, getElem_bytesAt]
      simp only [length_bytesAt] at h1
      congr 1
      omega

theorem contents_ringbuffRead (rb : Ringbuffer) (len : Nat) :
    (ringbuffRead rb len).1.contents = rb.contents.drop len := by
  have hsize := ringbuffDataSize_lt rb
  have hr := rb.rd_lt
  refine List.ext_getElem ?_ ?_
  · simp only [length_contents, List.length_drop, ringbuffRead_dataSize]
  · intro i h1 h2
    simp only [length_contents, ringbuffRead_dataSize] at h1
    rw [getElem_contents, List.getElem_drop, getElem_contents, ringbuffRead_buffer]
    have hmin : min len (ringbuffDataSize rb) = len := by omega
    have hread : ringIndex (ringbuffRead rb len).1 i = (ringIndex rb len + i) % rb.size := by
      unfold ringIndex
      rw [ringbuffRead_rdPoint, ringbuffRead_size, hmin]
      rfl
    rw [hread]
    unfold ringIndex
    rw [Nat.mod_add_mod, Nat.add_assoc]

end Training.Udp
