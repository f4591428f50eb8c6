/-
Training.Udp.SharedRingTheorems — one writer and one reader need no lock.

Byte `k` of the stream lives in cell `k % size`, and the two pointers are
the two stream positions `accepted.length` and `returned.length` modulo
the size. In these terms the invariant survives every preemption point:

* what a thread has loaded of the other's pointer is a position that was
  right once, and positions only grow, so the room a writer counted on and
  the data a reader counted on are still there (`WriterInv.mono`,
  `ReaderInv.mono`);
* the bytes between the positions are in their cells, and the cells a
  writer stores into are at less than `size` positions from the reader's.

`sound_of_size` is the result for rings of up to 2^30 bytes, and
`overflow_largeRing` is why there is a bound.
-/
import Training.Udp.SharedRing

namespace Training.Udp

open Training.Lib

/-! ## Positions modulo the size -/

theorem mod_ne_mod {a b n : Nat} (hab : a < b) (hbn : b < a + n) : a % n ≠ b % n := by
  intro heq
  have hdvd : n ∣ b - a := Nat.dvd_of_mod_eq_zero (Nat.sub_mod_eq_zero_of_mod_eq heq.symm)
  have hle := Nat.le_of_dvd (by omega) hdvd
  omega

theorem mod_add_cases {a n : Nat} (hn : 0 < n) {d : Nat} (hd : d < n) :
    (a + d) % n = if a % n + d < n then a % n + d else a % n + d - n := by
  have ha := Nat.mod_lt a hn
  rw [← Nat.mod_add_mod]
  split
  · exact Nat.mod_eq_of_lt ‹_›
  · rw [Nat.mod_eq_sub_mod (by omega), Nat.mod_eq_of_lt (by omega)]

theorem loadedDataSize_mod {a r n : Nat} (hn : 0 < n) (hra : r ≤ a) (har : a < r + n) :
    loadedDataSize n (a % n) (r % n) = a - r := by
  have hr := Nat.mod_lt r hn
  have ha : a % n = (r + (a - r)) % n := by rw [Nat.add_sub_cancel' hra]
  rw [mod_add_cases hn (by omega : a - r < n)] at ha
  unfold loadedDataSize
  split at ha <;> split <;> omega

theorem copyIndex_mod {a n len i : Nat} (hn : 0 < n) (hlen : len < n) (hi : i < len) :
    copyIndex n (a % n) len i = (a + i) % n := by
  have ha := Nat.mod_lt a hn
  rw [mod_add_cases hn (by omega : i < n)]
  unfold copyIndex
  split <;> split <;> omega

theorem copyEnd_mod {a n len : Nat} (hn : 0 < n) (hlen : len < n) :
    copyEnd n (a % n) len = (a + len) % n := by
  have ha := Nat.mod_lt a hn
  rw [mod_add_cases hn hlen]
  unfold copyEnd
  split <;> split <;> omega

/-! ## The invariant -/

/-- What the writer's locals mean, `a` bytes accepted and `r` returned. -/
def WriterInv (n a r : Nat) (buffer : Nat → UInt8) : Writer → Prop
  | .checkRd _ wr => wr = a % n
  | .sizeRd _ wr => wr = a % n
  | .point _ len => a + len < r + n
  | .copy req len point done =>
      point = a % n ∧ a + len < r + n ∧ done ≤ len ∧
        ∀ i, i < done → buffer ((a + i) % n) = req.buff i
  | _ => True

/-- What the reader's locals mean. A `wr_point` it holds may be old. -/
def ReaderInv (n r : Nat) (accepted : List UInt8) : Reader → Prop
  | .waitRd _ wr => ∃ a, wr = a % n ∧ r ≤ a ∧ a ≤ accepted.length
  | .sizeRd _ wr => ∃ a, wr = a % n ∧ r ≤ a ∧ a ≤ accepted.length
  | .point len => r + len ≤ accepted.length
  | .copy len point done =>
      point = r % n ∧ r + len ≤ accepted.length ∧ done.length ≤ len ∧
        done <+: accepted.drop r
  | _ => True

/-- The reader moving on leaves the writer its room. -/
theorem WriterInv.mono {n a r r' : Nat} {buffer : Nat → UInt8} {w : Writer}
    (h : WriterInv n a r buffer w) (hr : r ≤ r') : WriterInv n a r' buffer w := by
  cases w with
  | point req len =>
    simp only [WriterInv] at h ⊢
    omega
  | copy req len point done =>
    obtain ⟨hpoint, hroom, hdone, hbytes⟩ := h
    exact ⟨hpoint, by omega, hdone, hbytes⟩
  | idle => exact h
  | checkWr req => exact h
  | checkRd req wr => exact h
  | sizeWr req => exact h
  | sizeRd req wr => exact h

/-- The writer's publishing leaves the reader its data. -/
theorem ReaderInv.mono {n r : Nat} {accepted more : List UInt8} {rd : Reader}
    (h : ReaderInv n r accepted rd) : ReaderInv n r (accepted ++ more) rd := by
  have hle : accepted.length ≤ (accepted ++ more).length := by simp
  cases rd with
  | waitRd req wr =>
    obtain ⟨a, hwr, hra, ha⟩ := h
    exact ⟨a, hwr, hra, Nat.le_trans ha hle⟩
  | sizeRd req wr =>
    obtain ⟨a, hwr, hra, ha⟩ := h
    exact ⟨a, hwr, hra, Nat.le_trans ha hle⟩
  | point len => exact Nat.le_trans h hle
  | copy len point done =>
    obtain ⟨hpoint, hdata, hdone, hprefix⟩ := h
    refine ⟨hpoint, Nat.le_trans hdata hle, hdone, ?_⟩
    rw [List.drop_append_of_le_length (by omega)]
    exact hprefix.trans (List.prefix_append _ _)
  | idle => exact h
  | waitWr req => exact h
  | sizeWr req => exact h

structure SharedRing.Inv (n : Nat) (s : SharedRing) : Prop where
  size : s.cells.size = n
  noOverflow : s.overflow = false
  wr : s.cells.wrPoint = s.accepted.length % n
  rd : s.cells.rdPoint = s.returned.length % n
  room : s.accepted.length < s.returned.length + n
  returned : s.returned <+: s.accepted
  cells : ∀ k, s.returned.length ≤ k → k < s.accepted.length →
    s.accepted[k]? = some (s.cells.buffer (k % n))
  writer : WriterInv n s.accepted.length s.returned.length s.cells.buffer s.writer
  reader : ReaderInv n s.returned.length s.accepted s.reader

variable {n : Nat} {s : SharedRing}

theorem SharedRing.Inv.le (h : s.Inv n) : s.returned.length ≤ s.accepted.length :=
  h.returned.length_le

theorem SharedRing.Inv.pos (h : s.Inv n) : 0 < n := by
  have := h.le
  have := h.room
  omega

theorem SharedRing.inv_init (hn : 0 < n) (writes : List WriteRequest)
    (reads : List ReadRequest) : (SharedRing.init n writes reads).Inv n where
  size := rfl
  noOverflow := rfl
  wr := (Nat.zero_mod n).symm
  rd := (Nat.zero_mod n).symm
  room := by simpa [SharedRing.init] using hn
  returned := List.nil_prefix
  cells := by
    intro k _ hk
    exact absurd hk (Nat.not_lt_zero k)
  writer := trivial
  reader := trivial

/-! ## The writer's steps -/

/-- A step that only moves the writer on. -/
theorem SharedRing.Inv.setWriter (h : s.Inv n) (writes : List WriteRequest) {w : Writer}
    (hw : WriterInv n s.accepted.length s.returned.length s.cells.buffer w) :
    ({ s with writes, writer := w } : SharedRing).Inv n :=
  ⟨h.size, h.noOverflow, h.wr, h.rd, h.room, h.returned, h.cells, hw, h.reader⟩

theorem SharedRing.Inv.loadedFree (h : s.Inv n) {wr : Nat} (hwr : wr = s.accepted.length % n) :
    loadedFreeSize s.cells.size wr s.cells.rdPoint
      = n - 1 - (s.accepted.length - s.returned.length) := by
  rw [hwr, h.rd, h.size, loadedFreeSize, loadedDataSize_mod h.pos h.le h.room]

/-- Storing byte `done` of a write leaves what is still to be read alone. -/
theorem SharedRing.Inv.storeByte (h : s.Inv n) {req : WriteRequest} {len point done : Nat}
    (hw : WriterInv n s.accepted.length s.returned.length s.cells.buffer
      (.copy req len point done)) (hlt : done < len) :
    ({ s with
        cells := { s.cells with
          buffer := setByte s.cells.buffer (copyIndex s.cells.size point len done)
            (req.buff done) }
        writer := .copy req len point (done + 1) } : SharedRing).Inv n := by
  obtain ⟨hpoint, hroom, hdone, hbytes⟩ := hw
  have hle := h.le
  have hindex : copyIndex s.cells.size point len done = (s.accepted.length + done) % n := by
    rw [h.size, hpoint, copyIndex_mod h.pos (by omega) hlt]
  refine ⟨h.size, h.noOverflow, h.wr, h.rd, h.room, h.returned, ?_, ?_, h.reader⟩
  · show ∀ k, s.returned.length ≤ k → k < s.accepted.length →
      s.accepted[k]? = some (setByte _ _ _ _)
    intro k hr hk
    have hne : k % n ≠ (s.accepted.length + done) % n := mod_ne_mod (by omega) (by omega)
    rw [hindex, setByte, if_neg hne]
    exact h.cells k hr hk
  · refine ⟨hpoint, hroom, hlt, ?_⟩
    intro i hi
    show setByte _ _ _ _ = _
    rw [hindex, setByte]
    by_cases heq : i = done
    · rw [heq, if_pos rfl]
    · have hne : (s.accepted.length + i) % n ≠ (s.accepted.length + done) % n :=
        mod_ne_mod (by omega) (by omega)
      rw [if_neg hne]
      exact hbytes i (by omega)

/-- Publishing `wr_point` hands the bytes of the write over. -/
theorem SharedRing.Inv.publishWrite (h : s.Inv n) {req : WriteRequest} {len point done : Nat}
    (hw : WriterInv n s.accepted.length s.returned.length s.cells.buffer
      (.copy req len point done)) (hlt : ¬ done < len) :
    ({ s with
        cells := { s.cells with wrPoint := copyEnd s.cells.size point len }
        accepted := s.accepted ++ req.bytes len
        writer := .idle } : SharedRing).Inv n := by
  obtain ⟨hpoint, hroom, hdone, hbytes⟩ := hw
  have hle := h.le
  have hlen : (req.bytes len).length = len := by simp [WriteRequest.bytes]
  refine ⟨h.size, h.noOverflow, ?_, h.rd, ?_, ?_, ?_, trivial, h.reader.mono⟩
  · show copyEnd s.cells.size point len = (s.accepted ++ req.bytes len).length % n
    rw [h.size, hpoint, copyEnd_mod h.pos (by omega), List.length_append, hlen]
  · show (s.accepted ++ req.bytes len).length < _
    rw [List.length_append, hlen]
    exact hroom
  · exact h.returned.trans (List.prefix_append _ _)
  · show ∀ k, s.returned.length ≤ k → k < (s.accepted ++ req.bytes len).length →
      (s.accepted ++ req.bytes len)[k]? = some (s.cells.buffer (k % n))
    intro k hr hk
    rw [List.length_append, hlen] at hk
    by_cases hold : k < s.accepted.length
    · rw [List.getElem?_append_left hold]
      exact h.cells k hr hold
    · have hbyte := hbytes (k - s.accepted.length) (by omega)
      rw [Nat.add_sub_cancel' (by omega)] at hbyte
      have hlast : k - s.accepted.length < len := by omega
      rw [List.getElem?_append_right (by omega), hbyte]
      simp [WriteRequest.bytes, hlast]

theorem SharedRing.Inv.writerStep (h : s.Inv n) (hmax : n ≤ 1073741824) :
    s.writerStep.Inv n := by
  have hw := h.writer
  have hle := h.le
  have hroom := h.room
  unfold SharedRing.writerStep
  cases hwriter : s.writer with
  | idle =>
    cases hwrites : s.writes with
    | nil => exact h
    | cons r writes =>
      refine h.setWriter writes ?_
      cases r.checked with
      | false => trivial
      | true => trivial
  | checkWr r => exact h.setWriter s.writes h.wr
  | checkRd r wr =>
    dsimp only
    split
    · exact h.setWriter s.writes trivial
    · exact h.setWriter s.writes trivial
  | sizeWr r => exact h.setWriter s.writes h.wr
  | sizeRd r wr =>
    rw [hwriter] at hw
    refine h.setWriter s.writes ?_
    have hcut := truncateLen_le r.len (loadedFreeSize s.cells.size wr s.cells.rdPoint)
    rw [h.loadedFree hw] at hcut ⊢
    show _ < _
    omega
  | point r len =>
    rw [hwriter] at hw
    have hlen : s.accepted.length + len < s.returned.length + n := hw
    have hpoint := Nat.mod_lt s.accepted.length h.pos
    have hfits : ¬ s.cells.wrPoint + len > intMax := by
      rw [h.wr, intMax]
      omega
    dsimp only
    rw [if_neg hfits]
    refine h.setWriter s.writes ⟨h.wr, hlen, Nat.zero_le _, ?_⟩
    intro i hi
    exact absurd hi (Nat.not_lt_zero i)
  | copy r len point done =>
    rw [hwriter] at hw
    dsimp only
    split
    · exact h.storeByte hw ‹_›
    · exact h.publishWrite hw ‹_›

/-! ## The reader's steps -/

theorem prefix_concat {α : Type} {done l : List α} {x : α} (h : done <+: l)
    (hx : l[done.length]? = some x) : done ++ [x] <+: l := by
  obtain ⟨rest, rfl⟩ := h
  rw [List.getElem?_append_right (Nat.le_refl _), Nat.sub_self] at hx
  cases rest with
  | nil => simp at hx
  | cons y ys =>
    rw [List.getElem?_cons_zero, Option.some.injEq] at hx
    exact ⟨ys, by rw [hx, List.append_assoc, List.singleton_append]⟩

theorem prefix_append_drop {α : Type} {read done l : List α} (h : read <+: l)
    (hdone : done <+: l.drop read.length) : read ++ done <+: l := by
  obtain ⟨rest, rfl⟩ := h
  rw [List.drop_left] at hdone
  exact (List.prefix_append_right_inj read).mpr hdone

/-- A step that only moves the reader on. -/
theorem SharedRing.Inv.setReader (h : s.Inv n) (reads : List ReadRequest) {rd : Reader}
    (hr : ReaderInv n s.returned.length s.accepted rd) :
    ({ s with reads, reader := rd } : SharedRing).Inv n :=
  ⟨h.size, h.noOverflow, h.wr, h.rd, h.room, h.returned, h.cells, h.writer, hr⟩

/-- A `wr_point` loaded now is at the end of the stream. -/
theorem SharedRing.Inv.loadedWr (h : s.Inv n) :
    ∃ a, s.cells.wrPoint = a % n ∧ s.returned.length ≤ a ∧ a ≤ s.accepted.length :=
  ⟨s.accepted.length, h.wr, h.le, Nat.le_refl _⟩

/-- Counted with an old `wr_point`, the data is there. -/
theorem SharedRing.Inv.loadedData (h : s.Inv n) {wr : Nat}
    (hwr : ∃ a, wr = a % n ∧ s.returned.length ≤ a ∧ a ≤ s.accepted.length) :
    s.returned.length + loadedDataSize s.cells.size wr s.cells.rdPoint
      ≤ s.accepted.length := by
  obtain ⟨a, rfl, hra, ha⟩ := hwr
  have hroom := h.room
  rw [h.size, h.rd, loadedDataSize_mod h.pos hra (by omega)]
  omega

/-- The cell of the next byte to read. -/
theorem SharedRing.Inv.loadByte (h : s.Inv n) {len point : Nat} {done : List UInt8}
    (hr : ReaderInv n s.returned.length s.accepted (.copy len point done))
    (hlt : done.length < len) :
    copyIndex s.cells.size point len done.length = (s.returned.length + done.length) % n ∧
      s.accepted[s.returned.length + done.length]?
        = some (s.cells.buffer ((s.returned.length + done.length) % n)) := by
  obtain ⟨hpoint, hdata, hdone, hprefix⟩ := hr
  have hroom := h.room
  refine ⟨?_, h.cells _ (by omega) (by omega)⟩
  rw [h.size, hpoint, copyIndex_mod h.pos (by omega) hlt]

theorem SharedRing.Inv.readByte (h : s.Inv n) {len point : Nat} {done : List UInt8}
    (hr : ReaderInv n s.returned.length s.accepted (.copy len point done))
    (hlt : done.length < len) :
    ReaderInv n s.returned.length s.accepted
      (.copy len point
        (done ++ [s.cells.buffer (copyIndex s.cells.size point len done.length)])) := by
  obtain ⟨hindex, hbyte⟩ := h.loadByte hr hlt
  obtain ⟨hpoint, hdata, hdone, hprefix⟩ := hr
  refine ⟨hpoint, hdata, ?_, ?_⟩
  · rw [List.length_append, List.length_singleton]
    exact hlt
  · rw [hindex]
    have hnext : (s.accepted.drop s.returned.length)[done.length]?
        = some (s.cells.buffer ((s.returned.length + done.length) % n)) := by
      rw [List.getElem?_drop]
      exact hbyte
    exact prefix_concat hprefix hnext

/-- Publishing `rd_point` gives the cells that were read back. -/
theorem SharedRing.Inv.publishRead (h : s.Inv n) {len point : Nat} {done : List UInt8}
    (hr : ReaderInv n s.returned.length s.accepted (.copy len point done))
    (hlt : ¬ done.length < len) :
    ({ s with
        cells := { s.cells with rdPoint := copyEnd s.cells.size point len }
        returned := s.returned ++ done
        reader := .idle } : SharedRing).Inv n := by
  obtain ⟨hpoint, hdata, hdone, hprefix⟩ := hr
  have hroom := h.room
  have hlen : done.length = len := by omega
  have hgrow : s.returned.length ≤ (s.returned ++ done).length := by simp
  refine ⟨h.size, h.noOverflow, h.wr, ?_, ?_, ?_, ?_, h.writer.mono hgrow, trivial⟩
  · show copyEnd s.cells.size point len = (s.returned ++ done).length % n
    rw [h.size, hpoint, copyEnd_mod h.pos (by omega), List.length_append, hlen]
  · show s.accepted.length < (s.returned ++ done).length + n
    omega
  · exact prefix_append_drop h.returned hprefix
  · show ∀ k, (s.returned ++ done).length ≤ k → k < s.accepted.length →
      s.accepted[k]? = some (s.cells.buffer (k % n))
    intro k hk hlt'
    exact h.cells k (by omega) hlt'

theorem SharedRing.Inv.readerStep (h : s.Inv n) (hmax : n ≤ 1073741824) :
    s.readerStep.Inv n := by
  have hr := h.reader
  have hroom := h.room
  unfold SharedRing.readerStep
  cases hreader : s.reader with
  | idle =>
    cases hreads : s.reads with
    | nil => exact h
    | cons r reads =>
      refine h.setReader reads ?_
      cases r.checked with
      | false => trivial
      | true => trivial
  | waitWr r => exact h.setReader s.reads h.loadedWr
  | waitRd r wr =>
    dsimp only
    split
    · exact h.setReader s.reads trivial
    · exact h.setReader s.reads trivial
  | sizeWr r => exact h.setReader s.reads h.loadedWr
  | sizeRd r wr =>
    rw [hreader] at hr
    have hcut := truncateLen_le r.len (loadedDataSize s.cells.size wr s.cells.rdPoint)
    have hdata := h.loadedData hr
    refine h.setReader s.reads ?_
    show _ ≤ _
    omega
  | point len =>
    rw [hreader] at hr
    have hlen : s.returned.length + len ≤ s.accepted.length := hr
    have hpoint := Nat.mod_lt s.returned.length h.pos
    have hfits : ¬ s.cells.rdPoint + len > intMax := by
      rw [h.rd, intMax]
      omega
    dsimp only
    rw [if_neg hfits]
    exact h.setReader s.reads ⟨h.rd, hlen, Nat.zero_le _, List.nil_prefix⟩
  | copy len point done =>
    rw [hreader] at hr
    dsimp only
    split
    · exact h.setReader s.reads (h.readByte hr ‹_›)
    · exact h.publishRead hr ‹_›

/-! ## Every interleaving -/

theorem SharedRing.Inv.step (h : s.Inv n) (hmax : n ≤ 1073741824) (t : RingThread) :
    (s.step t).Inv n := by
  unfold SharedRing.step
  split
  · exact h
  · cases t with
    | writer => exact h.writerStep hmax
    | reader => exact h.readerStep hmax

theorem SharedRing.Inv.sound (h : s.Inv n) : s.Sound where
  noOverflow := h.noOverflow
  returned := h.returned
  store := by
    intro i hi
    have hw := h.writer
    unfold SharedRing.nextStore at hi
    cases hwriter : s.writer with
    | copy req len point done =>
      rw [hwriter] at hi hw
      dsimp only at hi
      split at hi
      · obtain ⟨hpoint, hroom, hdone, _⟩ := hw
        have hle := h.le
        have hindex : i = (s.accepted.length + done) % n := by
          rw [← Option.some.inj hi, h.size, hpoint, copyIndex_mod h.pos (by omega) ‹_›]
        rw [hindex, h.size]
        refine ⟨Nat.mod_lt _ h.pos, ?_⟩
        intro k hr hk
        exact mod_ne_mod (by omega) (by omega)
      · exact absurd hi (by simp)
    | idle => simp [hwriter] at hi
    | checkWr req => simp [hwriter] at hi
    | checkRd req wr => simp [hwriter] at hi
    | sizeWr req => simp [hwriter] at hi
    | sizeRd req wr => simp [hwriter] at hi
    | point req len => simp [hwriter] at hi
  load := by
    intro i k hik
    have hr := h.reader
    unfold SharedRing.nextLoad at hik
    cases hreader : s.reader with
    | copy len point done =>
      rw [hreader] at hik hr
      dsimp only at hik
      split at hik
      · obtain ⟨hindex, hbyte⟩ := h.loadByte hr ‹_›
        obtain ⟨rfl, rfl⟩ := Prod.mk.inj (Option.some.inj hik)
        rw [hindex, h.size]
        exact ⟨rfl, (List.getElem?_eq_some_iff.mp hbyte).1, hbyte⟩
      · exact absurd hik (by simp)
    | idle => simp [hreader] at hik
    | waitWr req => simp [hreader] at hik
    | waitRd req wr => simp [hreader] at hik
    | sizeWr req => simp [hreader] at hik
    | sizeRd req wr => simp [hreader] at hik
    | point len => simp [hreader] at hik

/-- One writer and one reader, in every interleaving: the bytes read are a
prefix of the bytes written, no byte is overwritten before it is read and
none is read before it is written. -/
theorem sound_of_size {n : Nat} (hn : 0 < n) (hmax : n ≤ 1073741824)
    (writes : List WriteRequest) (reads : List ReadRequest) (schedule : List RingThread) :
    Throughout SharedRing.step SharedRing.Sound (SharedRing.init n writes reads)
      schedule :=
  throughout_of_step (I := SharedRing.Inv n) (c := fun _ _ => True)
    (fun _ t h _ => h.step hmax t) (fun _ h => h.sound)
    (along_of_forall (d := fun _ => True) fun _ _ => trivial) (SharedRing.inv_init hn writes reads)

/-- Two requests of three bytes on a ring of four: the second write is cut
to the room the reader has made by then. -/
theorem sound_of_size_interleaved :
    Throughout SharedRing.step SharedRing.Sound
      (SharedRing.init 4 [⟨fun i => .ofNat i, 3, true⟩, ⟨fun i => .ofNat (10 + i), 3, true⟩]
        [⟨2, true⟩, ⟨9, false⟩])
      ((List.replicate 10 .writer ++ List.replicate 8 .reader ++ [.writer, .reader])
        ++ List.replicate 8 .writer) :=
  sound_of_size (by decide) (by decide) _ _ _

/-- A ring of `INT_MAX` bytes: two bytes are written and read, and then the
writer, with room for all but one cell, computes `point + len`. -/
theorem overflow_largeRing :
    let writes : List WriteRequest := [⟨fun _ => 7, 2, false⟩, ⟨fun _ => 7, 2147483646, false⟩]
    let schedule : List RingThread :=
      List.replicate 7 .writer ++ List.replicate 7 .reader ++ List.replicate 4 .writer
    (run SharedRing.step (SharedRing.init 2147483647 writes [⟨2, false⟩]) schedule).overflow
        = true ∧
      ¬ Throughout SharedRing.step SharedRing.Sound
        (SharedRing.init 2147483647 writes [⟨2, false⟩]) schedule := by
  intro writes schedule
  have hoverflow : (run SharedRing.step (SharedRing.init 2147483647 writes [⟨2, false⟩])
      schedule).overflow = true := by
    decide +kernel
  refine ⟨hoverflow, ?_⟩
  intro hsound
  have hnone := hsound.last.noOverflow
  rw [hoverflow] at hnone
  exact absurd hnone (by decide)

end Training.Udp
