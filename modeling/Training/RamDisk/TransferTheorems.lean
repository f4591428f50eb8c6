/-
Training.RamDisk.TransferTheorems — which requests the RAM disk carries out.

All transfers of a request have one length, and go from one place to the next
by this length (`calls_of_xferSegments`). So they are those of the segments
only if the segments have one length too. Then a write puts the segments one
after another onto the device (`xferSegments_write`), and a read takes the
range apart into the segments (`xferSegments_read`).
-/
import Training.RamDisk.Transfer

namespace Training.RamDisk

variable {dev : Device} {bio w r : Bio} {sector nsect : UInt64} {buffer data s t : List UInt8}
  {segs : List (List UInt8)} {out : Outcome} {write : Bool} {n off : Nat}

/-! ## One transfer -/

theorem toNat_offset (h : 512 * sector.toNat < 2 ^ 31) :
    (sector * kernelSectorSize).toNat = 512 * sector.toNat := by
  rw [UInt64.toNat_mul, Nat.mul_comm]
  exact Nat.mod_eq_of_lt (by simp [kernelSectorSize]; omega)

theorem not_tooBig (hlen : buffer.length = 512 * nsect.toNat)
    (hfits : 512 * sector.toNat + buffer.length ≤ dev.size) :
    ¬ sector * kernelSectorSize + nsect * kernelSectorSize > UInt64.ofNat dev.size := by
  have hint := dev.isInt
  rw [gt_iff_lt, UInt64.lt_iff_toNat_lt, UInt64.toNat_add, toNat_offset (by omega),
    toNat_offset (by omega)]
  simp
  omega

theorem helloDiskTransfer_write (hlen : buffer.length = 512 * nsect.toNat)
    (hfits : 512 * sector.toNat + buffer.length ≤ dev.size) :
    ∃ dev', helloDiskTransfer dev sector nsect buffer true = some (dev', buffer) ∧
      dev'.size = dev.size ∧
      dev'.data = blit dev.data (512 * sector.toNat) buffer buffer.length := by
  have hint := dev.isInt
  have hbounds : 512 * sector.toNat + 512 * nsect.toNat ≤ dev.data.length ∧
      512 * nsect.toNat ≤ buffer.length := by
    rw [dev.allocated]
    omega
  unfold helloDiskTransfer
  simp only [if_neg (not_tooBig hlen hfits), toNat_offset (by omega : 512 * sector.toNat < 2 ^ 31),
    toNat_offset (by omega : 512 * nsect.toNat < 2 ^ 31), if_true, memcpy, dif_pos hbounds]
  exact ⟨_, rfl, rfl, congrArg (blit dev.data (512 * sector.toNat) buffer) hlen.symm⟩

theorem helloDiskTransfer_read (hlen : buffer.length = 512 * nsect.toNat)
    (hfits : 512 * sector.toNat + buffer.length ≤ dev.size) :
    helloDiskTransfer dev sector nsect buffer false =
      some (dev, (dev.data.drop (512 * sector.toNat)).take buffer.length) := by
  have hint := dev.isInt
  have hbounds : 0 + 512 * nsect.toNat ≤ buffer.length ∧
      512 * nsect.toNat ≤ (dev.data.drop (512 * sector.toNat)).length := by
    rw [List.length_drop, dev.allocated]
    omega
  unfold helloDiskTransfer
  simp only [if_neg (not_tooBig hlen hfits), toNat_offset (by omega : 512 * sector.toNat < 2 ^ 31),
    toNat_offset (by omega : 512 * nsect.toNat < 2 ^ 31), Bool.false_eq_true, if_false, memcpy,
    dif_pos hbounds]
  simp [blit, hlen]

/-! ## The run -/

theorem take_blit (h : off ≤ data.length) : (blit data off s s.length).take off = data.take off := by
  rw [blit, List.append_assoc, List.take_left' (List.length_take_of_le h)]

theorem drop_take_blit (h : off ≤ data.length) :
    ((blit data off s s.length).drop off).take s.length = s := by
  rw [blit, List.append_assoc, List.drop_left' (List.length_take_of_le h), List.take_length,
    List.take_left]

theorem drop_blit (h : off ≤ data.length) :
    (blit data off s s.length).drop (off + s.length) = data.drop (off + s.length) := by
  rw [blit, List.take_length]
  exact List.drop_left' (by rw [List.length_append, List.length_take_of_le h])

/-- One range behind the other. -/
theorem blit_append (h : off + s.length + t.length ≤ data.length) :
    blit (blit data off s s.length) (off + s.length) t t.length =
      blit data off (s ++ t) (s ++ t).length := by
  have hoff : off ≤ data.length := by omega
  have htake : (blit data off s s.length).take (off + s.length) = data.take off ++ s := by
    rw [List.take_add, take_blit hoff, drop_take_blit hoff]
  rw [blit, htake, ← List.drop_drop, drop_blit hoff, List.drop_drop, List.take_length,
    Nat.add_assoc, ← List.length_append, blit, List.take_length, List.append_assoc (data.take off)]

theorem xferSegments_cons {dev' : Device} {s' : List UInt8}
    (h : helloDiskTransfer dev sector nsect s write = some (dev', s')) :
    xferSegments nsect write dev sector (s :: segs) =
      (xferSegments nsect write dev' (sector + nsect) segs).map fun out =>
        { out with segments := s' :: out.segments, calls := ⟨sector, nsect⟩ :: out.calls } := by
  rw [xferSegments, h]
  cases hrun : xferSegments nsect write dev' (sector + nsect) segs <;> simp [hrun]

/-- The byte the next segment starts at: the count of sectors does not wrap. -/
theorem next_place (hlen : s.length = 512 * nsect.toNat)
    (hfits : 512 * sector.toNat + s.length ≤ dev.size) :
    512 * (sector + nsect).toNat = 512 * sector.toNat + s.length := by
  have hint := dev.isInt
  have hadd : (sector + nsect).toNat = sector.toNat + nsect.toNat := by
    rw [UInt64.toNat_add]
    exact Nat.mod_eq_of_lt (by omega)
  rw [hadd, Nat.mul_add, hlen]

theorem xferSegments_write (hsegs : ∀ s ∈ segs, s.length = 512 * nsect.toNat)
    (hfits : 512 * sector.toNat + segs.flatten.length ≤ dev.size) :
    ∃ out, xferSegments nsect true dev sector segs = some out ∧ out.segments = segs ∧
      out.dev.size = dev.size ∧
      out.dev.data = blit dev.data (512 * sector.toNat) segs.flatten segs.flatten.length := by
  induction segs generalizing dev sector with
  | nil => exact ⟨_, rfl, rfl, rfl, by simp [blit]⟩
  | cons s segs ih =>
    have hs := hsegs s List.mem_cons_self
    rw [List.flatten_cons, List.length_append, ← Nat.add_assoc] at hfits
    have hfits' : 512 * sector.toNat + s.length ≤ dev.size := by omega
    obtain ⟨dev', htransfer, hsize, hdata⟩ := helloDiskTransfer_write hs hfits'
    have hnext := next_place hs hfits'
    obtain ⟨out, hrun, hout, hsize', hdata'⟩ :=
      ih (fun s hs => hsegs s (List.mem_cons_of_mem _ hs)) (by rwa [hnext, hsize])
    refine ⟨_, (xferSegments_cons htransfer).trans (congrArg (Option.map _) hrun),
      congrArg (List.cons s) hout, hsize'.trans hsize, ?_⟩
    rw [← dev.allocated] at hfits
    rw [hdata', hdata, hnext, blit_append hfits, List.flatten_cons]

theorem xferSegments_read (hsegs : ∀ s ∈ segs, s.length = 512 * nsect.toNat)
    (hfits : 512 * sector.toNat + segs.flatten.length ≤ dev.size) :
    ∃ out, xferSegments nsect false dev sector segs = some out ∧ out.dev = dev ∧
      out.segments.map List.length = segs.map List.length ∧
      out.segments.flatten = (dev.data.drop (512 * sector.toNat)).take segs.flatten.length := by
  induction segs generalizing sector with
  | nil => exact ⟨_, rfl, rfl, rfl, by simp⟩
  | cons s segs ih =>
    have hs := hsegs s List.mem_cons_self
    rw [List.flatten_cons, List.length_append, ← Nat.add_assoc] at hfits
    have hfits' : 512 * sector.toNat + s.length ≤ dev.size := by omega
    have hlen : min s.length (dev.size - 512 * sector.toNat) = s.length :=
      by omega
    have htransfer := helloDiskTransfer_read hs hfits'
    have hnext := next_place hs hfits'
    obtain ⟨out, hrun, hout, hlengths, hflat⟩ :=
      ih (fun s hs => hsegs s (List.mem_cons_of_mem _ hs)) (by rwa [hnext])
    refine ⟨_, (xferSegments_cons htransfer).trans (congrArg (Option.map _) hrun), hout, ?_, ?_⟩
    · simp only [List.map_cons, hlengths, List.length_take, List.length_drop, dev.allocated, hlen]
    · rw [List.flatten_cons, hflat, hnext, List.flatten_cons, List.length_append,
        List.take_add, List.drop_drop]

/-- Whatever the segments are. -/
theorem calls_of_xferSegments (h : xferSegments nsect write dev sector segs = some out) :
    out.calls.length = segs.length ∧
      ∀ k, k < segs.length → out.calls[k]? = some ⟨sector + UInt64.ofNat k * nsect, nsect⟩ := by
  induction segs generalizing dev sector out with
  | nil =>
    cases h
    simp
  | cons s segs ih =>
    simp only [xferSegments, Option.bind_eq_bind, Option.bind_eq_some_iff, Option.pure_def,
      Option.some.injEq, Prod.exists] at h
    obtain ⟨dev', buffer, -, out', hrun, rfl⟩ := h
    obtain ⟨hcount, hcalls⟩ := ih hrun
    refine ⟨by simp [hcount], fun k hk => ?_⟩
    cases k with
    | zero => simp
    | succ k =>
      have hsector : sector + nsect + UInt64.ofNat k * nsect =
          sector + UInt64.ofNat (k + 1) * nsect := by
        rw [UInt64.ofNat_add, UInt64.add_mul, UInt64.add_assoc, UInt64.add_comm (_ * _)]
        rw [show UInt64.ofNat 1 = 1 from rfl, UInt64.one_mul]
      rw [List.getElem?_cons_succ, hcalls k (by simpa using hk), hsector]

/-! ## The request -/

theorem length_le_total (hs : s ∈ bio.segments) : s.length ≤ bio.total :=
  (List.sublist_flatten_of_mem hs).length_le

/-- `bio_cur_bytes(bio) >> 9` -/
theorem toNat_curSectors (hfits : bio.Fits dev) (hequal : bio.EqualSegments)
    (hs : s ∈ bio.segments) :
    s.length = 512 * ((bioCurBytes bio).toUInt64 >>> 9).toNat := by
  obtain ⟨first, rest, hsegments⟩ : ∃ first rest, bio.segments = first :: rest :=
    List.exists_cons_of_ne_nil (List.ne_nil_of_mem hs)
  have hfirst : first ∈ bio.segments := by simp [hsegments]
  have hint := dev.isInt
  have hlen := length_le_total hfirst
  have hdvd := bio.whole first hfirst
  rw [hequal s hs first hfirst]
  unfold Bio.Fits at hfits
  have hcur : bioCurBytes bio = UInt32.ofNat first.length := by
    simp [bioCurBytes, hsegments]
  rw [hcur, UInt64.toNat_shiftRight]
  simp [Nat.shiftRight_eq_div_pow]
  omega

theorem length_flatten_of_equal (h : ∀ s ∈ segs, s.length = n) :
    segs.flatten.length = segs.length * n := by
  induction segs with
  | nil => simp
  | cons s segs ih =>
    rw [List.flatten_cons, List.length_append, h s List.mem_cons_self,
      ih fun s hs => h s (List.mem_cons_of_mem _ hs), List.length_cons, Nat.succ_mul, Nat.add_comm]

/-- The calls are those of the segments, if these have one length. -/
theorem calls_of_equalSegments (hfits : bio.Fits dev) (hequal : bio.EqualSegments)
    (hrun : helloDiskXferBio dev bio = some out) {k : Nat} (hk : bio.segments[k]? = some s) :
    out.calls[k]? = some
      (Call.mk (bio.sector + UInt64.ofNat ((bio.segments.take k).flatten.length / 512))
        (UInt64.ofNat (s.length / 512))) := by
  have hlt : k < bio.segments.length := (List.getElem?_eq_some_iff.mp hk).1
  have hs := toNat_curSectors hfits hequal (List.mem_of_getElem? hk)
  have hbefore : (bio.segments.take k).flatten.length = (bio.segments.take k).length * _ :=
    length_flatten_of_equal fun s hs => toNat_curSectors hfits hequal (List.mem_of_mem_take hs)
  rw [List.length_take_of_le (Nat.le_of_lt hlt)] at hbefore
  rw [(calls_of_xferSegments hrun).2 k hlt, hbefore, hs, Nat.mul_left_comm,
    Nat.mul_div_cancel_left _ (by decide), Nat.mul_div_cancel_left _ (by decide),
    UInt64.ofNat_mul, UInt64.ofNat_toNat]

theorem transfers_of_equalSegments (hfits : bio.Fits dev) (hequal : bio.EqualSegments) :
    Transfers dev bio := by
  have hsegs := fun s hs => toNat_curSectors (s := s) hfits hequal hs
  have hdata : bio.start ≤ dev.data.length := by
    rw [dev.allocated]
    exact Nat.le_of_add_right_le hfits
  cases hwrite : bio.write with
  | true =>
    obtain ⟨out, hrun, hsegments, hsize, hblit⟩ := xferSegments_write hsegs hfits
    rw [← hwrite] at hrun
    refine ⟨out, hrun, ?_⟩
    exact
      { count := (calls_of_xferSegments hrun).1
        calls := fun k s hk => calls_of_equalSegments hfits hequal hrun hk
        size := hsize
        lengths := by rw [hsegments]
        range := by rw [hsegments, hblit]; exact (drop_take_blit hdata).symm
        write := fun _ =>
          ⟨hsegments, by rw [hblit]; exact take_blit hdata, by rw [hblit]; exact drop_blit hdata⟩
        read := fun h => by simp [hwrite] at h }
  | false =>
    obtain ⟨out, hrun, hdev, hlengths, hflat⟩ := xferSegments_read hsegs hfits
    rw [← hwrite] at hrun
    refine ⟨out, hrun, ?_⟩
    exact
      { count := (calls_of_xferSegments hrun).1
        calls := fun k s hk => calls_of_equalSegments hfits hequal hrun hk
        size := by rw [hdev]
        lengths := hlengths
        range := by rw [hdev]; exact hflat
        write := fun h => by simp [hwrite] at h
        read := fun _ => hdev }

/-- All calls have one length. -/
theorem equalSegments_of_transfers (hfits : bio.Fits dev) (h : Transfers dev bio) :
    bio.EqualSegments := by
  obtain ⟨out, hrun, htransferred⟩ := h
  have hint := dev.isInt
  have hnsect : ∀ s ∈ bio.segments,
      512 * ((bioCurBytes bio).toUInt64 >>> 9).toNat = s.length := by
    intro s hs
    obtain ⟨k, hk⟩ := List.mem_iff_getElem?.mp hs
    have hcall := htransferred.calls k s hk
    rw [(calls_of_xferSegments hrun).2 k (List.getElem?_eq_some_iff.mp hk).1, Option.some.injEq,
      Call.mk.injEq] at hcall
    have hlen := length_le_total hs
    have hdvd := bio.whole s hs
    unfold Bio.Fits at hfits
    rw [hcall.2, UInt64.toNat_ofNat', Nat.mod_eq_of_lt (by omega)]
    omega
  intro s hs t ht
  rw [← hnsect s hs, ← hnsect t ht]

/-- What is read from the range is what has been written. -/
theorem readsBack_of_transfers (hw : Transfers dev w)
    (hr : ∀ out, helloDiskXferBio dev w = some out → Transfers out.dev r)
    (hwrite : w.write = true) (hread : r.write = false) (hstart : r.start = w.start)
    (htotal : r.total = w.total) : ReadsBack dev w r := by
  obtain ⟨out, hrun, hout⟩ := hw
  obtain ⟨out', hrun', hout'⟩ := hr out hrun
  refine ⟨out, out', hrun, hrun', ?_⟩
  rw [hout'.range, hout'.read hread, hstart, htotal, ← hout.range, (hout.write hwrite).1]

/-- For every request that fits, the segments are transferred each at its place
if and only if they have one length; and then a range that has been written is
read back, in as many segments of one length as one likes. -/
theorem transfers_iff_equalSegments (dev : Device) (w : Bio) (hfits : w.Fits dev) :
    (Transfers dev w ↔ w.EqualSegments) ∧
      ∀ r : Bio, w.write = true → r.write = false → r.start = w.start → r.total = w.total →
        w.EqualSegments → r.EqualSegments → ReadsBack dev w r := by
  refine ⟨⟨equalSegments_of_transfers hfits, transfers_of_equalSegments hfits⟩, ?_⟩
  intro r hwrite hread hstart htotal hw hr
  have htransfers := transfers_of_equalSegments hfits hw
  refine readsBack_of_transfers htransfers ?_ hwrite hread hstart htotal
  intro out hrun
  obtain ⟨out', hrun', hout⟩ := htransfers
  obtain rfl : out' = out := Option.some.inj (hrun'.symm.trans hrun)
  refine transfers_of_equalSegments ?_ hr
  unfold Bio.Fits
  rw [hstart, htotal, hout.size]
  exact hfits

/-- Sectors of `a` in segments of the given numbers of sectors, at sector 8. -/
def sectors (write : Bool) (a : UInt8) (counts : List Nat) : Bio where
  sector := 8
  segments := counts.map fun n => List.replicate (512 * n) a
  write := write
  whole := by
    intro s hs
    obtain ⟨n, -, rfl⟩ := List.mem_map.mp hs
    exact ⟨n, List.length_replicate⟩

theorem total_sectors (write : Bool) (a : UInt8) (counts : List Nat) :
    (sectors write a counts).total = 512 * counts.sum := by
  unfold Bio.total sectors
  induction counts with
  | nil => rfl
  | cons n counts ih =>
    simp only [List.map_cons, List.flatten_cons, List.length_append, List.length_replicate, ih,
      List.sum_cons, Nat.mul_add]

theorem fits_sectors (write : Bool) (a : UInt8) {counts : List Nat} (h : counts.sum ≤ 1024) :
    (sectors write a counts).Fits (Device.zeroed diskSize (by decide)) := by
  have hstart : (sectors write a counts).start = 4096 := rfl
  have hsize : (Device.zeroed diskSize (by decide)).size = 1073741824 := rfl
  unfold Bio.Fits
  rw [total_sectors]
  omega

theorem equalSegments_sectors_iff {write : Bool} {a : UInt8} {counts : List Nat} :
    (sectors write a counts).EqualSegments ↔ ∀ n ∈ counts, ∀ m ∈ counts, n = m := by
  constructor
  · intro h n hn m hm
    have hlen := h _ (List.mem_map_of_mem hn) _ (List.mem_map_of_mem hm)
    rw [List.length_replicate, List.length_replicate] at hlen
    omega
  · intro h s hs t ht
    obtain ⟨n, hn, rfl⟩ := List.mem_map.mp hs
    obtain ⟨m, hm, rfl⟩ := List.mem_map.mp ht
    rw [h n hn m hm]

/-- Two segments of two sectors are written, and read in four of one. -/
theorem transfers_iff_equalSegments_four :
    ReadsBack (Device.zeroed diskSize (by decide)) (sectors true 7 [2, 2])
      (sectors false 0 [1, 1, 1, 1]) :=
  (transfers_iff_equalSegments _ _ (fits_sectors true 7 (by decide))).2 _ rfl rfl rfl
    (by rw [total_sectors, total_sectors]; rfl) (equalSegments_sectors_iff.mpr (by decide))
    (equalSegments_sectors_iff.mpr (by decide))

/-- Of a segment of one sector and one of two, a sector is left out. -/
theorem not_transfers_three :
    ¬ Transfers (Device.zeroed diskSize (by decide)) (sectors true 7 [1, 2]) := by
  intro h
  have hequal := equalSegments_of_transfers (fits_sectors true 7 (by decide)) h
  exact absurd (equalSegments_sectors_iff.mp hequal) (by decide)

end Training.RamDisk
