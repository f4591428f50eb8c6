/-
Training.RamDisk.Transfer — the transfers of the RAM disk,
`Warehouse/C-kernel/C-block_driver(RamDisk)/hello.c`.

Translation notes.

* A segment is the bytes of its buffer. `memcpy` outside a buffer or outside
  the device gives `none`.
* `bio_for_each_segment` goes over the segments with an iterator of its own,
  and `bio_cur_bytes(bio)` is the length of the segment at the iterator of the
  bio, which stays at the first one.
* `unsigned long` and `sector_t` have 64 bits. `dev->size` is not negative.
* Beside its result a transfer leaves its arguments, for the record.
* The requests, the geometry and the setup of the driver are left out.
-/
import Mathlib.Algebra.Ring.Nat

namespace Training.RamDisk

def kernelSectorSize : UInt64 := 512

structure Device where
  size : Nat
  data : List UInt8
  allocated : data.length = size
  isInt : size < 2 ^ 31

/-- A request of the block layer: whole sectors in segments. -/
structure Bio where
  sector : UInt64
  segments : List (List UInt8)
  write : Bool
  whole : ∀ s ∈ segments, 512 ∣ s.length

/-- `n` bytes from the start of `src`, at `off`. -/
def blit (dst : List UInt8) (off : Nat) (src : List UInt8) (n : Nat) : List UInt8 :=
  dst.take off ++ src.take n ++ dst.drop (off + n)

theorem length_blit {dst src : List UInt8} {off n : Nat} (hdst : off + n ≤ dst.length)
    (hsrc : n ≤ src.length) : (blit dst off src n).length = dst.length := by
  simp only [blit, List.length_append, List.length_take, List.length_drop]
  omega

def memcpy (dst : List UInt8) (off : Nat) (src : List UInt8) (n : Nat) :
    Option { data : List UInt8 // data.length = dst.length } :=
  if h : off + n ≤ dst.length ∧ n ≤ src.length then
    some ⟨blit dst off src n, length_blit h.1 h.2⟩
  else none

/-- The device and the buffer after it. -/
def helloDiskTransfer (dev : Device) (sector nsect : UInt64) (buffer : List UInt8) (write : Bool) :
    Option (Device × List UInt8) :=
  let offset := sector * kernelSectorSize
  let nbytes := nsect * kernelSectorSize
  if offset + nbytes > UInt64.ofNat dev.size then some (dev, buffer)
  else if write then
    (memcpy dev.data offset.toNat buffer nbytes.toNat).map fun data =>
      ({ dev with data := data.1, allocated := data.2.trans dev.allocated }, buffer)
  else
    (memcpy buffer 0 (dev.data.drop offset.toNat) nbytes.toNat).map fun data => (dev, data.1)

/-- `sector` and `nsect` of a transfer. -/
structure Call where
  sector : UInt64
  nsect : UInt64
  deriving DecidableEq

structure Outcome where
  dev : Device
  segments : List (List UInt8)
  calls : List Call

def bioCurBytes (bio : Bio) : UInt32 := UInt32.ofNat (bio.segments.head?.elim 0 List.length)

/-- The loop, where `nsect` is `bio_cur_bytes(bio) >> 9`. -/
def xferSegments (nsect : UInt64) (write : Bool) (dev : Device) (sector : UInt64) :
    List (List UInt8) → Option Outcome
  | [] => some { dev, segments := [], calls := [] }
  | buffer :: rest => do
      let (dev, buffer) ← helloDiskTransfer dev sector nsect buffer write
      let out ← xferSegments nsect write dev (sector + nsect) rest
      return { out with
        segments := buffer :: out.segments
        calls := { sector, nsect } :: out.calls }

def helloDiskXferBio (dev : Device) (bio : Bio) : Option Outcome :=
  xferSegments ((bioCurBytes bio).toUInt64 >>> 9) bio.write dev bio.sector bio.segments

/-- The disk with nothing written to it. -/
def Device.zeroed (size : Nat) (h : size < 2 ^ 31) : Device where
  size := size
  data := List.replicate size 0
  allocated := List.length_replicate
  isInt := h

/-- `NSECTORS * HARDSECTOR_SIZE` -/
def diskSize : Nat := 1024 * 1024 * 2 * 512

/-! ## What it is for -/

/-- The first byte of the range on the device. -/
def Bio.start (bio : Bio) : Nat := 512 * bio.sector.toNat

/-- The bytes of all segments. -/
def Bio.total (bio : Bio) : Nat := bio.segments.flatten.length

def Bio.Fits (bio : Bio) (dev : Device) : Prop := bio.start + bio.total ≤ dev.size

/-- Segment `k` is transferred with its own length, at the start sector and the
lengths before it, and the segments are the range of the device then. A write
changes only the range, and a read only the segments. -/
structure Transferred (dev : Device) (bio : Bio) (out : Outcome) : Prop where
  count : out.calls.length = bio.segments.length
  calls : ∀ k s, bio.segments[k]? = some s → out.calls[k]? = some
    (Call.mk (bio.sector + UInt64.ofNat ((bio.segments.take k).flatten.length / 512))
      (UInt64.ofNat (s.length / 512)))
  size : out.dev.size = dev.size
  lengths : out.segments.map List.length = bio.segments.map List.length
  range : out.segments.flatten = (out.dev.data.drop bio.start).take bio.total
  write : bio.write = true → out.segments = bio.segments ∧
    out.dev.data.take bio.start = dev.data.take bio.start ∧
    out.dev.data.drop (bio.start + bio.total) = dev.data.drop (bio.start + bio.total)
  read : bio.write = false → out.dev = dev

def Transfers (dev : Device) (bio : Bio) : Prop :=
  ∃ out, helloDiskXferBio dev bio = some out ∧ Transferred dev bio out

/-- What has been written to a range is read from it. -/
def ReadsBack (dev : Device) (w r : Bio) : Prop :=
  ∃ out out', helloDiskXferBio dev w = some out ∧ helloDiskXferBio out.dev r = some out' ∧
    out'.segments.flatten = w.segments.flatten

/-! ## When it does it -/

def Bio.EqualSegments (bio : Bio) : Prop :=
  ∀ s ∈ bio.segments, ∀ t ∈ bio.segments, s.length = t.length

end Training.RamDisk
