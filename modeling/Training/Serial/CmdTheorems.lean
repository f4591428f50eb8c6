/-
Training.Serial.CmdTheorems — which frames the check accepts, and what the
version frame carries.

The check compares a sum without a bound below 2^32 with a byte that has
been widened with its sign. So a frame passes only if its last byte is the
sum modulo 256, but the low byte of the sum passes only where the sum is
in the range of a signed byte (`accepted_frame_iff`), and no frame that
the program itself sends does (`sent_frames_rejected`).

`date` is the conjunction of the fields and of a reserved bit that is 0, and
so are the two parts of byte 8: nothing of the date or of `xx` gets into the
frame. Byte 9 is the last one, and the sum takes the place of `yyzz`. So the
frame is the same for all versions (`sendVersionCmd_eq`), and carries just
the one whose fields are those bytes (`carriesVersion_iff`).
-/
import Mathlib.Algebra.Ring.Nat
import Training.Serial.Cmd

namespace Training.Serial

variable {bytes : List UInt8} {last : UInt8}

/-- The sum of the bytes, without a bound. -/
def total (bytes : List UInt8) : Nat := (bytes.map UInt8.toNat).sum

theorem toNat_foldl (bytes : List UInt8) (sum : UInt32) :
    (bytes.foldl (fun sum b => sum + b.toUInt32) sum).toNat =
      (sum.toNat + total bytes) % 2 ^ 32 := by
  induction bytes generalizing sum with
  | nil => simp [total]
  | cons b bytes ih =>
    rw [List.foldl_cons, ih]
    simp [total, Nat.add_assoc]

theorem toNat_checkSum (bytes : List UInt8) : (checkSum bytes).toNat = total bytes % 2 ^ 32 := by
  rw [checkSum, toNat_foldl]
  simp

/-- Bytes from 0x80 on are negative. -/
theorem toNat_widen (b : UInt8) :
    (widen b).toNat = if b.toNat < 0x80 then b.toNat else 2 ^ 32 - 0x100 + b.toNat := by
  have hall : ∀ n : Fin 256, (widen (UInt8.ofNat n.val)).toNat =
      if (UInt8.ofNat n.val).toNat < 0x80 then (UInt8.ofNat n.val).toNat
      else 2 ^ 32 - 0x100 + (UInt8.ofNat n.val).toNat := by
    decide +kernel
  have hb := hall ⟨b.toNat, b.toNat_lt⟩
  rwa [UInt8.ofNat_toNat] at hb

theorem isChecksumOk_append (hlen : 6 ≤ bytes.length) :
    isChecksumOk (bytes ++ [last]) = 1 ↔ (widen last).toNat = total bytes % 2 ^ 32 := by
  have hlong : ¬(bytes ++ [last]).length < 7 := by simp; omega
  have hlast : (bytes ++ [last]).length - 1 = bytes.length := by simp
  rw [isChecksumOk, if_neg hlong, hlast, List.take_left, ← toNat_checkSum, UInt32.toNat_inj]
  simp

theorem toNat_low (bytes : List UInt8) : (checkSum bytes).toUInt8.toNat = total bytes % 256 := by
  rw [UInt32.toNat_toUInt8, toNat_checkSum]
  omega

/-- A frame with its own checksum is accepted exactly when the sum of its
bytes is the value of a signed `char`, and what is accepted ends with the low
byte of the sum. -/
theorem accepted_frame_iff (hlen : 6 ≤ bytes.length) :
    (isChecksumOk (frame bytes) = 1 ↔
      total bytes % 2 ^ 32 < 0x80 ∨ 2 ^ 32 - 0x80 ≤ total bytes % 2 ^ 32) ∧
    ∀ last, isChecksumOk (bytes ++ [last]) = 1 → last.toNat = total bytes % 256 := by
  refine ⟨?_, fun last hok => ?_⟩
  · rw [frame, isChecksumOk_append hlen, toNat_widen, toNat_low]
    split <;> omega
  · rw [isChecksumOk_append hlen, toNat_widen] at hok
    have hlt := last.toNat_lt
    split at hok <;> omega

theorem accepted_frame_iff_ones : isChecksumOk (frame [1, 1, 1, 1, 1, 1]) = 1 :=
  (accepted_frame_iff (by decide)).1.mpr (by decide)

/-- The heart beat is a frame, and it is not accepted. -/
theorem rejected_heartBeat :
    ¬∀ bytes : List UInt8, 6 ≤ bytes.length → isChecksumOk (frame bytes) = 1 := by
  intro h
  have hok := h [0xaa, 0x55, 0x3c, 0x44, 0x01, 0x01] (by decide)
  exact absurd hok (by decide)

/-! ## The frames that are sent -/

/-- The date and the version do not get into the frame. -/
theorem sendVersionCmd_eq (year month day xx yyzz : Int32) :
    sendVersionCmd year month day xx yyzz = frame [0xaa, 0x55, 0x3c, 0x44, 0x04, 0x03, 0, 0, 0] := by
  have hreserve : (0x01 : UInt32) &&& 0x00 = 0 := by decide
  have hmid : ((0xfc : Int32) &&& 0).toUInt32.toUInt8 = 0 := by decide
  simp only [sendVersionCmd, hreserve, hmid, UInt32.zero_and, UInt8.and_zero]
  rfl

theorem sent_frames_rejected (year month day xx yyzz : Int32) :
    isChecksumOk heartBeat = -1 ∧ isChecksumOk sendGetSlotCmd = -1 ∧
      isChecksumOk (sendVersionCmd year month day xx yyzz) = -1 := by
  rw [sendVersionCmd_eq]
  decide

/-! ## The version frame -/

open Training.Lib

variable {year month day xx yyzz : Int32}

theorem sendVersionCmd_eq_bytes (year month day xx yyzz : Int32) :
    sendVersionCmd year month day xx yyzz =
      [0xaa, 0x55, 0x3c, 0x44, 0x04, 0x03, 0, 0, 0, 0x86] := by
  rw [sendVersionCmd_eq]
  decide

/-- The sum is that of the bytes in front of it, and it stands at byte 9. -/
theorem sum_sendVersionCmd (year month day xx yyzz : Int32) :
    (sendVersionCmd year month day xx yyzz)[9]? =
      some (checkSum ((sendVersionCmd year month day xx yyzz).take 9)).toUInt8 := by
  rw [sendVersionCmd_eq_bytes]
  decide

theorem not_sumApart (year month day xx yyzz : Int32) :
    ¬ SumApart (sendVersionCmd year month day xx yyzz) := by
  rw [sendVersionCmd_eq_bytes]
  simp [SumApart]

theorem carriesVersion_iff :
    CarriesVersion (sendVersionCmd year month day xx yyzz) year month day xx yyzz ↔
      (year.toInt - 2000) % 64 = 0 ∧ month.toInt % 16 = 0 ∧ day.toInt % 32 = 0 ∧
        xx.toInt % 4 = 0 ∧ yyzz.toInt % 256 = 134 := by
  rw [sendVersionCmd_eq_bytes]
  constructor
  · intro h
    exact ⟨h.year.symm, h.month.symm, h.day.symm, h.low.symm, h.high.symm⟩
  · rintro ⟨hyear, hmonth, hday, hlow, hhigh⟩
    exact ⟨rfl, hyear.symm, hmonth.symm, hday.symm, hlow.symm, hhigh.symm⟩

/-- No version is encoded, and the fields are carried of those alone whose
fields are the bytes that are sent of all. -/
theorem not_encodesVersion (year month day xx yyzz : Int32) :
    ¬ EncodesVersion year month day xx yyzz ∧
      (CarriesVersion (sendVersionCmd year month day xx yyzz) year month day xx yyzz ↔
        (year.toInt - 2000) % 64 = 0 ∧ month.toInt % 16 = 0 ∧ day.toInt % 32 = 0 ∧
          xx.toInt % 4 = 0 ∧ yyzz.toInt % 256 = 134) :=
  ⟨fun h => not_sumApart year month day xx yyzz h.2, carriesVersion_iff⟩

/-- The version that `response` sends. -/
theorem not_encodesVersion_response : ¬ EncodesVersion 2022 4 12 1 13 := by
  rintro ⟨hcarries, -⟩
  rw [sendVersionCmd_eq_bytes] at hcarries
  exact absurd hcarries.month (by decide)

end Training.Serial
