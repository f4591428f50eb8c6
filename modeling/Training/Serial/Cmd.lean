/-
Training.Serial.Cmd — the frames on the serial line,
`Warehouse/C/C-serial/cmd.c`.

Translation notes.

* A `char` is signed. Its bits are a `UInt8`, and `buf[i] & 0xff` is that
  number; `buf[len - 1]` in the comparison is widened with its sign and
  then converted to `unsigned int`.
* A frame is the bytes that are handed to `write`. The files, the log and
  the settings of the line are left out.
-/
import Mathlib.Tactic.Common
import Training.Lib.Words

namespace Training.Serial

open Training.Lib

/-- `check_sum += ( cmd[i] & 0xff )` over the bytes. -/
def checkSum (bytes : List UInt8) : UInt32 :=
  bytes.foldl (fun sum b => sum + b.toUInt32) 0

/-- `buf[len - 1]` as it is compared with `check_sum`. -/
def widen (b : UInt8) : UInt32 := b.toInt8.toInt32.toUInt32

def isChecksumOk (buf : List UInt8) : Int :=
  if buf.length < 7 then -1
  else if widen (buf.getD (buf.length - 1) 0) != checkSum (buf.take (buf.length - 1)) then -1
  else 1

/-- The bytes with the low byte of their sum behind them. -/
def frame (bytes : List UInt8) : List UInt8 := bytes ++ [(checkSum bytes).toUInt8]

/-! ## The frames that are sent -/

def heartBeat : List UInt8 := [0xaa, 0x55, 0x3c, 0x44, 0x01, 0x01, 0x81]

/-- `cmd[9]`, the low part of the version, is written over by the sum. -/
def sendVersionCmd (year month day xx yyzz : Int32) : List UInt8 :=
  let year := if year < 2000 then 2022 else year
  let month := if month < 1 then 1 else month
  let day := if day < 1 then 1 else day
  let reserveBit : UInt32 := 0x01 &&& 0x00
  let yearBit : UInt32 := ((0x7e : Int32) &&& ((year - 2000) <<< 1)).toUInt32
  let monthBit : UInt32 := ((0x0780 : Int32) &&& (month <<< 7)).toUInt32
  let dayBit : UInt32 := ((0xf800 : Int32) &&& (day <<< 11)).toUInt32
  let date : UInt32 := reserveBit &&& yearBit &&& monthBit &&& dayBit
  let versionLowBit : UInt8 := ((0x03 : Int32) &&& xx).toUInt32.toUInt8
  let versionMidReserveBit : UInt8 := ((0xfc : Int32) &&& 0).toUInt32.toUInt8
  let versionHighBit : UInt8 := ((0xff : Int32) &&& yyzz).toUInt32.toUInt8
  let cmd : List UInt8 := [0xaa, 0x55, 0x3c, 0x44, 0x04, 0x03, (date &&& 0xff).toUInt8,
    ((date &&& 0xff00) >>> 8).toUInt8, versionLowBit &&& versionMidReserveBit, versionHighBit]
  cmd.set 9 (checkSum (cmd.take 9)).toUInt8

def sendGetSlotCmd : List UInt8 :=
  let cmd : List UInt8 := [0xaa, 0x55, 0x3c, 0x44, 0x01, 0x02, 0x00]
  cmd.set 6 (checkSum (cmd.take 6)).toUInt8

/-! ## What the version frame is for -/

def sendVersionCmdLen : Nat := 10

/-- Each field at the bits that its mask documents, in the little-endian word
of bytes 6 and 7 or in bytes 8 and 9. -/
structure CarriesVersion (sent : List UInt8) (year month day xx yyzz : Int32) : Prop where
  length : sent.length = sendVersionCmdLen
  year : (wordAt 2 sent 6 / 2 % 64 : Nat) = (year.toInt - 2000) % 64
  month : (wordAt 2 sent 6 / 128 % 16 : Nat) = month.toInt % 16
  day : (wordAt 2 sent 6 / 2048 % 32 : Nat) = day.toInt % 32
  low : (wordAt 1 sent 8 % 4 : Nat) = xx.toInt % 4
  high : (wordAt 1 sent 9 : Nat) = yyzz.toInt % 256

/-- The sum at the end of the frame is none of the bytes of the fields. -/
def SumApart (sent : List UInt8) : Prop := sent.length - 1 ∉ [6, 7, 8, 9]

/-- The frame of a version can be decoded, and its sum is apart. -/
def EncodesVersion (year month day xx yyzz : Int32) : Prop :=
  CarriesVersion (sendVersionCmd year month day xx yyzz) year month day xx yyzz ∧
    SumApart (sendVersionCmd year month day xx yyzz)

end Training.Serial
