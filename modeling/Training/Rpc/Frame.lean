/-
Training.Rpc.Frame — the frames of `C/04_tools/04_rpc`.

A frame is a header of `PACKAGE_HEAD_LEN` bytes and a payload. The header
is `PACKAGE_MAGIC`, copied with `memcpy` and so in the byte order of the
host (little-endian here, and the same at both ends), and the length of
the payload through `htonl`.
-/
import Training.Lib.Words

namespace Training.Rpc

open Training.Lib

def rpcBuffMax : Nat := 8192
def packageHeadLen : Nat := 8
def packageMagic : Nat := 0xe0e1e2e3

/-- The number of values of `uint32_t`, and of `int` from 0 on. -/
def uint32Size : Nat := 4294967296
def int32Size : Nat := 2147483648

/-- The bytes of `htonl (l)`. -/
def htonl (l : Nat) : List UInt8 := (toBytesLE 4 l).reverse

def ntohl (bytes : List UInt8) : Nat := ofBytesLE bytes.reverse

/-- The conversion of a `uint32_t` to `int`. -/
def intOfUInt32 (l : Nat) : Int :=
  if l < int32Size then l else (l : Int) - uint32Size

/-- The first four bytes of a header are `PACKAGE_MAGIC`. -/
def hasMagic (head : List UInt8) : Bool := head.take 4 == toBytesLE 4 packageMagic

/-- The length a header announces. -/
def dataLen (head : List UInt8) : Nat := ntohl ((head.drop 4).take 4)

def packHead (len : Nat) : List UInt8 := toBytesLE 4 packageMagic ++ htonl len

/-- What `stream_call_pack_and_send` writes. -/
def streamCallPack (buf : List UInt8) : List UInt8 := packHead buf.length ++ buf

/-! ## Packing and unpacking a header -/

@[simp] theorem length_packHead (len : Nat) : (packHead len).length = packageHeadLen := by
  simp [packHead, htonl, packageHeadLen]

@[simp] theorem length_streamCallPack (buf : List UInt8) :
    (streamCallPack buf).length = packageHeadLen + buf.length := by
  simp [streamCallPack]

@[simp] theorem hasMagic_packHead (len : Nat) : hasMagic (packHead len) = true := by
  unfold hasMagic packHead
  rw [List.take_left' (length_toBytesLE 4 _)]
  exact beq_self_eq_true _

theorem dataLen_packHead {len : Nat} (h : len < uint32Size) : dataLen (packHead len) = len := by
  have hlen : (htonl len).length = 4 := by simp [htonl]
  unfold dataLen packHead
  rw [List.drop_left' (length_toBytesLE 4 _), List.take_of_length_le (by omega), ntohl, htonl,
    List.reverse_reverse]
  exact ofBytesLE_toBytesLE h

/-- A header is made of its magic and its length. -/
theorem packHead_dataLen {head : List UInt8} (hlen : head.length = packageHeadLen)
    (hmagic : hasMagic head = true) : packHead (dataLen head) = head := by
  have hlen8 : head.length = 8 := hlen
  have hdrop : ((head.drop 4).take 4).reverse.length = 4 := by simp [hlen8]
  have hback := toBytesLE_ofBytesLE ((head.drop 4).take 4).reverse
  rw [hdrop] at hback
  have hmagic : head.take 4 = toBytesLE 4 packageMagic := beq_iff_eq.mp hmagic
  have htail : (head.drop 4).take 4 = head.drop 4 := List.take_of_length_le (by simp [hlen8])
  rw [packHead, htonl, dataLen, ntohl, hback, List.reverse_reverse, ← hmagic, htail,
    List.take_append_drop]

theorem dataLen_lt (head : List UInt8) : dataLen head < uint32Size := by
  have hlt := ofBytesLE_lt ((head.drop 4).take 4).reverse
  have hlen : ((head.drop 4).take 4).reverse.length ≤ 4 := by
    rw [List.length_reverse]
    exact List.length_take_le _ _
  exact Nat.lt_of_lt_of_le hlt (Nat.pow_le_pow_right (by decide) hlen)

theorem intOfUInt32_of_lt {l : Nat} (h : l < int32Size) : intOfUInt32 l = l := by
  rw [intOfUInt32, if_pos h]

end Training.Rpc
