/-
Training.IcmpPing.ChecksumTheorems — a packet with its checksum verifies.

The sum of a packet of at most 65535 bytes is less than 2^31, and its two
folds are those of one's complement (`toNat_checksum`). The field is a short
of the packet, so that what is stored in it is added to the sum
(`shortSum_storeShort`): the complement completes the sum to 0xffff, whose
own complement is 0.
-/
import Training.IcmpPing.Checksum
import Training.Lib.OnesComplement

namespace Training.IcmpPing

open Training.Lib Training.Lib.OnesComplement

variable {order : ByteOrder} {packet pre post bytes : List UInt8} {off : Nat} {sum : UInt32}
  {v : UInt16}

/-! ## The sum -/

theorem shortSum_le (order : ByteOrder) :
    ∀ packet : List UInt8, shortSum order packet ≤ 32768 * packet.length
  | [] => Nat.le_refl _
  | [a] => by
      have ha := a.toNat_lt
      simp only [shortSum, List.length_singleton]
      omega
  | a :: b :: buf => by
      have hrest := shortSum_le order buf
      have hshort := (short order a b).toNat_lt
      simp only [shortSum, List.length_cons]
      omega

theorem toNat_addShorts (order : ByteOrder) : ∀ (packet : List UInt8) (sum : UInt32),
    sum.toNat + shortSum order packet < 2 ^ 32 →
      (addShorts order sum packet).toNat = sum.toNat + shortSum order packet
  | [], sum, _ => rfl
  | [a], sum, h => by
      simp only [shortSum] at h
      rw [addShorts, UInt32.toNat_add, UInt8.toNat_toUInt32, Nat.mod_eq_of_lt h, shortSum]
  | a :: b :: buf, sum, h => by
      simp only [shortSum] at h
      have hsum : (sum + (short order a b).toUInt32).toNat = sum.toNat + (short order a b).toNat := by
        rw [UInt32.toNat_add, UInt16.toNat_toUInt32, Nat.mod_eq_of_lt (by omega)]
      rw [addShorts, toNat_addShorts order buf _ (by omega), hsum, shortSum, Nat.add_assoc]

theorem exactSums (hlen : packet.length ≤ 65535) : ExactSums order packet := by
  intro k
  have hle := shortSum_le order (packet.take k)
  have htake : (packet.take k).length ≤ packet.length := List.length_take_le' _ _
  rw [toNat_addShorts order _ _ (by simp; omega)]
  simp

theorem toNat_high (sum : UInt32) : (sum >>> 16).toNat = sum.toNat / 65536 := by
  rw [UInt32.toNat_shiftRight]
  exact Nat.shiftRight_eq_div_pow sum.toNat 16

theorem toNat_low (sum : UInt32) : (sum &&& 0xffff).toNat = sum.toNat % 65536 := by
  rw [UInt32.toNat_and]
  exact Nat.and_two_pow_sub_one_eq_mod sum.toNat 16

theorem toNat_fold (sum : UInt32) :
    ((sum >>> 16) + (sum &&& 0xffff)).toNat = fold 65535 sum.toNat := by
  have hlt := sum.toNat_lt
  rw [UInt32.toNat_add, toNat_low, toNat_high, Nat.mod_eq_of_lt (by omega), fold]

/-- What is added in the second step is the carry of the first. -/
theorem toNat_carry (h : sum.toNat ≤ 131070) :
    (sum + (sum >>> 16)).toNat = sum.toNat + sum.toNat / 65536 := by
  rw [UInt32.toNat_add, toNat_high, Nat.mod_eq_of_lt (by omega)]

theorem toNat_complement (sum : UInt32) :
    (~~~sum).toUInt16.toNat = 65535 - sum.toNat % 65536 := by
  have hlt := sum.toNat_lt
  rw [UInt32.toNat_toUInt16, UInt32.toNat_not]
  simp only [UInt32.size]
  omega

/-- The folds are those of one's complement, and the `int` is cut to 16 bits. -/
theorem toNat_checksum (hlen : packet.length ≤ 65535) :
    (checksum order packet).toUInt16.toNat = 65535 - reduce 65535 (shortSum order packet) := by
  have hle := shortSum_le order packet
  have hsum : (addShorts order 0 packet).toNat = shortSum order packet := by
    have hexact : ExactSums order packet := exactSums hlen
    have hall := hexact packet.length
    rwa [List.take_length] at hall
  have hfold := fold_le (n := 65535) (x := shortSum order packet) (by omega)
  unfold checksum
  rw [toNat_complement, toNat_carry (by rw [toNat_fold, hsum]; omega), toNat_fold, hsum, reduce]

/-! ## The field -/

theorem exists_bytesOf (order : ByteOrder) (v : UInt16) :
    ∃ x y, bytesOf order 2 v.toNat = [x, y] ∧ short order x y = v := by
  have hle : ofBytesLE (toBytesLE 2 v.toNat) = v.toNat := ofBytesLE_toBytesLE v.toNat_lt
  have hshort : UInt16.ofNat (ofBytesLE (toBytesLE 2 v.toNat)) = v := by
    rw [hle, UInt16.ofNat_toNat]
  cases order with
  | little => exact ⟨_, _, rfl, hshort⟩
  | big => exact ⟨_, _, rfl, hshort⟩

@[simp] theorem length_bytesOf (order : ByteOrder) (k n : Nat) : (bytesOf order k n).length = k := by
  cases order <;> simp [bytesOf]

theorem length_storeAt (h : off + bytes.length ≤ packet.length) :
    (storeAt packet off bytes).length = packet.length := by
  simp only [storeAt, List.length_append, List.length_take, List.length_drop]
  omega

theorem length_storeShort (h : off + 2 ≤ packet.length) :
    (storeShort order packet off v).length = packet.length :=
  length_storeAt (by simpa using h)

/-- A packet with the two bytes of the field between the others. -/
theorem storeShort_eq (order : ByteOrder) (packet : List UInt8) (off : Nat) (v : UInt16) :
    ∃ x y, short order x y = v ∧
      storeShort order packet off v = packet.take off ++ x :: y :: packet.drop (off + 2) := by
  obtain ⟨x, y, hbytes, hshort⟩ := exists_bytesOf order v
  exact ⟨x, y, hshort, by simp [storeShort, storeAt, hbytes]⟩

theorem storeShort_storeShort (h : off + 2 ≤ packet.length) (order : ByteOrder) (u v : UInt16) :
    storeShort order (storeShort order packet off u) off v = storeShort order packet off v := by
  have hoff : off ≤ packet.length := by omega
  obtain ⟨x, y, -, hu⟩ := storeShort_eq order packet off u
  obtain ⟨x', y', hbytes, -⟩ := exists_bytesOf order v
  have hlen : (packet.take off).length = off := List.length_take_of_le hoff
  rw [hu, storeShort, storeShort, storeAt, storeAt, hbytes, List.take_left' hlen, ← List.drop_drop,
    List.drop_left' hlen]
  rfl

theorem shortSum_append (order : ByteOrder) :
    ∀ pre rest : List UInt8, pre.length % 2 = 0 →
      shortSum order (pre ++ rest) = shortSum order pre + shortSum order rest
  | [], rest, _ => by rw [List.nil_append, shortSum, Nat.zero_add]
  | [a], rest, h => by simp at h
  | a :: b :: pre, rest, h => by
      have heven : pre.length % 2 = 0 := by
        simp only [List.length_cons] at h
        omega
      simp only [List.cons_append, shortSum, shortSum_append order pre rest heven, Nat.add_assoc]

/-- The field is a short of the packet. -/
theorem shortSum_storeShort (h : off + 2 ≤ packet.length) (heven : off % 2 = 0) (order : ByteOrder)
    (v : UInt16) : shortSum order (storeShort order packet off v) =
      shortSum order (packet.take off) + v.toNat + shortSum order (packet.drop (off + 2)) := by
  obtain ⟨x, y, rfl, hstore⟩ := storeShort_eq order packet off v
  have hlen : (packet.take off).length = off := List.length_take_of_le (by omega)
  rw [hstore, shortSum_append order _ _ (by rwa [hlen]), shortSum, Nat.add_assoc]

/-- The packet verifies. -/
theorem checksum_sealAt (hlen : packet.length ≤ 65535) (hfield : off + 2 ≤ packet.length)
    (heven : off % 2 = 0) : (checksum order (sealAt order off packet)).toUInt16 = 0 := by
  have hzeroed : (storeShort order packet off 0).length ≤ 65535 := by
    rwa [length_storeShort hfield]
  have hseal : sealAt order off packet = storeShort order packet off
      (checksum order (storeShort order packet off 0)).toUInt16 :=
    storeShort_storeShort hfield order 0 _
  have hbound := shortSum_le order (storeShort order packet off 0)
  have hsum : shortSum order (sealAt order off packet) =
      shortSum order (storeShort order packet off 0) +
        (65535 - reduce 65535 (shortSum order (storeShort order packet off 0))) := by
    rw [hseal, shortSum_storeShort hfield heven, toNat_checksum hzeroed,
      shortSum_storeShort hfield heven]
    simp only [UInt16.toNat_zero]
    omega
  have hlen' : (sealAt order off packet).length ≤ 65535 := by
    rwa [hseal, length_storeShort hfield]
  rw [← UInt16.toNat_inj, toNat_checksum hlen', hsum,
    reduce_add_complement (by decide) (by omega)]
  rfl

/-- For every packet of at most 65535 bytes and every field at an even offset
in it, the packet with its checksum in the field verifies, and no sum of its
shorts goes beyond 32 bits. -/
theorem checksum_verifies (order : ByteOrder) (packet : List UInt8) (off : Nat)
    (hlen : packet.length ≤ 65535) (hfield : off + 2 ≤ packet.length) (heven : off % 2 = 0) :
    (checksum order (sealAt order off packet)).toUInt16 = 0 ∧
      ExactSums order (storeShort order packet off 0) ∧
      ExactSums order (sealAt order off packet) := by
  have hlen' : (storeShort order packet off 0).length = packet.length := length_storeShort hfield
  refine ⟨checksum_sealAt hlen hfield heven, exactSums (by omega), exactSums ?_⟩
  rw [sealAt, length_storeShort (by omega)]
  omega

/-- A packet of three bytes. -/
theorem checksum_verifies_three :
    (checksum .little (sealAt .little 0 [8, 0, 7])).toUInt16 = 0 ∧
      ExactSums .little (storeShort .little [8, 0, 7] 0 0) ∧
      ExactSums .little (sealAt .little 0 [8, 0, 7]) :=
  checksum_verifies .little [8, 0, 7] 0 (by decide) (by decide) (by decide)

/-! ## The packet -/

theorem getElem?_storeAt (h : off + bytes.length ≤ packet.length) (i : Nat) :
    (storeAt packet off bytes)[i]? =
      if off ≤ i ∧ i < off + bytes.length then bytes[i - off]? else packet[i]? := by
  have hlen : (packet.take off).length = off := List.length_take_of_le (by omega)
  rw [storeAt, List.append_assoc]
  by_cases hbefore : i < off
  · rw [List.getElem?_append_left (by omega), List.getElem?_take_of_lt hbefore, if_neg (by omega)]
  · rw [List.getElem?_append_right (by omega), hlen]
    by_cases hin : i < off + bytes.length
    · rw [List.getElem?_append_left (by omega), if_pos (by omega)]
    · rw [List.getElem?_append_right (by omega), List.getElem?_drop, if_neg (by omega)]
      exact congrArg (packet[·]?) (by omega)

theorem storeAt_comm {off' : Nat} {bytes' : List UInt8} (hapart : off + bytes.length ≤ off')
    (h : off' + bytes'.length ≤ packet.length) :
    storeAt (storeAt packet off bytes) off' bytes' =
      storeAt (storeAt packet off' bytes') off bytes := by
  have hin : off + bytes.length ≤ packet.length := by omega
  have hlen := length_storeAt hin
  have hlen' := length_storeAt h
  refine List.ext_getElem? fun i => ?_
  rw [getElem?_storeAt (by omega), getElem?_storeAt hin, getElem?_storeAt (by omega),
    getElem?_storeAt h]
  split <;> split <;> first | rfl | omega

theorem length_storeAt_of_fits {n : Nat} (hlen : packet.length = n) (h : off + bytes.length ≤ n) :
    (storeAt packet off bytes).length = n := by
  rw [length_storeAt (by rwa [hlen]), hlen]

theorem length_storeHeader (hlen : packet.length = pktSize) (order : ByteOrder) (pid : UInt32) :
    (storeHeader order packet pid).length = pktSize := by
  have htype : (storeAt packet 0 [icmpEcho]).length = 92 := length_storeAt_of_fits hlen (by simp)
  have hcode : (storeAt (storeAt packet 0 [icmpEcho]) 1 [0]).length = 92 :=
    length_storeAt_of_fits htype (by simp)
  have hid : (storeShort order (storeAt (storeAt packet 0 [icmpEcho]) 1 [0]) 4
      pid.toUInt16).length = 92 := length_storeAt_of_fits hcode (by simp)
  exact length_storeAt_of_fits hid (by simp [pktSize])

/-- The field holds 0 when the data are stored. -/
theorem storeAt_storeShort_comm {sec usec : List UInt8} (hlen : packet.length = pktSize)
    (hsec : sec.length = 8) (husec : usec.length = 8) (order : ByteOrder) (v : UInt16) :
    storeAt (storeAt (storeShort order packet 2 v) 8 sec) 16 usec =
      storeShort order (storeAt (storeAt packet 8 sec) 16 usec) 2 v := by
  have hpkt : packet.length = 92 := hlen
  have hlen' : (storeAt packet 8 sec).length = 92 := length_storeAt_of_fits hpkt (by omega)
  have hfirst : storeAt (storeShort order packet 2 v) 8 sec =
      storeShort order (storeAt packet 8 sec) 2 v := storeAt_comm (by simp) (by omega)
  have hsecond : storeAt (storeShort order (storeAt packet 8 sec) 2 v) 16 usec =
      storeShort order (storeAt (storeAt packet 8 sec) 16 usec) 2 v :=
    storeAt_comm (by simp) (by omega)
  rw [hfirst, hsecond]

theorem createPacket_eq_sealAt {icmpPkt : List UInt8} (hlen : icmpPkt.length = pktSize)
    (order : ByteOrder) (pid : UInt32) (tv : Timeval) :
    createPacket order icmpPkt pid tv =
      sealAt order 2 (storeAt (storeAt (storeHeader order icmpPkt pid) 8
        (bytesOf order 8 tv.sec.toNat)) 16 (bytesOf order 8 tv.usec.toNat)) := by
  have hheader := length_storeHeader hlen order pid
  simp only [createPacket, sealAt,
    storeAt_storeShort_comm hheader (length_bytesOf _ _ _) (length_bytesOf _ _ _)]

/-- The packet that is sent verifies. -/
theorem checksum_createPacket {icmpPkt : List UInt8} (hlen : icmpPkt.length = pktSize)
    (pid : UInt32) (tv : Timeval) :
    (checksum order (createPacket order icmpPkt pid tv)).toUInt16 = 0 := by
  have hheader : (storeHeader order icmpPkt pid).length = 92 := length_storeHeader hlen order pid
  have hsec : (storeAt (storeHeader order icmpPkt pid) 8 (bytesOf order 8 tv.sec.toNat)).length =
      92 := length_storeAt_of_fits hheader (by simp)
  have husec : (storeAt (storeAt (storeHeader order icmpPkt pid) 8
      (bytesOf order 8 tv.sec.toNat)) 16 (bytesOf order 8 tv.usec.toNat)).length = 92 :=
    length_storeAt_of_fits hsec (by simp)
  rw [createPacket_eq_sealAt hlen]
  exact checksum_sealAt (by omega) (by omega) rfl

end Training.IcmpPing
