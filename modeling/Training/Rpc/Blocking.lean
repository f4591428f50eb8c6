/-
Training.Rpc.Blocking — the blocking receiver of the RPC server,
`server_stream_call_recv_and_unpack` in `C/04_tools/04_rpc/srv_xf.c`.

`serv_tcp_read` returns `len` or a negative number, so the branches of
its caller for other results are never taken and are left out. `buf` is
the caller's, of RPC_BUFF_MAX bytes at least.
-/
import Training.Lib.Reads
import Training.Rpc.Frame

namespace Training.Rpc

open Training.Lib

inductive ServErrno where
  | again
  | intr
  | other
  | hostdown
  | io
  | msgsize
  deriving DecidableEq, Repr

/-- A descriptor, and the outcomes of the reads to come. -/
structure Descriptor where
  source : Source UInt8
  outcomes : List Outcome

/-- The loop of `serv_tcp_read` with `len` bytes to go and `buf` there;
every turn reads a byte at least. -/
def servTcpReadLoop :
    Nat → Descriptor → List UInt8 → Nat → Except ServErrno (List UInt8) × Descriptor
  | 0, fd, buf, _ => (.ok buf, fd)
  | fuel + 1, fd, buf, len =>
      if len = 0 then (.ok buf, fd)
      else
        let (got, source) := fd.source.read (fd.outcomes.headD .whole) len
        let fd := { source, outcomes := fd.outcomes.tail }
        match got with
        | .elems bs => servTcpReadLoop fuel fd (buf ++ bs) (len - bs.length)
        | .eof => (.error .hostdown, fd)
        | .again => (.error .again, fd)
        | .intr => (.error .intr, fd)
        | .error => (.error .other, fd)

def servTcpRead (fd : Descriptor) (len : Nat) : Except ServErrno (List UInt8) × Descriptor :=
  servTcpReadLoop (len + 1) fd [] len

def serverStreamCallRecvAndUnpack (fd : Descriptor) :
    Except ServErrno (List UInt8) × Descriptor :=
  match servTcpRead fd packageHeadLen with
  | (.error e, fd) => (.error e, fd)
  | (.ok head, fd) =>
      if !hasMagic head then (.error .io, fd)
      else if rpcBuffMax < dataLen head then (.error .msgsize, fd)
      else servTcpRead fd (dataLen head)

/-- Called again and again, up to its first error; every turn reads a
header at least. -/
def recvAll : Nat → Descriptor → List (List UInt8)
  | 0, _ => []
  | fuel + 1, fd =>
      match serverStreamCallRecvAndUnpack fd with
      | (.error _, _) => []
      | (.ok buf, fd) => buf :: recvAll fuel fd

/-! ## Reading -/

/-- The loop is `fill`. -/
theorem servTcpReadLoop_eq (fuel : Nat) (fd : Descriptor) (buf : List UInt8) (len : Nat)
    (hfuel : len < fuel) :
    let r := fill fuel fd.source fd.outcomes len
    (servTcpReadLoop fuel fd buf len).2 = ⟨r.source, r.outcomes⟩ ∧
      (r.stop = .full → (servTcpReadLoop fuel fd buf len).1 = .ok (buf ++ r.elems)) ∧
      (r.stop ≠ .full → ∃ e, (servTcpReadLoop fuel fd buf len).1 = .error e) := by
  induction fuel generalizing fd buf len with
  | zero => omega
  | succ fuel ih =>
    unfold fill servTcpReadLoop
    by_cases hlen : len = 0
    · simp [hlen]
    · simp only [hlen, if_false]
      generalize hread : fd.source.read (fd.outcomes.headD .whole) len = g
      obtain ⟨got, source⟩ := g
      cases got with
      | elems bs =>
        obtain ⟨hne, hle, -, -⟩ := read_elems hread
        have hpos := List.length_pos_iff.mpr hne
        obtain ⟨hfd, hfull, hfail⟩ := ih ⟨source, fd.outcomes.tail⟩ (buf ++ bs)
          (len - bs.length) (by omega)
        refine ⟨hfd, fun h => ?_, hfail⟩
        rw [← List.append_assoc]
        exact hfull h
      | eof => simp
      | again => simp
      | intr => simp
      | error => simp

/-- A blocking descriptor whose data ends: no read fails, or is
interrupted. -/
structure Descriptor.Blocking (fd : Descriptor) : Prop where
  closed : fd.source.closed = true
  outcomes : ∀ o ∈ fd.outcomes, o.delivers = true

/-- The bytes asked for, if they are there. -/
theorem servTcpRead_spec {fd : Descriptor} (len : Nat) (h : fd.Blocking) :
    ∃ fd' : Descriptor, fd'.Blocking ∧
      (len ≤ fd.source.unread.length →
        servTcpRead fd len = (.ok (fd.source.unread.take len), fd') ∧
          fd'.source.unread = fd.source.unread.drop len) ∧
      (fd.source.unread.length < len → ∃ e, servTcpRead fd len = (.error e, fd')) := by
  have hspec := fill_spec (len + 1) fd.source fd.outcomes (Nat.lt_succ_self len)
  have heq := servTcpReadLoop_eq (len + 1) fd [] len (Nat.lt_succ_self len)
  generalize fill (len + 1) fd.source fd.outcomes len = r at hspec heq
  obtain ⟨hfd, hfull, hfail⟩ := heq
  have hsplit := hspec.split
  have hstop := hspec.stopped
  have hno : ∀ o ∈ fd.outcomes, o ≠ .again ∧ o ≠ .intr ∧ o ≠ .error := by
    intro o ho
    have hdel := h.outcomes o ho
    refine ⟨?_, ?_, ?_⟩ <;> rintro rfl <;> cases hdel
  refine ⟨⟨r.source, r.outcomes⟩,
    ⟨hspec.closed.trans h.closed, fun o ho => h.outcomes o (hspec.outcomes o ho)⟩, ?_⟩
  unfold Filled.Stopped at hstop
  cases hr : r.stop with
  | full =>
    simp only [hr] at hstop
    refine ⟨fun _ => ⟨Prod.ext ?_ hfd, ?_⟩, fun hlt => ?_⟩
    · rw [hsplit, List.take_left' hstop]
      exact hfull hr
    · rw [hsplit, List.drop_left' hstop]
    · rw [hsplit, List.length_append] at hlt
      omega
  | eof =>
    simp only [hr] at hstop
    have hall : fd.source.unread.length < len := by
      rw [hsplit, hstop.2.1, List.append_nil]
      exact hstop.1
    refine ⟨fun hle => by omega, fun _ => ?_⟩
    obtain ⟨e, he⟩ := hfail (by simp [hr])
    exact ⟨e, Prod.ext he hfd⟩
  | again =>
    simp only [hr] at hstop
    rcases hstop.2 with hag | ⟨-, hopen⟩
    · exact absurd rfl (hno _ hag).1
    · rw [hspec.closed, h.closed] at hopen
      cases hopen
  | intr =>
    simp only [hr] at hstop
    exact absurd rfl (hno _ hstop.2).2.1
  | error =>
    simp only [hr] at hstop
    exact absurd rfl (hno _ hstop.2).2.2

/-! ## The frames of a byte string -/

/-- The string starts with a frame: its magic, a length of RPC_BUFF_MAX at
most, and so many bytes. -/
def Acceptable (s : List UInt8) : Prop :=
  packageHeadLen ≤ s.length ∧ hasMagic (s.take packageHeadLen) = true ∧
    dataLen (s.take packageHeadLen) ≤ rpcBuffMax ∧
    packageHeadLen + dataLen (s.take packageHeadLen) ≤ s.length

instance (s : List UInt8) : Decidable (Acceptable s) := inferInstanceAs (Decidable (_ ∧ _))

/-- The payloads of the frames at the front of a string, and what is
behind them. -/
structure Frames (s : List UInt8) (ps : List (List UInt8)) (rest : List UInt8) : Prop where
  split : s = ps.flatMap streamCallPack ++ rest
  length_le : ∀ p ∈ ps, p.length ≤ rpcBuffMax
  rest : ¬ Acceptable rest

theorem acceptable_streamCallPack {p : List UInt8} (h : p.length ≤ rpcBuffMax)
    (rest : List UInt8) :
    Acceptable (streamCallPack p ++ rest) ∧
      dataLen ((streamCallPack p ++ rest).take packageHeadLen) = p.length := by
  have hlt : p.length < uint32Size := Nat.lt_of_le_of_lt h (by decide)
  have hhead : (streamCallPack p ++ rest).take packageHeadLen = packHead p.length := by
    rw [streamCallPack, List.append_assoc, List.take_left' (length_packHead p.length)]
  unfold Acceptable
  rw [hhead, dataLen_packHead hlt]
  refine ⟨⟨?_, hasMagic_packHead _, h, ?_⟩, rfl⟩
  · rw [List.length_append, length_streamCallPack]
    omega
  · rw [List.length_append, length_streamCallPack]
    omega

theorem serverStreamCallRecvAndUnpack_spec {fd : Descriptor} (h : fd.Blocking) :
    (Acceptable fd.source.unread → ∃ fd' : Descriptor, fd'.Blocking ∧
      serverStreamCallRecvAndUnpack fd =
        (.ok ((fd.source.unread.drop packageHeadLen).take
          (dataLen (fd.source.unread.take packageHeadLen))), fd') ∧
      fd'.source.unread =
        fd.source.unread.drop (packageHeadLen + dataLen (fd.source.unread.take packageHeadLen))) ∧
    (¬ Acceptable fd.source.unread → ∃ e fd', serverStreamCallRecvAndUnpack fd = (.error e, fd')) := by
  obtain ⟨fd₁, h₁, hok, hfail⟩ := servTcpRead_spec packageHeadLen h
  rcases Nat.lt_or_ge fd.source.unread.length packageHeadLen with hshort | hlong
  · refine ⟨fun hacc => absurd hacc.1 (by omega), fun _ => ?_⟩
    obtain ⟨e, he⟩ := hfail hshort
    exact ⟨e, fd₁, by rw [serverStreamCallRecvAndUnpack, he]⟩
  · obtain ⟨hhead, hrest⟩ := hok hlong
    unfold serverStreamCallRecvAndUnpack Acceptable
    rw [hhead]
    generalize fd.source.unread.take packageHeadLen = head
    obtain ⟨fd₂, h₂, hok₂, hfail₂⟩ := servTcpRead_spec (dataLen head) h₁
    rw [hrest, List.length_drop] at hok₂ hfail₂
    dsimp only
    cases hmagic : hasMagic head with
    | false => exact ⟨fun hacc => absurd hacc.2.1 (by simp), fun _ => ⟨.io, fd₁, rfl⟩⟩
    | true =>
      simp only [Bool.not_true, Bool.false_eq_true, if_false, true_and]
      by_cases hbig : rpcBuffMax < dataLen head
      · rw [if_pos hbig]
        exact ⟨fun hacc => absurd hacc.2.1 (by omega), fun _ => ⟨.msgsize, fd₁, rfl⟩⟩
      · rw [if_neg hbig]
        constructor
        · intro hacc
          obtain ⟨hread, hleft⟩ := hok₂ (by omega)
          exact ⟨fd₂, h₂, hread, by rw [hleft, List.drop_drop]⟩
        · intro hacc
          obtain ⟨e, he⟩ := hfail₂ (by omega)
          exact ⟨e, fd₂, he⟩

/-- The blocking receiver accepts the frames at the front of its data. -/
theorem recvAll_spec {fd : Descriptor} {ps : List (List UInt8)} {rest : List UInt8} {fuel : Nat}
    (h : fd.Blocking) (hframes : Frames fd.source.unread ps rest) (hfuel : ps.length < fuel) :
    recvAll fuel fd = ps := by
  induction ps generalizing fd fuel with
  | nil =>
    obtain ⟨fuel, rfl⟩ := Nat.exists_eq_succ_of_ne_zero (Nat.ne_of_gt (Nat.zero_lt_of_lt hfuel))
    have hrest : fd.source.unread = rest := hframes.split
    obtain ⟨e, fd', hfail⟩ := (serverStreamCallRecvAndUnpack_spec h).2 (hrest ▸ hframes.rest)
    rw [recvAll, hfail]
  | cons p ps ih =>
    obtain ⟨fuel, rfl⟩ := Nat.exists_eq_succ_of_ne_zero (Nat.ne_of_gt (Nat.zero_lt_of_lt hfuel))
    have hsplit : fd.source.unread = streamCallPack p ++ (ps.flatMap streamCallPack ++ rest) := by
      rw [hframes.split, List.flatMap_cons, List.append_assoc]
    obtain ⟨hp, hps⟩ := List.forall_mem_cons.mp hframes.length_le
    obtain ⟨hacc, hlen⟩ := acceptable_streamCallPack hp (ps.flatMap streamCallPack ++ rest)
    rw [← hsplit] at hacc hlen
    obtain ⟨fd', h', hok, hleft⟩ := (serverStreamCallRecvAndUnpack_spec h).1 hacc
    rw [hlen] at hok hleft
    have hnext : fd'.source.unread = ps.flatMap streamCallPack ++ rest := by
      rw [hleft, hsplit, List.drop_left' (length_streamCallPack p)]
    have hpayload : (fd.source.unread.drop packageHeadLen).take p.length = p := by
      rw [hsplit, streamCallPack, List.append_assoc, List.drop_left' (length_packHead p.length),
        List.take_left]
    rw [recvAll, hok, hpayload]
    exact congrArg _ (ih h' ⟨hnext, hps, hframes.rest⟩ (by simpa using hfuel))

/-- Every string has its frames. -/
theorem exists_frames (s : List UInt8) : ∃ ps rest, Frames s ps rest := by
  induction hn : s.length using Nat.strongRecOn generalizing s with
  | ind n ih =>
    by_cases hacc : Acceptable s
    · obtain ⟨hlong, hmagic, hmax, hfit⟩ := hacc
      obtain ⟨ps, rest, hsplit, hlen, hrest⟩ := ih _ (by
        rw [List.length_drop]
        simp only [packageHeadLen] at hlong ⊢
        omega) (s.drop (packageHeadLen + dataLen (s.take packageHeadLen))) rfl
      have hp : ((s.drop packageHeadLen).take (dataLen (s.take packageHeadLen))).length =
          dataLen (s.take packageHeadLen) := by
        rw [List.length_take, List.length_drop]
        omega
      have hpack : streamCallPack
          ((s.drop packageHeadLen).take (dataLen (s.take packageHeadLen))) ++
            s.drop (packageHeadLen + dataLen (s.take packageHeadLen)) = s := by
        rw [streamCallPack, hp, packHead_dataLen (List.length_take_of_le hlong) hmagic,
          List.append_assoc, ← List.drop_drop, List.take_append_drop, List.take_append_drop]
      refine ⟨_ :: ps, rest, ?_, List.forall_mem_cons.mpr ⟨by rw [hp]; exact hmax, hlen⟩, hrest⟩
      rw [List.flatMap_cons, List.append_assoc, ← hsplit, hpack]
    · exact ⟨[], s, rfl, by simp, hacc⟩

end Training.Rpc
