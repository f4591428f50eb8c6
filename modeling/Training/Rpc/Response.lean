/-
Training.Rpc.Response — how the RPC server writes a response,
`serv_tcp_write` and `server_stream_call_pack_and_send` in
`C/04_tools/04_rpc/srv_xf.c`.

The socket is non-blocking: a `write` takes some of what it is given, or
fails. The outcomes of the writes of a response are given with it; a
write without one takes everything. So is what `malloc` does: without the
memory for the frame nothing is written, and the result is `-ENOMEM`.
-/
import Mathlib.Algebra.Ring.Nat
import Training.Rpc.Frame

namespace Training.Rpc

inductive WriteOutcome where
  /-- take at most `n + 1` bytes -/
  | took (n : Nat)
  /-- EAGAIN or EINTR -/
  | again
  | error
  deriving DecidableEq, Repr

/-- The most bytes the socket takes, if it takes some. -/
def WriteOutcome.taken : WriteOutcome → Option Nat
  | .took n => some (n + 1)
  | _ => none

/-- The loop of `serv_tcp_write`: its result, and the bytes the socket has
taken. Every turn writes a byte at least. -/
def servTcpWrite : List WriteOutcome → List UInt8 → Bool × List UInt8
  | [], buf => (true, buf)
  | .took n :: outcomes, buf =>
      if buf.isEmpty then (true, [])
      else
        let (ok, written) := servTcpWrite outcomes (buf.drop (n + 1))
        (ok, buf.take (n + 1) ++ written)
  | .again :: _, buf => (buf.isEmpty, [])
  | .error :: _, buf => (buf.isEmpty, [])

/-- A response: what `switch_cmd` puts into `msg`, up to its final 0,
whether there is memory for the frame, and the outcomes of the writes. -/
structure Answer where
  msg : List UInt8
  granted : Bool
  outcomes : List WriteOutcome

def serverStreamCallPackAndSend (answer : Answer) : Bool × List UInt8 :=
  if answer.granted then servTcpWrite answer.outcomes (streamCallPack answer.msg)
  else (false, [])

/-! ## What the socket has taken -/

/-- The socket takes `len` bytes: no write fails, or the ones before the
first that does take so many. -/
def Takes (outcomes : List WriteOutcome) (len : Nat) : Prop :=
  (∀ o ∈ outcomes, o.taken.isSome = true) ∨
    len ≤ ((outcomes.takeWhile fun o => o.taken.isSome).map fun o => o.taken.getD 0).sum

instance (outcomes : List WriteOutcome) (len : Nat) : Decidable (Takes outcomes len) :=
  inferInstanceAs (Decidable (_ ∨ _))

theorem servTcpWrite_prefix (outcomes : List WriteOutcome) (buf : List UInt8) :
    (servTcpWrite outcomes buf).2 <+: buf := by
  induction outcomes generalizing buf with
  | nil => exact List.prefix_refl _
  | cons o outcomes ih =>
    cases o with
    | took n =>
      unfold servTcpWrite
      split
      · exact List.nil_prefix
      · conv => rhs; rw [← List.take_append_drop (n + 1) buf]
        exact (List.prefix_append_right_inj _).mpr (ih _)
    | again => exact List.nil_prefix
    | error => exact List.nil_prefix

theorem takes_zero (outcomes : List WriteOutcome) : Takes outcomes 0 := Or.inr (Nat.zero_le _)

theorem takes_took {n len : Nat} {outcomes : List WriteOutcome} :
    Takes (.took n :: outcomes) len ↔ Takes outcomes (len - (n + 1)) := by
  simp only [Takes, WriteOutcome.taken, List.forall_mem_cons, List.takeWhile_cons,
    Option.isSome_some, if_true, List.map_cons, List.sum_cons, Option.getD_some, true_and]
  refine or_congr_right ?_
  omega

theorem takes_failed {len : Nat} {o : WriteOutcome} {outcomes : List WriteOutcome}
    (ho : o.taken = none) : Takes (o :: outcomes) len ↔ len = 0 := by
  simp [Takes, ho]

/-- The whole of `buf` has been written exactly when the socket takes so
many bytes. -/
theorem servTcpWrite_whole (outcomes : List WriteOutcome) (buf : List UInt8) :
    (servTcpWrite outcomes buf).2 = buf ↔ Takes outcomes buf.length := by
  induction outcomes generalizing buf with
  | nil => exact iff_of_true rfl (Or.inl (by simp))
  | cons o outcomes ih =>
    cases o with
    | took n =>
      rw [takes_took]
      unfold servTcpWrite
      split
      · rename_i hempty
        rw [List.isEmpty_iff.mp hempty]
        exact iff_of_true rfl (by simpa using takes_zero outcomes)
      · have hsplit := List.take_append_drop (n + 1) buf
        rw [← List.length_drop, ← ih]
        dsimp only
        constructor
        · intro h
          exact List.append_cancel_left (h.trans hsplit.symm)
        · intro h
          rw [h, hsplit]
    | again =>
      rw [takes_failed rfl, List.length_eq_zero_iff]
      exact eq_comm
    | error =>
      rw [takes_failed rfl, List.length_eq_zero_iff]
      exact eq_comm

theorem length_streamCallPack_pos (msg : List UInt8) : 0 < (streamCallPack msg).length := by
  rw [length_streamCallPack]
  exact Nat.lt_of_lt_of_le (by decide) (Nat.le_add_right packageHeadLen _)

theorem serverStreamCallPackAndSend_prefix (answer : Answer) :
    (serverStreamCallPackAndSend answer).2 <+: streamCallPack answer.msg := by
  unfold serverStreamCallPackAndSend
  split
  · exact servTcpWrite_prefix _ _
  · exact List.nil_prefix

/-- The frame has been written exactly when there was memory for it and the
socket takes it. -/
theorem serverStreamCallPackAndSend_whole (answer : Answer) :
    (serverStreamCallPackAndSend answer).2 = streamCallPack answer.msg ↔
      answer.granted = true ∧
        Takes answer.outcomes (packageHeadLen + answer.msg.length) := by
  unfold serverStreamCallPackAndSend
  split
  · rename_i hgranted
    rw [servTcpWrite_whole, length_streamCallPack]
    exact (and_iff_right hgranted).symm
  · rename_i hgranted
    refine iff_of_false (fun hempty => ?_) (fun h => hgranted h.1)
    exact absurd (congrArg List.length hempty) (Nat.ne_of_lt (length_streamCallPack_pos _))

end Training.Rpc
