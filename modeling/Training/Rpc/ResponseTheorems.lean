/-
Training.Rpc.ResponseTheorems — what the server has put on a connection.

Every response but the last is whole exactly when there was memory for
each of them and the socket took all its bytes: `serv_tcp_write` gives up
at a failed `write`, and nothing above it looks at its result. Each function of the receive path
leaves `sent` and `responses` alone, up to the one that responds.
-/
import Mathlib.Data.List.Basic
import Training.Rpc.BoundsTheorems

namespace Training.Rpc

open Training.Lib

variable {mem : Nat → Bool} {c c' : Conn}

def Response.frame (r : Response) : List UInt8 := streamCallPack r.answer.msg

/-- The responses but the last are whole frames, and the last is begun
behind them. -/
structure Conn.Whole (c : Conn) : Prop where
  completed : ∀ r ∈ c.responses.dropLast, r.written = r.frame
  sent : ∃ part, c.sent = c.responses.dropLast.flatMap Response.frame ++ part ∧
    ∀ r ∈ c.responses.getLast?, part <+: r.frame

/-- What is on the connection is what the responses have written. -/
structure Conn.Sends (c : Conn) : Prop where
  sent : c.sent = c.responses.flatMap Response.written
  written : ∀ r ∈ c.responses, r.written = (serverStreamCallPackAndSend r.answer).2

theorem sends_respond (h : c.Sends) : c.respond.Sends where
  sent := by
    simp only [Conn.respond, h.sent, List.flatMap_append, List.flatMap_cons, List.flatMap_nil,
      List.append_nil]
  written := by
    intro r hr
    rcases List.mem_append.mp hr with hold | hnew
    · exact h.written r hold
    · rw [List.mem_singleton.mp hnew]

/-- `c'` has sent what `c` has. -/
structure Conn.Quiet (c c' : Conn) : Prop where
  sent : c'.sent = c.sent
  responses : c'.responses = c.responses

theorem Conn.Quiet.trans {c'' : Conn} (h : c.Quiet c') (h' : c'.Quiet c'') : c.Quiet c'' :=
  ⟨h'.sent.trans h.sent, h'.responses.trans h.responses⟩

theorem Conn.Quiet.sends (h : c.Quiet c') (hc : c.Sends) : c'.Sends where
  sent := by rw [h.sent, h.responses, hc.sent]
  written := by rw [h.responses]; exact hc.written

/-! ## The receive path -/

theorem quiet_recv (c : Conn) (count room : Int) :
    (∀ {bs c'}, c.recv count room = .ok (bs, c') → c.Quiet c') ∧
      ∀ {errno c'}, c.recv count room = .error (errno, c') → c.Quiet c' := by
  unfold Conn.recv
  dsimp only
  split
  · refine ⟨fun h => absurd h (by simp), fun h => ?_⟩
    cases h
    exact ⟨rfl, rfl⟩
  · generalize c.source.read (c.outcomes.headD .whole) (sizeT count) = g
    obtain ⟨got, source⟩ := g
    cases got with
    | elems bs =>
      refine ⟨fun h => ?_, fun h => absurd h (by simp)⟩
      cases h
      exact ⟨rfl, rfl⟩
    | _ =>
      refine ⟨fun h => absurd h (by simp), fun h => ?_⟩
      cases h
      exact ⟨rfl, rfl⟩

theorem quiet_headDone (client : Client) : c.Quiet (headDone mem c client).2 := by
  unfold headDone
  split
  · exact ⟨rfl, rfl⟩
  · dsimp only
    split
    · exact ⟨rfl, rfl⟩
    · exact ⟨rfl, rfl⟩

theorem quiet_recvHeadLoop (fuel : Nat) : c.Quiet (recvHeadLoop mem fuel c).2 := by
  induction fuel generalizing c with
  | zero => exact ⟨rfl, rfl⟩
  | succ fuel ih =>
    unfold recvHeadLoop
    dsimp only
    split
    · rename_i hrecv
      exact (quiet_recv _ _ _).2 hrecv
    · rename_i hrecv
      have hquiet := (quiet_recv _ _ _).1 hrecv
      split
      · exact hquiet.trans (quiet_headDone _)
      · exact hquiet.trans ⟨ih.sent, ih.responses⟩

theorem quiet_recvHead : c.Quiet (recvHead mem c).2 := by
  unfold recvHead
  split
  · exact ⟨rfl, rfl⟩
  · exact quiet_recvHeadLoop _

theorem quiet_recvDataLoop (fuel : Nat) : c.Quiet (recvDataLoop fuel c).2 := by
  induction fuel generalizing c with
  | zero => exact ⟨rfl, rfl⟩
  | succ fuel ih =>
    unfold recvDataLoop
    dsimp only
    split
    · rename_i hrecv
      exact (quiet_recv _ _ _).2 hrecv
    · rename_i hrecv
      have hquiet := (quiet_recv _ _ _).1 hrecv
      split
      · exact hquiet.trans ⟨rfl, rfl⟩
      · split
        · exact hquiet.trans ⟨rfl, rfl⟩
        · split
          · exact hquiet.trans ⟨ih.sent, ih.responses⟩
          · exact hquiet.trans ⟨rfl, rfl⟩

theorem quiet_recvData : c.Quiet (recvData c).2 := by
  unfold recvData
  split
  · exact ⟨rfl, rfl⟩
  · exact quiet_recvDataLoop _

theorem sends_switchCmd (h : c.Sends) : (switchCmd c).Sends := by
  have hquiet : c.Quiet { c with dispatched := c.dispatched ++ [c.client.request] } := ⟨rfl, rfl⟩
  have hrespond := sends_respond (hquiet.sends h)
  exact ⟨hrespond.sent, hrespond.written⟩

theorem sends_epollRecvBody (h : c.Sends) : (epollRecvBody c).Sends := by
  unfold epollRecvBody
  have hdata : (if c.client.bodyReady then (Rc.ok, c) else recvData c).2.Sends := by
    split
    · exact h
    · exact quiet_recvData.sends h
  generalize (if c.client.bodyReady then (Rc.ok, c) else recvData c) = r at hdata ⊢
  dsimp only
  split
  · exact hdata
  · split
    · exact sends_switchCmd hdata
    · exact hdata

theorem sends_epollRecv (os : List Outcome) (h : c.Sends) : (epollRecv mem os c).Sends := by
  unfold epollRecv
  split
  · exact h
  · have hevent : (c.event os).Sends := ⟨h.sent, h.written⟩
    have hhead : (if (c.event os).client.headReady then (Rc.ok, c.event os)
        else recvHead mem (c.event os)).2.Sends := by
      split
      · exact hevent
      · exact quiet_recvHead.sends hevent
    dsimp only
    generalize (if (c.event os).client.headReady then (Rc.ok, c.event os)
        else recvHead mem (c.event os)) = r at hhead ⊢
    split
    · exact hhead
    · exact sends_epollRecvBody hhead

theorem sends_step (mem : Nat → Bool) (e : Event) (h : c.Sends) : (step mem c e).Sends := by
  cases e with
  | arrive bytes => exact ⟨h.sent, h.written⟩
  | shut => exact ⟨h.sent, h.written⟩
  | epollRecv outcomes => exact sends_epollRecv outcomes h
  | hangUp => exact ⟨h.sent, h.written⟩

/-! ## Whole frames -/

theorem whole_iff_completed (h : c.Sends) :
    c.Whole ↔ ∀ r ∈ c.responses.dropLast, r.written = r.frame := by
  refine ⟨Conn.Whole.completed, fun hall => ⟨hall, ?_⟩⟩
  rw [h.sent]
  cases hlast : c.responses.getLast? with
  | none =>
    rw [List.getLast?_eq_none_iff.mp hlast]
    exact ⟨[], rfl, by simp⟩
  | some r =>
    have hsplit : c.responses = c.responses.dropLast ++ [r] :=
      (List.dropLast_append_getLast? r hlast).symm
    refine ⟨r.written, ?_, fun r' hr' => ?_⟩
    · conv => lhs; rw [hsplit]
      rw [List.flatMap_append, List.flatMap_congr hall, List.flatMap_cons, List.flatMap_nil,
        List.append_nil]
    · obtain rfl := Option.some.inj hr'
      have hmem : r ∈ c.responses := by
        rw [hsplit]
        simp
      rw [h.written r hmem]
      exact serverStreamCallPackAndSend_prefix _

/-- In every state of every run: the responses before the last are whole
frames exactly when there was memory for each of them, and the socket took
so many bytes. -/
theorem whole_iff (mem : Nat → Bool) (answers : List Answer) (events : List Event) :
    (run (step mem) ((Conn.init { unread := [], closed := false }).answering answers) events).Whole ↔
      ∀ r ∈ (run (step mem) ((Conn.init { unread := [], closed := false }).answering answers)
          events).responses.dropLast,
        r.answer.granted = true ∧ Takes r.answer.outcomes (packageHeadLen + r.answer.msg.length) := by
  have hstart : ((Conn.init { unread := [], closed := false }).answering answers).Sends :=
    ⟨rfl, by simp [Conn.answering, Conn.init]⟩
  have hsends := run_invariant' (I := Conn.Sends) (fun _ e h => sends_step mem e h)
    events hstart
  rw [whole_iff_completed hsends]
  refine forall₂_congr fun r hr => ?_
  rw [hsends.written r (List.dropLast_subset _ hr), Response.frame,
    serverStreamCallPackAndSend_whole]

/-- The first response stops after three bytes, and the second follows. -/
theorem torn_responses :
    ¬ (run (step fun _ => true)
        ((Conn.init { unread := [], closed := false }).answering
          [⟨[104, 105, 0], true, [.took 2, .again]⟩, ⟨[104, 111, 0], true, []⟩])
        [.arrive (streamCallPack [1]), .epollRecv [], .arrive (streamCallPack [2]),
          .epollRecv []]).Whole := by
  intro h
  have hwritten := List.map_congr_left h.completed
  exact absurd hwritten (by decide)

end Training.Rpc
