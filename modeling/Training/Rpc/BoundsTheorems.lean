/-
Training.Rpc.BoundsTheorems — the memory the receive path writes to.

A connection sees its bytes arrive, calls of `epoll_recv` with any
outcomes of their reads, the end of the data and a hang-up, in any order
(`Event`). Every `read` asks for no more than the rest of its buffer, and
the counters of a record with a complete header stay within its length,
as long as the headers that have been read announce lengths that fit
(`HeadersFit`): the one allocation of a connection has the length that
its first header announces, and the code compares later lengths with
nothing.
-/
import Training.Lib.Machine
import Training.Rpc.ServerTheorems

namespace Training.Rpc

open Training.Lib

inductive Event where
  | arrive (bytes : List UInt8)
  /-- the peer sends no more -/
  | shut
  | epollRecv (outcomes : List Outcome)
  /-- EPOLLERR or EPOLLHUP -/
  | hangUp

def Conn.shut (c : Conn) : Conn := { c with source := { c.source with closed := true } }

def step (mem : Nat → Bool) (c : Conn) : Event → Conn
  | .arrive bytes => c.arrive bytes
  | .shut => c.shut
  | .epollRecv outcomes => epollRecv mem outcomes c
  | .hangUp => c.remove

variable {mem : Nat → Bool} {c : Conn}

theorem inv_arrive (bytes : List UInt8) (h : c.Inv mem) : (c.arrive bytes).Inv mem :=
  ⟨h.dispatched, h.overflow, h.refused, h.held, h.client,
    fun hfit => ⟨(h.sound hfit).requests, (h.sound hfit).records⟩⟩

theorem inv_shut (h : c.Inv mem) : c.shut.Inv mem :=
  ⟨h.dispatched, h.overflow, h.refused, h.held, h.client,
    fun hfit => ⟨(h.sound hfit).requests, (h.sound hfit).records⟩⟩

theorem inv_step (e : Event) (h : c.Inv mem) : (step mem c e).Inv mem := by
  cases e with
  | arrive bytes => exact inv_arrive bytes h
  | shut => exact inv_shut h
  | epollRecv outcomes => exact inv_epollRecv outcomes h
  | hangUp => exact inv_remove h

/-- In every state of every run: if the lengths in the headers read so far
fit, every read so far stayed within its buffer, and the counters of the
record within the length announced. -/
theorem sound_of_headersFit (mem : Nat → Bool) (events : List Event)
    (hfit : HeadersFit mem
      (headers (run (step mem) (Conn.init { unread := [], closed := false }) events).received)) :
    (run (step mem) (Conn.init { unread := [], closed := false }) events).Sound := by
  have hinv : (run (step mem) (Conn.init { unread := [], closed := false }) events).Inv mem :=
    run_invariant' (I := Conn.Inv mem) (fun _ e h => inv_step e h) events (inv_init _)
  exact hinv.sound ((headersFit_announced _).mpr hfit)

/-- Two requests in odd pieces, the second shorter than the first. -/
theorem sound_twoRequests :
    (run (step fun _ => true) (Conn.init { unread := [], closed := false })
      [.arrive (streamCallPack [1, 2, 3] ++ (streamCallPack [4]).take 6), .epollRecv [.short 4],
        .epollRecv [], .arrive ((streamCallPack [4]).drop 6), .epollRecv [.intr],
        .epollRecv [.whole, .short 0]]).Sound :=
  sound_of_headersFit _ _ ((headersFit_announced _).mp (by decide))

/-- A header with the length 0xffffffff, and a request longer than the
first. -/
theorem unsound_headers :
    ¬ (run (step fun _ => true) (Conn.init { unread := [], closed := false })
        [.arrive (packHead 4294967295), .epollRecv []]).Sound ∧
      ¬ (run (step fun _ => true) (Conn.init { unread := [], closed := false })
        [.arrive (streamCallPack [1] ++ packHead 2), .epollRecv [], .epollRecv []]).Sound :=
  ⟨fun h => absurd h.requests (by decide), fun h => absurd h.requests (by decide)⟩

end Training.Rpc
