/-
Training.Udp.WorkersTheorems — the lock discipline of the workers.

Everything the three threads do passes the static check of
`Training.Lib.Mutex` but for one path: `resend_expire_packet` holds the
mutex while it looks at the packets in flight, and for an expired one it
calls `get_and_update_current`, which locks it. So the discipline holds
in every run in which the expiry test is never true, under every meaning
of the other statements and tests (`disciplined_of_noTimeout`), and the
first packet that times out while the window is closed stops the
connection for good (`timeout_selfLock`).
-/
import Training.Udp.Workers

namespace Training.Udp.Workers

open Training.Lib

/-! ## The discipline without timeouts -/

/-- The expiry test of `resend_expire_packet`. -/
def isExpired : Test → Bool
  | .expired => true
  | _ => false

theorem operation_check (t : Thread) :
    (operation t).check isExpired false = some false := by
  cases t <;> decide

/-- With the expiry test, the operations of the application and of the
send worker do not pass: both call `flush_buffer`. -/
example : (operation .app).check (fun _ => false) false = none ∧
    (operation .sendWorker).check (fun _ => false) false = none ∧
    (operation .recvWorker).check (fun _ => false) false = some false := by
  decide

/-- Lock discipline: whatever statements and tests mean, and in whatever
order the three threads go, no thread locks the mutex it holds, none
unlocks it without holding it, and it is free between operations, in
every run that finds no packet expired. -/
theorem disciplined_of_noTimeout {σ ι : Type} (I : Interp Thread Stmt Test σ ι) (data : σ)
    (acts : List (Thread × ι))
    (h : Along (Threads.step I operation) (Threads.Refrains I isExpired)
      (Threads.start data) acts) :
    Throughout (Threads.step I operation) Threads.Disciplined (Threads.start data) acts :=
  disciplined_throughout operation_check data acts h

/-- `count` instructions of a thread at this time. -/
def instructions (count : Nat) (t : Thread) (now : Nat) (buff : List UInt8) :
    List (Thread × Input) :=
  List.replicate count (t, ⟨now, none, buff⟩)

/-- A byte is sent: the application writes it, the send worker makes a
packet and sends it. -/
def byteSent : List (Thread × Input) :=
  instructions 8 .app 0 [10] ++ instructions 84 .sendWorker 0 []

theorem disciplined_byteSent :
    Throughout (Threads.step meaning operation) Threads.Disciplined
      (Threads.start (Data.init protocolConfig 1)) byteSent :=
  disciplined_of_noTimeout meaning (Data.init protocolConfig 1) byteSent (by decide +kernel)

/-! ## The path that is left out -/

/-- A second byte closes the window, and five seconds later the send
worker checks the timer. -/
def packetExpires : List (Thread × Input) :=
  byteSent ++ instructions 8 .app 0 [20] ++ instructions 98 .sendWorker 0 []
    ++ instructions 18 .sendWorker 5000 []

/-- The send worker is about to lock the mutex it holds, and stays there
whatever the threads do after that. -/
theorem timeout_selfLock :
    let m := run (Threads.step meaning operation)
      (Threads.start (Data.init protocolConfig 1)) packetExpires
    ¬ m.Disciplined ∧ m.data.rdt.flightSendQueue.length = 2 ∧
      ∀ more, (run (Threads.step meaning operation) m more).holder = some .sendWorker ∧
        (run (Threads.step meaning operation) m more).stack .sendWorker
          = m.stack .sendWorker := by
  intro m
  have hholder : m.holder = some .sendWorker := by decide +kernel
  have hhead : (m.stack .sendWorker).head? = some .lock := by decide +kernel
  have hflight : m.data.rdt.flightSendQueue.length = 2 := by decide +kernel
  obtain ⟨k, hstack⟩ : ∃ k, m.stack .sendWorker = .lock :: k :=
    List.head?_eq_some_iff.mp hhead
  refine ⟨fun h => h.noSelfLock _ k hholder hstack, hflight, fun more => ?_⟩
  rw [hstack]
  exact selfLock_forever hholder hstack more

end Training.Udp.Workers
