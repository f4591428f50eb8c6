/-
Training.Udp.Workers — the three threads of a connection and its mutex.

The operations of `Training.Udp.Protocol` are atomic; here they are the
statements of the source, with `pthread_mutex_lock` and `_unlock` where
the source has them. Three threads repeat an operation each: the
application `rdt_send`, the send worker and the recv worker the body of
their loop. A helper that locks is a command of its own under the
source's name, so a nested call is a nested command.

`Stmt` and `Test` name the statements and conditions; `meaning` says what
they do to the connection record and the locals of their thread, with the
operations of `Training.Udp.Protocol` where one statement is one of them.
A statement is atomic, a lock is not: between any two instructions
another thread may run. What the environment gives a step is the clock,
the datagram `udt_recv` returns and the buffer `rdt_send` is called with.

Left out: `LOG`, `usleep`, `malloc`/`free` and the terminator store.
`exit (-1)` is the statement `exit`; the thread goes on after it here,
which only adds runs.
-/
import Training.Lib.Mutex
import Training.Udp.Protocol

namespace Training.Udp.Workers

open Training.Lib

/-! ## Statements and tests -/

inductive Thread where
  /-- the application in `rdt_send` -/
  | app
  | sendWorker
  | recvWorker
  deriving DecidableEq, Repr

inductive Stmt where
  -- `flush_buffer`
  | enterFlush
  | ringbuffRead
  | breakFlush
  | insertSendQueue
  -- `get_and_update_current`, `get_and_update_seq`, `make_packet`
  | setCurrent
  | returnCurrent
  | readSeq
  | advanceSeq
  | setTs
  | setSeq
  | setCmd (cmd : Training.Udp.Cmd)
  -- `flush_queue`
  | removeTail
  | insertFlight
  | insertUnack
  | udtSend
  -- `resend_expire_packet`
  | listBack
  | listPrev
  | stampPosition
  | resendPosition
  | countRetry
  | exit
  -- `rdt_send`
  | enterSend
  | ringbuffWrite
  -- `recv_worker_thread`
  | udtRecv
  | findPacket
  | clearBlame
  | findUnack
  | advanceSendBase
  | removeUnack
  | removeFlight
  | setAck
  | firstRecvBase
  | advanceRecvBase
  | pushRecvPacket
  | pushNextPacket
  | removeNextPacket
  | insertRecvQueue
  deriving DecidableEq, Repr

inductive Test where
  | flushing
  | windowFull
  | numbytesPos
  | sendQueueNotEmpty
  | packetIsSend
  | morePositions
  | expired
  | retryExceeded
  | noRoom
  | received
  | recvIsAck
  | recvIsSend
  | recvIsTest
  | ackBeforeBase
  | packetFound
  | unackFound
  | unackIsBase
  | noRecvBase
  | outsideWindow
  | inOrder
  | moreNextPackets
  | nextIsBase
  deriving DecidableEq, Repr

abbrev Code := Training.Lib.Cmd Stmt Test

/-! ## The code -/

def getAndUpdateCurrent : Code :=
  .block [.lock, .atom .setCurrent, .unlock, .atom .returnCurrent]

def getAndUpdateSeq : Code :=
  .block [.atom .readSeq, .lock, .atom .advanceSeq, .unlock]

def makePacket (cmd : Training.Udp.Cmd) : Code :=
  .block [getAndUpdateCurrent, .atom .setTs,
    if cmd = .send then .block [getAndUpdateSeq, .atom .setSeq] else .skip,
    .atom (.setCmd cmd)]

/-- The whole loop is one critical section; `get_and_update_current`
inside it locks again. -/
def resendExpirePacket : Code :=
  .block [.lock, .atom .listBack,
    .loop .morePositions (.block [
      .ite .expired
        (.block [getAndUpdateCurrent, .atom .stampPosition, .atom .resendPosition,
          .atom .countRetry, .ite .retryExceeded (.atom .exit) .skip])
        .skip,
      .atom .listPrev]),
    .unlock]

def flushBuffer : Code :=
  .block [.atom .enterFlush,
    .loop .flushing
      (.ite .windowFull
        (.block [resendExpirePacket, .atom .breakFlush])
        (.block [.atom .ringbuffRead,
          .ite .numbytesPos
            (.block [makePacket .send, .lock, .atom .insertSendQueue, .unlock])
            (.atom .breakFlush)]))]

def flushQueue : Code :=
  .loop .sendQueueNotEmpty (.block [.atom .removeTail,
    .ite .packetIsSend
      (.block [.lock, .atom .insertFlight, .unlock, .lock, .atom .insertUnack, .unlock])
      .skip,
    .atom .udtSend])

def rdtSend : Code :=
  .block [.atom .enterSend, .loop .noRoom flushBuffer, .atom .ringbuffWrite]

/-- The body of `send_worker_thread`'s loop. -/
def sendWorker : Code :=
  .block [flushBuffer, .ite .sendQueueNotEmpty flushQueue .skip]

/-- The ACK branch of `recv_worker_thread`. -/
def recvAck : Code :=
  .ite .ackBeforeBase .skip (.block [.atom .findPacket,
    .ite .packetFound
      (.block [.atom .clearBlame, .atom .findUnack,
        .ite .unackFound
          (.ite .unackIsBase
            (.block [.atom .advanceSendBase, .lock, .atom .removeUnack, .unlock])
            (.block [.lock, .atom .removeUnack, .unlock]))
          .skip,
        .lock, .atom .removeFlight, .unlock])
      .skip])

/-- The SEND branch. -/
def recvSend : Code :=
  .block [makePacket .ack, .atom .setAck, .lock, .atom .insertSendQueue, .unlock,
    .ite .noRecvBase
      (.block [.atom .firstRecvBase, .atom .pushRecvPacket])
      (.ite .outsideWindow .skip
        (.ite .inOrder
          (.block [.atom .pushRecvPacket, .atom .advanceRecvBase,
            .loop .moreNextPackets
              (.ite .nextIsBase
                (.block [.atom .pushNextPacket, .atom .advanceRecvBase,
                  .lock, .atom .removeNextPacket, .unlock])
                .skip)])
          (.block [.lock, .atom .insertRecvQueue, .unlock])))]

/-- The body of `recv_worker_thread`'s loop. -/
def recvWorker : Code :=
  .block [.atom .udtRecv,
    .ite .received
      (.ite .recvIsAck recvAck
        (.ite .recvIsSend recvSend (.ite .recvIsTest (.atom .pushRecvPacket) .skip)))
      .skip]

def operation : Thread → Code
  | .app => rdtSend
  | .sendWorker => sendWorker
  | .recvWorker => recvWorker

/-! ## The meaning of the statements -/

structure Locals where
  /-- `flush_buffer`'s loop goes on -/
  flushing : Bool
  /-- the argument of `rdt_send` -/
  input : List UInt8
  /-- the bytes in `flush_buffer`'s `buff` -/
  buff : List UInt8
  /-- what `get_and_update_current` and `get_and_update_seq` return -/
  now : Nat
  seq : Nat
  /-- the packet made or dequeued -/
  packet : Packet
  /-- `position` of `resend_expire_packet`, as the packets from it on -/
  place : Nat
  /-- the retry limit is exceeded -/
  retryExceeded : Bool
  /-- `recv_packet` -/
  recvPacket : Option Packet
  /-- `position` in `flight_send_queue` and in `unack_list` -/
  position : Option Packet
  unack : List Nat

structure Data where
  rdt : Rdt
  locals : Thread → Locals
  sent : List Packet
  exited : Bool

/-- What the environment gives a step. -/
structure Input where
  now : Nat
  datagram : Option Packet
  buff : List UInt8

def Packet.blank : Packet where
  seq := 0
  cmd := .null
  ack := 0
  ts := 0
  data := []

def Data.init (cfg : Config) (seq0 : Nat) : Data where
  rdt := createRdt cfg seq0
  locals _ :=
    { flushing := false, input := [], buff := [], now := 0, seq := 0, packet := Packet.blank, place := 0,
      retryExceeded := false, recvPacket := none, position := none, unack := [] }
  sent := []
  exited := false

def Data.setLocals (d : Data) (t : Thread) (l : Locals) : Data :=
  { d with locals := Function.update d.locals t l }

/-- The packet at `position` of `resend_expire_packet`. -/
def Data.resending (d : Data) (l : Locals) : Option Packet :=
  d.rdt.flightSendQueue[l.place - 1]?

def statement (t : Thread) (stmt : Stmt) (i : Input) (d : Data) : Data :=
  let s := d.rdt
  let l := d.locals t
  match stmt with
  | .enterFlush => d.setLocals t { l with flushing := true }
  | .ringbuffRead =>
      let (sendBuffer, tmp) := ringbuffRead s.sendBuffer s.mtu
      { d with rdt := { s with sendBuffer } }.setLocals t { l with buff := tmp }
  | .breakFlush => d.setLocals t { l with flushing := false }
  | .insertSendQueue => { d with rdt := { s with sendQueue := l.packet :: s.sendQueue } }
  | .setCurrent => { d with rdt := { s with current := i.now } }
  | .returnCurrent => d.setLocals t { l with now := s.current }
  | .readSeq => d.setLocals t { l with seq := s.currentSendSeq }
  | .advanceSeq =>
      { d with rdt := { s with currentSendSeq := SeqArith.uInt32.nextSeq s.currentSendSeq } }
  | .setTs => d.setLocals t { l with packet := { Packet.blank with ts := l.now } }
  | .setSeq => d.setLocals t { l with packet := { l.packet with seq := l.seq } }
  | .setCmd cmd =>
      d.setLocals t { l with
        packet := { l.packet with cmd, data := if cmd = .send then l.buff else [] } }
  | .removeTail =>
      { d with rdt := { s with sendQueue := s.sendQueue.dropLast } }.setLocals t
        { l with packet := s.sendQueue.getLast?.getD l.packet }
  | .insertFlight =>
      { d with rdt := { s with flightSendQueue := l.packet :: s.flightSendQueue } }
  | .insertUnack =>
      { d with rdt := { s with unackList := seqInsertToList id l.packet.seq s.unackList } }
  | .udtSend => { d with sent := d.sent ++ [l.packet] }
  | .listBack => d.setLocals t { l with place := s.flightSendQueue.length }
  | .listPrev => d.setLocals t { l with place := l.place - 1 }
  | .stampPosition =>
      match d.resending l with
      | none => d
      | some position =>
          { d with rdt := { s with
              flightSendQueue :=
                s.flightSendQueue.set (l.place - 1) { position with ts := l.now } } }
  | .resendPosition => { d with sent := d.sent ++ (d.resending l).toList }
  | .countRetry =>
      match d.resending l with
      | none => d
      | some position =>
          let (s, retryExceeded) := Training.Udp.countRetry s position.seq
          { d with rdt := s }.setLocals t { l with retryExceeded }
  | .exit => { d with exited := true }
  | .enterSend => d.setLocals t { l with input := i.buff }
  | .ringbuffWrite =>
      { d with rdt := { s with sendBuffer := (ringbuffWrite s.sendBuffer l.input).1 } }
  | .udtRecv => d.setLocals t { l with recvPacket := i.datagram }
  | .findPacket =>
      d.setLocals t { l with
        position := l.recvPacket.bind fun p => Training.Udp.findPacket s.flightSendQueue p.ack }
  | .clearBlame =>
      match l.position with
      | none => d
      | some position => { d with rdt := Training.Udp.clearBlame s position.seq }
  | .findUnack =>
      d.setLocals t { l with
        unack := (l.position.map fun p => Training.Udp.findUnack s.unackList p.seq).getD [] }
  | .advanceSendBase =>
      match l.unack with
      | [] => d
      | unack :: next =>
          { d with rdt := { s with
              sendWndBase := Training.Udp.advanceSendBase .uInt32 s.sendWndBase unack next } }
  | .removeUnack =>
      { d with rdt := { s with unackList := s.unackList.diff (l.unack.take 1) } }
  | .removeFlight =>
      match l.position with
      | none => d
      | some position =>
          { d with rdt := { s with
              flightSendQueue := s.flightSendQueue.eraseP (·.seq == position.seq) } }
  | .setAck =>
      d.setLocals t { l with
        packet := { l.packet with ack := (l.recvPacket.map Packet.seq).getD 0 } }
  | .firstRecvBase =>
      { d with rdt := { s with
          recvWndBase := SeqArith.uInt32.add ((l.recvPacket.map Packet.seq).getD 0) 1 } }
  | .advanceRecvBase =>
      { d with rdt := { s with recvWndBase := SeqArith.uInt32.add s.recvWndBase 1 } }
  | .pushRecvPacket =>
      match l.recvPacket with
      | none => d
      | some p => { d with rdt := (pushToRecvBuff s p).1 }
  | .pushNextPacket =>
      match s.recvQueue with
      | [] => d
      | p :: _ => { d with rdt := (pushToRecvBuff s p).1 }
  | .removeNextPacket => { d with rdt := { s with recvQueue := s.recvQueue.tail } }
  | .insertRecvQueue =>
      match l.recvPacket with
      | none => d
      | some p =>
          { d with rdt := { s with recvQueue := seqInsertToList Packet.seq p s.recvQueue } }

def test (t : Thread) (c : Test) (i : Input) (d : Data) : Bool :=
  let s := d.rdt
  let l := d.locals t
  let p := l.recvPacket.getD Packet.blank
  match c with
  | .flushing => l.flushing
  | .windowFull => Training.Udp.windowFull .uInt32 s
  | .numbytesPos => decide (l.buff.length > 0)
  | .sendQueueNotEmpty => !s.sendQueue.isEmpty
  | .packetIsSend => decide (l.packet.cmd = .send)
  | .morePositions => decide (l.place > 0)
  | .expired =>
      match d.resending l with
      | none => false
      | some position => decide (timeDiff i.now position.ts > packetExpireTime)
  | .retryExceeded => l.retryExceeded
  | .noRoom => decide (l.input.length > ringbuffFreeSize s.sendBuffer)
  | .received => l.recvPacket.isSome
  | .recvIsAck => decide (p.cmd = .ack)
  | .recvIsSend => decide (p.cmd = .send)
  | .recvIsTest => decide (p.cmd = .test)
  | .ackBeforeBase => decide (p.ack < s.sendWndBase)
  | .packetFound => l.position.isSome
  | .unackFound => !l.unack.isEmpty
  | .unackIsBase => decide (l.unack.head? = some s.sendWndBase)
  | .noRecvBase => decide (0 = s.recvWndBase)
  | .outsideWindow =>
      decide (p.seq < s.recvWndBase ∨ SeqArith.uInt32.add s.recvWndBase s.wndSize < p.seq)
  | .inOrder => decide (p.seq = s.recvWndBase)
  | .moreNextPackets => !s.recvQueue.isEmpty
  | .nextIsBase => decide (s.recvQueue.head?.map Packet.seq = some s.recvWndBase)

def meaning : Interp Thread Stmt Test Data Input where
  atom := statement
  test := test

end Training.Udp.Workers
