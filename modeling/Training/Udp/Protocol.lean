/-
Training.Udp.Protocol — the reliable-UDP protocol of
`Warehouse/C/C-protocol/udp/protocol.c`: packets, the `rdt_t` record and
the operations the two workers and the application perform on it.

Each definition here is one operation the workers interleave: one
iteration of `flush_buffer`'s loop, one dequeue of `flush_queue`, one
retransmission, the handling of one datagram. The mutex that makes them
atomic is the subject of `Training.Udp.Workers`, the bytes of a datagram
of `Training.Udp.Wire`.

Translation notes.

* A `list_node` ring is the list from `list_begin` to `list_end`, and an
  iterator into it is the suffix that starts at its node (`[]` is
  `list_end`, and `NULL` where a search returns it).
* `u_int32_t` sequence numbers are natural numbers, and the arithmetic
  the code does on them is a parameter: `SeqArith.uInt32` is the code's,
  `SeqArith.unbounded` the same operations with no word size. Every
  operation that computes a sequence number takes the parameter, so one
  definition is both machines.
* `len` and `pkt_size` are functions of the payload, as `make_packet`
  sets them. The fields `sync`, `wnd`, `una` of `packet_t` and
  `send_una`, `send_queue_len`, `recv_queue_len` of `rdt_t` are never
  read. `seq` of an ACK and `ack` of a SEND are never set and never read;
  they are 0 here.
* `get_current ()` is an argument `now` of the operation that calls it.
* `flush_queue` allocates a node of `unack_list` with
  `malloc (sizeof (unack))`, the size of a pointer and not of the record, so
  what it writes there goes past the block. The list here has the node it
  means to have.
-/
import Training.Udp.RingBufferTheorems

namespace Training.Udp

/-! ## Constants -/

def rdtMtu : Nat := 1024
def seqNumMax : Nat := 4294967295
def maxProtocolBuffLen : Nat := 4 * 1024 * 1024
def rdtWindowSize : Nat := 2
def packetExpireTime : Nat := 1000
def packetResendRetryMax : Nat := 10

/-- The number of values of `u_int32_t`. -/
def uInt32Size : Nat := 4294967296

/-- What `create_rdt` fixes for a connection. The code has one such
record (`protocolConfig`); the theorems hold for all of them. -/
structure Config where
  mtu : Nat
  wndSize : Nat
  buffLen : Nat
  mtu_pos : 0 < mtu
  wnd_pos : 0 < wndSize
  buff_pos : 0 < buffLen

def protocolConfig : Config where
  mtu := rdtMtu
  wndSize := rdtWindowSize
  buffLen := maxProtocolBuffLen
  mtu_pos := by decide
  wnd_pos := by decide
  buff_pos := by decide

/-! ## Sequence-number arithmetic -/

/-- `a - b` on `u_int32_t`. -/
def uSub (a b : Nat) : Nat := (uInt32Size - b % uInt32Size + a) % uInt32Size

/-- The operations the code performs on sequence numbers: `+`, `-` and
the advance of `get_and_update_seq`. -/
structure SeqArith where
  add : Nat → Nat → Nat
  sub : Nat → Nat → Nat
  nextSeq : Nat → Nat

/-- `u_int32_t`; `nextSeq x` is `++ x % SEQ_NUM_MAX`. -/
def SeqArith.uInt32 : SeqArith where
  add a b := (a + b) % uInt32Size
  sub := uSub
  nextSeq a := (a + 1) % uInt32Size % seqNumMax

/-- The same operations on the natural numbers. -/
def SeqArith.unbounded : SeqArith where
  add a b := a + b
  sub a b := a - b
  nextSeq a := a + 1

/-! ## Packets -/

inductive Cmd where
  | null
  | ack
  | send
  | test
  deriving DecidableEq, Repr

structure Packet where
  seq : Nat
  cmd : Cmd
  ack : Nat
  ts : Nat
  data : List UInt8
  deriving DecidableEq, Repr

def Packet.len (p : Packet) : Nat := p.data.length

/-! ## The connection record -/

structure Rdt where
  mtu : Nat
  resendRetry : Nat
  current : Nat
  currentSendSeq : Nat
  wndSize : Nat
  sendWndBase : Nat
  recvWndBase : Nat
  sendQueue : List Packet
  recvQueue : List Packet
  flightSendQueue : List Packet
  unackList : List Nat
  sendBuffer : Ringbuffer
  recvBuffer : Ringbuffer
  /-- The global of the same name; one connection a process. -/
  blamePacketForExpire : Nat

/-- `create_rdt`, with the initial sequence number it draws. -/
def createRdt (cfg : Config) (seq0 : Nat) : Rdt where
  mtu := cfg.mtu
  resendRetry := 0
  current := 0
  currentSendSeq := seq0
  wndSize := cfg.wndSize
  sendWndBase := seq0
  recvWndBase := 0
  sendQueue := []
  recvQueue := []
  flightSendQueue := []
  unackList := []
  sendBuffer := ringbuffInit cfg.buffLen cfg.buff_pos
  recvBuffer := ringbuffInit cfg.buffLen cfg.buff_pos
  blamePacketForExpire := 0

/-! ## Lists -/

/-- `seq_insert_to_list`: before the first element with a greater key,
at the end if there is none. -/
def seqInsertToList {α : Type} (seq : α → Nat) (data : α) : List α → List α
  | [] => [data]
  | position :: rest =>
      if seq data < seq position then data :: position :: rest
      else position :: seqInsertToList seq data rest

/-- `find_unack`: the iterator at the first node with this number. -/
def findUnack (list : List Nat) (ack : Nat) : List Nat :=
  list.dropWhile (· != ack)

def findPacket (list : List Packet) (ack : Nat) : Option Packet :=
  list.find? (·.seq == ack)

/-! ## Making packets -/

/-- `get_and_update_seq`: the number handed out, and the record with the
counter advanced. -/
def getAndUpdateSeq (ar : SeqArith) (s : Rdt) : Rdt × Nat :=
  ({ s with currentSendSeq := ar.nextSeq s.currentSendSeq }, s.currentSendSeq)

def getAndUpdateCurrent (now : Nat) (s : Rdt) : Rdt × Nat :=
  ({ s with current := now }, now)

def makePacket (ar : SeqArith) (now : Nat) (s : Rdt) (buff : List UInt8) (cmd : Cmd) :
    Rdt × Packet :=
  let (s, ts) := getAndUpdateCurrent now s
  let (s, seq) := if cmd = .send then getAndUpdateSeq ar s else (s, 0)
  (s, { seq, cmd, ack := 0, ts, data := buff })

/-! ## Sending -/

/-- `send_wnd_base + wnd_size - 1`. -/
def lastWnd (ar : SeqArith) (s : Rdt) : Nat :=
  ar.sub (ar.add s.sendWndBase s.wndSize) 1

/-- The window test of `flush_buffer`. -/
def windowFull (ar : SeqArith) (s : Rdt) : Bool :=
  decide (s.currentSendSeq > lastWnd ar s)

/-- How an iteration of `flush_buffer`'s loop ends: at the window test,
with a packet in `send_queue`, or at the empty `send_buffer`. -/
inductive FlushBuffer where
  | windowFull
  | made (packet : Packet)
  | bufferEmpty

/-- One iteration of `flush_buffer`'s loop, without the timer check its
window branch makes (`Training.Udp.Timer`). -/
def flushBufferIter (ar : SeqArith) (now : Nat) (s : Rdt) : Rdt × FlushBuffer :=
  if windowFull ar s then (s, .windowFull)
  else
    let (sendBuffer, tmp) := ringbuffRead s.sendBuffer s.mtu
    if tmp.length > 0 then
      let (s, packet) := makePacket ar now { s with sendBuffer } tmp .send
      ({ s with sendQueue := packet :: s.sendQueue }, .made packet)
    else ({ s with sendBuffer }, .bufferEmpty)

/-- One dequeue of `flush_queue`: the packet at the tail of `send_queue`
and the record after the lists are updated; `none` at the empty queue. -/
def flushQueueIter (s : Rdt) : Option (Rdt × Packet) :=
  match s.sendQueue.getLast? with
  | none => none
  | some packet =>
      let s := { s with sendQueue := s.sendQueue.dropLast }
      if packet.cmd = .send then
        some ({ s with
          flightSendQueue := packet :: s.flightSendQueue
          unackList := seqInsertToList id packet.seq s.unackList }, packet)
      else some (s, packet)

def timeDiff (now past : Nat) : Nat := uSub now past

/-- The retry bookkeeping after a retransmission of `seq`; `true` when it
ends in `exit (-1)`. -/
def countRetry (s : Rdt) (seq : Nat) : Rdt × Bool :=
  let blame := if s.blamePacketForExpire = 0 then seq else s.blamePacketForExpire
  let s := { s with blamePacketForExpire := blame }
  if blame ≠ 0 ∧ blame = seq then
    ({ s with resendRetry := s.resendRetry + 1 },
      decide (s.resendRetry + 1 > packetResendRetryMax))
  else (s, false)

/-- One retransmission by `resend_expire_packet`: the packet as it is
sent again, the record, and whether the process exits. -/
def resendPacket (now : Nat) (s : Rdt) (position : Packet) : Packet × Rdt × Bool :=
  let (s, ts) := getAndUpdateCurrent now s
  ({ position with ts }, countRetry s position.seq)

/-! ## Receiving an ACK -/

/-- The first unacknowledged number: the next node of `unack_list`, or
one more than the acknowledged one when there is no next node. -/
def advanceSendBase (ar : SeqArith) (base unack : Nat) (next : List Nat) : Nat :=
  if unack = base then
    match next with
    | nextUnack :: _ => nextUnack
    | [] => ar.add base 1
  else base

/-- An acknowledged packet is no longer the one the retries are counted
for. -/
def clearBlame (s : Rdt) (seq : Nat) : Rdt :=
  if s.blamePacketForExpire ≠ 0 ∧ s.blamePacketForExpire = seq then
    { s with resendRetry := 0, blamePacketForExpire := 0 }
  else s

/-- `unack_list` without the acknowledged number, and the base moved. -/
def removeUnack (ar : SeqArith) (s : Rdt) (seq : Nat) : Rdt :=
  match findUnack s.unackList seq with
  | [] => s
  | unack :: next =>
      { s with
        sendWndBase := advanceSendBase ar s.sendWndBase unack next
        unackList := s.unackList.erase unack }

/-- The ACK branch of `recv_worker_thread`. -/
def recvAck (ar : SeqArith) (s : Rdt) (ack : Nat) : Rdt :=
  if ack < s.sendWndBase then s
  else
    match findPacket s.flightSendQueue ack with
    | none => s
    | some position =>
        let s := clearBlame s position.seq
        let s := removeUnack ar s position.seq
        { s with flightSendQueue := s.flightSendQueue.eraseP (·.seq == ack) }

/-- Whether the ACK branch acts on an acknowledgement or skips it. -/
def ackAccepted (s : Rdt) (ack : Nat) : Bool :=
  !decide (ack < s.sendWndBase) && (findPacket s.flightSendQueue ack).isSome

/-! ## Receiving data -/

/-- `push_to_recv_buff`: the record and the count of bytes written. -/
def pushToRecvBuff (s : Rdt) (packet : Packet) : Rdt × Nat :=
  if 0 = ringbuffFreeSize s.recvBuffer then (s, 0)
  else
    let (recvBuffer, wSize) := ringbuffWrite s.recvBuffer packet.data
    ({ s with recvBuffer }, wSize)

/-- The outcome of handling a datagram: the record, the calls of
`push_to_recv_buff` it made with what they wrote, and whether the handler
returned. A handler that does not return is inside the drain loop, at a
record that no further iteration changes. -/
structure Handled where
  rdt : Rdt
  pushes : List (Packet × Nat)
  returned : Bool

/-- One iteration of the drain loop over `recv_queue`. The loop has no
step of its own: an element that is not the base is looked at again. -/
def drainIter (ar : SeqArith) (s : Rdt) : Rdt × List (Packet × Nat) :=
  match s.recvQueue with
  | [] => (s, [])
  | nextPacket :: rest =>
      if nextPacket.seq = s.recvWndBase then
        let (s, wSize) := pushToRecvBuff s nextPacket
        ({ s with recvWndBase := ar.add s.recvWndBase 1, recvQueue := rest },
          [(nextPacket, wSize)])
      else (s, [])

/-- The drain loop: `drainIter` until the queue is empty, or for ever. The
first argument is the queue the loop finds in the record. -/
def drain (ar : SeqArith) : List Packet → Rdt → Handled
  | [], s => { rdt := s, pushes := [], returned := true }
  | nextPacket :: rest, s =>
      if nextPacket.seq = s.recvWndBase then
        let (s, wSize) := pushToRecvBuff s nextPacket
        let h := drain ar rest
          { s with recvWndBase := ar.add s.recvWndBase 1, recvQueue := rest }
        { h with pushes := (nextPacket, wSize) :: h.pushes }
      else { rdt := s, pushes := [], returned := false }

/-- The ACK for `seq` goes to the head of `send_queue`. -/
def queueAck (ar : SeqArith) (now : Nat) (s : Rdt) (seq : Nat) : Rdt :=
  let (s, packet) := makePacket ar now s [] .ack
  { s with sendQueue := { packet with ack := seq } :: s.sendQueue }

/-- What the receive window makes of a sequence number. -/
inductive Window where
  /-- no packet handled yet: this one sets the base -/
  | first
  /-- before the base, or past the window -/
  | discard
  | inOrder
  | ahead
  deriving DecidableEq, Repr

/-- The tests of the SEND branch, in the code's order. -/
def recvWindow (ar : SeqArith) (s : Rdt) (seq : Nat) : Window :=
  if 0 = s.recvWndBase then .first
  else if seq < s.recvWndBase ∨ ar.add s.recvWndBase s.wndSize < seq then .discard
  else if seq = s.recvWndBase then .inOrder
  else .ahead

/-- The SEND branch of `recv_worker_thread`. -/
def recvSend (ar : SeqArith) (now : Nat) (s : Rdt) (p : Packet) : Handled :=
  let s := queueAck ar now s p.seq
  match recvWindow ar s p.seq with
  | .first =>
      let (s, wSize) := pushToRecvBuff { s with recvWndBase := ar.add p.seq 1 } p
      { rdt := s, pushes := [(p, wSize)], returned := true }
  | .discard => { rdt := s, pushes := [], returned := true }
  | .inOrder =>
      let (s, wSize) := pushToRecvBuff s p
      let s := { s with recvWndBase := ar.add s.recvWndBase 1 }
      let h := drain ar s.recvQueue s
      { h with pushes := (p, wSize) :: h.pushes }
  | .ahead =>
      { rdt := { s with recvQueue := seqInsertToList Packet.seq p s.recvQueue }
        pushes := [], returned := true }

/-- The handling of one datagram by `recv_worker_thread`. -/
def recvPacket (ar : SeqArith) (now : Nat) (s : Rdt) (p : Packet) : Handled :=
  match p.cmd with
  | .ack => { rdt := recvAck ar s p.ack, pushes := [], returned := true }
  | .send => recvSend ar now s p
  | .test =>
      let (s, wSize) := pushToRecvBuff s p
      { rdt := s, pushes := [(p, wSize)], returned := true }
  | .null => { rdt := s, pushes := [], returned := true }

/-! ## The application -/

/-- `rdt_send` once its wait is over: nothing while `len` exceeds the
free size, else the whole buffer. The `flush_buffer` calls of the wait
are steps of their own. -/
def rdtSend (s : Rdt) (buff : List UInt8) : Rdt × Nat :=
  if buff.length > ringbuffFreeSize s.sendBuffer then (s, 0)
  else
    let (sendBuffer, numbytes) := ringbuffWrite s.sendBuffer buff
    ({ s with sendBuffer }, numbytes)

def rdtRecv (s : Rdt) (len : Nat) : Rdt × List UInt8 :=
  let (recvBuffer, buff) := ringbuffRead s.recvBuffer len
  ({ s with recvBuffer }, buff)

end Training.Udp
