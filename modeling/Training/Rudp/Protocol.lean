/-
Training.Rudp.Protocol — the earlier version of the protocol,
`C/rudp_self/protocol.c`.

Packets, lists and rings are those of `Training.Udp`: `list.c` and
`ring_buffer.c` are the same files, `insert_to_unack_list` is
`seq_insert_to_list` at the node type of `unack_list`, and `find_packet`,
`time_diff` and the datagram layout agree. What differs is the protocol.
`flush_buffer` numbers packets without looking at the window;
`flush_queue` looks at it once, before a loop that sends everything; an
ACK moves the base by one when it is for the base, and by nothing
otherwise; the receiver hands over every packet that arrives.

Translation notes.

* `blame_packet_for_expire` is a global and belongs to the process, so it
  is an argument of the operations that use it and no field of `Rdt`.
* `recv_wnd_base`, `recv_queue` and the fields `Training.Udp.Protocol`
  leaves out are never read here. Nothing reads `unack_list` either, but
  `flush_queue` writes it.
* The assignment of `get_and_update_seq` is the one of the later version:
  `++ x % SEQ_NUM_MAX`.
* `flush_queue` allocates a node of `unack_list` with
  `malloc (sizeof (unack))`, the size of a pointer; here too the list has
  the whole node.
-/
import Training.Udp.Protocol

namespace Training.Rudp

open Training.Udp (Packet Cmd Config Ringbuffer SeqArith ringbuffInit ringbuffFreeSize
  ringbuffWrite ringbuffRead seqInsertToList findPacket timeDiff bytesAt)

/-! ## Constants -/

def rdtMtu : Nat := 1024
def rdtWindowSize : Nat := 10
def maxProtocolBuffLen : Nat := 4 * 1024 * 1024
def packetExpireTime : Nat := 100
def packetResendRetryMax : Nat := 10

def protocolConfig : Config where
  mtu := rdtMtu
  wndSize := rdtWindowSize
  buffLen := maxProtocolBuffLen
  mtu_pos := by decide
  wnd_pos := by decide
  buff_pos := by decide

/-! ## The connection record -/

structure Rdt where
  mtu : Nat
  resendRetry : Nat
  current : Nat
  currentSendSeq : Nat
  wndSize : Nat
  sendWndBase : Nat
  sendQueue : List Packet
  flightSendQueue : List Packet
  unackList : List Nat
  sendBuffer : Ringbuffer
  recvBuffer : Ringbuffer

/-- `create_rdt`, with the initial sequence number it draws. -/
def createRdt (cfg : Config) (seq0 : Nat) : Rdt where
  mtu := cfg.mtu
  resendRetry := 0
  current := 0
  currentSendSeq := seq0
  wndSize := cfg.wndSize
  sendWndBase := seq0
  sendQueue := []
  flightSendQueue := []
  unackList := []
  sendBuffer := ringbuffInit cfg.buffLen cfg.buff_pos
  recvBuffer := ringbuffInit cfg.buffLen cfg.buff_pos

/-! ## Making packets -/

def getAndUpdateSeq (s : Rdt) : Rdt × Nat :=
  ({ s with currentSendSeq := SeqArith.uInt32.nextSeq s.currentSendSeq }, s.currentSendSeq)

def getAndUpdateCurrent (now : Nat) (s : Rdt) : Rdt × Nat :=
  ({ s with current := now }, now)

def makePacket (now : Nat) (s : Rdt) (buff : List UInt8) (cmd : Cmd) : Rdt × Packet :=
  let (s, ts) := getAndUpdateCurrent now s
  let (s, seq) := if cmd = .send then getAndUpdateSeq s else (s, 0)
  (s, { seq, cmd, ack := 0, ts, data := buff })

/-! ## Sending -/

/-- One turn of `flush_buffer`'s loop: the packet it makes, or `none`
when `send_buffer` is empty. -/
def flushBufferIter (now : Nat) (s : Rdt) : Rdt × Option Packet :=
  let (sendBuffer, tmp) := ringbuffRead s.sendBuffer s.mtu
  if tmp.length > 0 then
    let (s, packet) := makePacket now { s with sendBuffer } tmp .send
    ({ s with sendQueue := packet :: s.sendQueue }, some packet)
  else ({ s with sendBuffer }, none)

/-- `send_wnd_base + wnd_size - 1`. -/
def lastWnd (s : Rdt) : Nat :=
  SeqArith.uInt32.sub (SeqArith.uInt32.add s.sendWndBase s.wndSize) 1

/-- The window test of `flush_queue`. -/
def windowFull (s : Rdt) : Bool :=
  decide (s.currentSendSeq > lastWnd s)

/-- One turn of `flush_queue`'s loop: the packet at the tail of
`send_queue` goes to `udt_send`; `none` at the empty queue. -/
def flushQueueIter (s : Rdt) : Option (Rdt × Packet) :=
  match s.sendQueue.getLast? with
  | none => none
  | some packet =>
      let s := { s with sendQueue := s.sendQueue.dropLast }
      if packet.cmd = .send then
        some ({ s with
          flightSendQueue := packet :: s.flightSendQueue
          unackList := seqInsertToList id packet.seq s.unackList }, packet)
      else some (s, packet)

/-- The loop of `flush_queue`, for a `send_queue` of this length. -/
def flushQueueLoop : Nat → Rdt → Rdt × List Packet
  | 0, s => (s, [])
  | len + 1, s =>
      match flushQueueIter s with
      | none => (s, [])
      | some (s, packet) =>
          let (s, packets) := flushQueueLoop len s
          (s, packet :: packets)

/-- `flush_queue`: the record after the call and the packets sent. -/
def flushQueue (s : Rdt) : Rdt × List Packet :=
  if windowFull s then (s, []) else flushQueueLoop s.sendQueue.length s

/-- The bookkeeping after a retransmission of `seq`: the marker, the
record, and whether it ends in `exit (-1)`. -/
def countRetry (blame : Nat) (s : Rdt) (seq : Nat) : Nat × Rdt × Bool :=
  let blame := if blame = 0 then seq else blame
  if blame ≠ 0 ∧ blame = seq then
    (blame, { s with resendRetry := s.resendRetry + 1 },
      decide (s.resendRetry + 1 > packetResendRetryMax))
  else (blame, s, false)

/-- One retransmission by `resend_expire_packet`, with the packet as it
is sent again. -/
def resendPacket (now blame : Nat) (s : Rdt) (position : Packet) :
    Packet × Nat × Rdt × Bool :=
  let (s, ts) := getAndUpdateCurrent now s
  ({ position with ts }, countRetry blame s position.seq)

/-! ## Receiving -/

/-- An acknowledged packet is no longer the one the retries are counted
for. -/
def clearBlame (blame : Nat) (s : Rdt) (seq : Nat) : Nat × Rdt :=
  if blame ≠ 0 ∧ blame = seq then (0, { s with resendRetry := 0 }) else (blame, s)

/-- The ACK branch of `recv_worker_thread`. -/
def recvAck (blame : Nat) (s : Rdt) (ack : Nat) : Nat × Rdt :=
  match findPacket s.flightSendQueue ack with
  | none => (blame, s)
  | some position =>
      let (blame, s) := clearBlame blame s position.seq
      let s :=
        if position.seq = s.sendWndBase then
          { s with sendWndBase := SeqArith.uInt32.add s.sendWndBase 1 }
        else s
      (blame, { s with flightSendQueue := s.flightSendQueue.eraseP (·.seq == ack) })

/-- The ACK for `seq` goes to the head of `send_queue`. -/
def queueAck (now : Nat) (s : Rdt) (seq : Nat) : Rdt :=
  let (s, packet) := makePacket now s [] .ack
  { s with sendQueue := { packet with ack := seq } :: s.sendQueue }

/-- The payload goes to `recv_buffer`, as much of it as fits. -/
def pushToRecvBuff (s : Rdt) (packet : Packet) : Rdt :=
  if 0 = ringbuffFreeSize s.recvBuffer then s
  else { s with recvBuffer := (ringbuffWrite s.recvBuffer packet.data).1 }

/-- The data branch of `recv_worker_thread`, for SEND and TEST packets. -/
def recvData (now : Nat) (s : Rdt) (p : Packet) : Rdt :=
  let s := if p.cmd = .send then queueAck now s p.seq else s
  pushToRecvBuff s p

/-! ## The application -/

/-- `rdt_send` once its wait is over: nothing while `len` exceeds the
free size, else the whole buffer. The `flush_buffer` calls of the wait
are steps of their own. -/
def rdtSend (s : Rdt) (buff : Nat → UInt8) (len : Nat) : Rdt :=
  if len > ringbuffFreeSize s.sendBuffer then s
  else { s with sendBuffer := (ringbuffWrite s.sendBuffer (bytesAt buff 0 len)).1 }

def rdtRecv (s : Rdt) (len : Nat) : Rdt :=
  { s with recvBuffer := (ringbuffRead s.recvBuffer len).1 }

end Training.Rudp
