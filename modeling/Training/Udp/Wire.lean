/-
Training.Udp.Wire — the handling of a datagram in `recv_worker_thread`
as loads, stores and copies of bytes.

`Training.Udp.Protocol` takes a datagram apart before it handles it. Here
the fields stay where the wire put them: `cmd`, `seq`, `len` and
`pkt_size` are words of `recv_buff`, and each use the code makes of one
is an operation that can fault. An access outside the block a pointer
points into, and a `memcpy` whose count is negative before it becomes a
`size_t`, are faults; what the process does after one is unspecified.

Translation notes.

* A `packet_t *` is a `Block`: the bytes of the object it points to. The
  datagram they came with is kept beside them and never read by the code.
* The layout of `packet_t` is the one of a 64-bit target: 16 bytes of
  `list_node`, then the fields in order, `data` at 52, 56 bytes in all.
* The two pointers `list_insert` stores in a copy are not bytes of it
  here. The store itself is: it needs the 16 bytes of the node.
* A `cmd` that names no constant takes the branch of none of them, as 0
  does.
-/
import Training.Lib.Fallible
import Training.Lib.Words
import Training.Udp.Peer

namespace Training.Udp

open Training.Lib

/-! ## Layout -/

def sizeofListNode : Nat := 16
def offsetofSeq : Nat := 16
def offsetofCmd : Nat := 20
def offsetofPktSize : Nat := 24
def offsetofLen : Nat := 28
def offsetofAck : Nat := 32
def offsetofTs : Nat := 36
def offsetofData : Nat := 52
def sizeofPacket : Nat := 56

def cmdOfWire : Nat → Cmd
  | 1 => .ack
  | 2 => .send
  | 3 => .test
  | _ => .null

def cmdToWire : Cmd → Nat
  | .null => 0
  | .ack => 1
  | .send => 2
  | .test => 3

/-- An `int` with the bits of a `u_int32_t`. -/
def intOfWire (w : Nat) : Int := Int.bmod w uInt32Size

/-! ## Blocks -/

structure Block where
  bytes : List UInt8
  /-- the datagram the bytes came with -/
  datagram : List UInt8
  deriving DecidableEq

inductive Fault where
  /-- a load outside the block -/
  | read
  /-- a store outside the block -/
  | write
  /-- a negative count where a `size_t` is expected -/
  | negativeSize
  deriving DecidableEq, Repr

def Block.size (b : Block) : Nat := b.bytes.length

def Block.word (b : Block) (off : Nat) : Nat := wordAt 4 b.bytes off

def Block.slice (b : Block) (off n : Nat) : List UInt8 := (b.bytes.drop off).take n

def Block.put (b : Block) (i : Nat) (v : UInt8) : Block :=
  { b with bytes := b.bytes.set i v }

/-! The fields, where the block has them. -/

def Block.seq (b : Block) : Nat := b.word offsetofSeq
def Block.cmd (b : Block) : Cmd := cmdOfWire (b.word offsetofCmd)
def Block.pktSize (b : Block) : Int := intOfWire (b.word offsetofPktSize)
def Block.len (b : Block) : Int := intOfWire (b.word offsetofLen)
def Block.ack (b : Block) : Nat := b.word offsetofAck
def Block.ts (b : Block) : Nat := b.word offsetofTs

/-! ## Loads and stores -/

def Block.load (b : Block) (off : Nat) : Except Fault Nat :=
  if off + 4 ≤ b.size then .ok (b.word off) else .error .read

def Block.loadInt (b : Block) (off : Nat) : Except Fault Int := do
  pure (intOfWire (← b.load off))

def Block.store (b : Block) (i : Int) (v : UInt8) : Except Fault Block :=
  if 0 ≤ i ∧ i < b.size then .ok (b.put i.toNat v) else .error .write

/-- The bytes that `memcpy (_, b + off, n)` reads. -/
def Block.copyOut (b : Block) (off : Nat) (n : Int) : Except Fault (List UInt8) :=
  if n < 0 then .error .negativeSize
  else if off + n.toNat ≤ b.size then .ok (b.slice off n.toNat)
  else .error .read

/-- `malloc (n)` and a `memcpy` of `n` bytes into the new block. -/
def Block.copy (b : Block) (n : Int) : Except Fault Block := do
  let bytes ← b.copyOut 0 n
  pure { b with bytes }

/-- The stores of `list_insert` into the node of its second argument. -/
def Block.link (b : Block) : Except Fault Unit :=
  if sizeofListNode ≤ b.size then .ok () else .error .write

/-! ## The receive worker -/

/-- `int packet_len = rdt->mtu + sizeof(packet_t)`. -/
def packetLen (s : Rdt) : Nat := s.mtu + sizeofPacket

/-- `recv_buff` after `udt_recv`: what fits of the datagram, the rest as
`bzero` left it. -/
def recvBuff (packetLen : Nat) (datagram : List UInt8) : Block where
  bytes := datagram.take packetLen ++ List.replicate (packetLen - datagram.length) 0
  datagram := datagram.take packetLen

/-- `push_to_recv_buff`. The count that `ringbuff_write` copies is `len`,
cut to the free size. -/
def pushBlock (s : Rdt) (packet : Block) : Except Fault (Rdt × Nat) := do
  let len ← packet.loadInt offsetofLen
  if 0 = ringbuffFreeSize s.recvBuffer then pure (s, 0)
  else
    let data ← packet.copyOut offsetofData
      (if len > ringbuffFreeSize s.recvBuffer then ringbuffFreeSize s.recvBuffer else len)
    let (recvBuffer, wSize) := ringbuffWrite s.recvBuffer data
    pure ({ s with recvBuffer }, wSize)

/-- `seq_insert_to_list` on `recv_queue`. -/
def seqInsertBlock (data : Block) : List Block → Except Fault (List Block)
  | [] => do
      data.link
      pure [data]
  | position :: rest => do
      if (← data.load offsetofSeq) < (← position.load offsetofSeq) then
        data.link
        pure (data :: position :: rest)
      else
        let rest ← seqInsertBlock data rest
        pure (position :: rest)

/-- The outcome of handling a datagram, `recv_queue` as the copies it
holds. -/
structure WireHandled where
  rdt : Rdt
  queue : List Block
  pushes : List (Block × Nat)
  returned : Bool

/-- The drain loop over `recv_queue`. -/
def drainBlocks : List Block → Rdt → Except Fault WireHandled
  | [], s => pure { rdt := s, queue := [], pushes := [], returned := true }
  | nextPacket :: rest, s => do
      if (← nextPacket.load offsetofSeq) = s.recvWndBase then
        let (s, wSize) ← pushBlock s nextPacket
        let h ← drainBlocks rest
          { s with recvWndBase := SeqArith.uInt32.add s.recvWndBase 1 }
        pure { h with pushes := (nextPacket, wSize) :: h.pushes }
      else pure { rdt := s, queue := nextPacket :: rest, pushes := [], returned := false }

/-- The SEND branch. -/
def recvSendBlock (now : Nat) (s : Rdt) (queue : List Block) (recvPacket : Block) :
    Except Fault WireHandled := do
  let seq ← recvPacket.load offsetofSeq
  let s := queueAck .uInt32 now s seq
  match recvWindow .uInt32 s seq with
  | .first =>
      let (s, wSize) ← pushBlock
        { s with recvWndBase := SeqArith.uInt32.add seq 1 } recvPacket
      pure { rdt := s, queue, pushes := [(recvPacket, wSize)], returned := true }
  | .discard => pure { rdt := s, queue, pushes := [], returned := true }
  | .inOrder =>
      let (s, wSize) ← pushBlock s recvPacket
      let h ← drainBlocks queue
        { s with recvWndBase := SeqArith.uInt32.add s.recvWndBase 1 }
      pure { h with pushes := (recvPacket, wSize) :: h.pushes }
  | .ahead =>
      let tmpPkt ← recvPacket.copy (← recvPacket.loadInt offsetofPktSize)
      let queue ← seqInsertBlock tmpPkt queue
      pure { rdt := s, queue, pushes := [], returned := true }

/-- The branches below the terminator store. -/
def recvDataBlock (now : Nat) (s : Rdt) (queue : List Block) (recvPacket : Block) :
    Except Fault WireHandled := do
  match cmdOfWire (← recvPacket.load offsetofCmd) with
  | .send => recvSendBlock now s queue recvPacket
  | .test =>
      let (s, wSize) ← pushBlock s recvPacket
      pure { rdt := s, queue, pushes := [(recvPacket, wSize)], returned := true }
  | _ => pure { rdt := s, queue, pushes := [], returned := true }

/-- The body of the worker's loop, from the first look at the datagram. -/
def recvBlock (now : Nat) (s : Rdt) (queue : List Block) (recvPacket : Block) :
    Except Fault WireHandled := do
  if cmdOfWire (← recvPacket.load offsetofCmd) = .ack then
    let ack ← recvPacket.load offsetofAck
    pure { rdt := recvAck .uInt32 s ack, queue, pushes := [], returned := true }
  else
    -- `data[len] = '\0'`; it may overwrite a header field, which the
    -- branches then read
    let recvPacket ← recvPacket.store
      (offsetofData + (← recvPacket.loadInt offsetofLen)) 0
    recvDataBlock now s queue recvPacket

/-! ## What a block says -/

/-- The buffer as the branches read it. -/
def Block.terminated (b : Block) : Block :=
  if b.cmd = .ack then b else b.put (offsetofData + b.len).toNat 0

/-- The packet of `Training.Udp.Protocol` that a block holds. -/
def Block.decode (b : Block) : Packet where
  seq := b.seq
  cmd := b.cmd
  ack := b.ack
  ts := b.ts
  data := b.slice offsetofData b.len.toNat

/-- The packet the worker handles. A `cmd` that the terminator turns into
the one of an ACK is already past the ACK branch. -/
def Block.packet (b : Block) : Packet :=
  if b.cmd = .ack then b.decode
  else if b.terminated.cmd = .ack then { b.terminated.decode with cmd := .null }
  else b.terminated.decode

/-- The outcome without the bytes. -/
def WireHandled.decode (h : WireHandled) : Handled where
  rdt := { h.rdt with recvQueue := h.queue.map Block.decode }
  pushes := h.pushes.map fun e => (e.1.decode, e.2)
  returned := h.returned

/-! ## Datagrams of this protocol -/

/-- The bytes of a `packet_t` up to `data`; what no function reads is 0. -/
def header (seq cmd pktSize len ack ts : Nat) : List UInt8 :=
  [0, 0, 0, 0, seq, cmd, pktSize, len, ack, ts, 0, 0, 0].flatMap (toBytesLE 4)

/-- What `make_packet` lays out and `udt_send` sends: `pkt_size` bytes,
the last ones past the payload. -/
def Packet.encode (p : Packet) : List UInt8 :=
  header p.seq (cmdToWire p.cmd) (sizeofPacket + p.len) p.len p.ack p.ts
    ++ (p.data ++ List.replicate (sizeofPacket - offsetofData) 0)

/-! ## The machine -/

/-- A peer whose receive worker handles bytes. -/
structure WirePeer where
  peer : Peer
  queue : List Block
  /-- the fault that ended the process as the code specifies it -/
  fault : Option Fault
  /-- calls of `push_to_recv_buff` and what they wrote -/
  pushes : List (Block × Nat)

def WirePeer.init (cfg : Config) (seq0 : Nat) : WirePeer where
  peer := Peer.init cfg seq0
  queue := []
  fault := none
  pushes := []

inductive WireAct where
  | op (o : Op)
  | recv (datagram : List UInt8) (now : Nat)

/-- `recv_buff` when the worker looks at this datagram. -/
def WirePeer.recvBuff (n : WirePeer) (datagram : List UInt8) : Block :=
  Training.Udp.recvBuff (packetLen n.peer.rdt) datagram

/-- The receive worker is at its `udt_recv`. -/
def WirePeer.receives (n : WirePeer) : Bool := !n.peer.exited && !n.peer.spinning

def WirePeer.recv (n : WirePeer) (datagram : List UInt8) (now : Nat) : WirePeer :=
  match recvBlock now n.peer.rdt n.queue (n.recvBuff datagram) with
  | .error fault => { n with fault := some fault }
  | .ok h =>
      let p := (n.recvBuff datagram).packet
      let handled := h.decode
      { n with
        queue := h.queue
        pushes := n.pushes ++ h.pushes
        peer := { n.peer with
          rdt := handled.rdt
          spinning := !handled.returned
          acked := if p.cmd = .ack ∧ ackAccepted n.peer.rdt p.ack
            then n.peer.acked ++ [p.ack] else n.peer.acked
          handled := if p.cmd = .send then n.peer.handled ++ [p] else n.peer.handled
          pushes := n.peer.pushes ++ handled.pushes } }

def WirePeer.step (n : WirePeer) (a : WireAct) : WirePeer :=
  if n.fault.isSome then n
  else
    match a with
    | .op o => { n with peer := n.peer.step .uInt32 (.op o) }
    | .recv datagram now => if n.receives then n.recv datagram now else n

/-- The step of the `Peer` inside. -/
def WirePeer.act (n : WirePeer) : WireAct → Act
  | .op o => .op o
  | .recv datagram now => .recv (n.recvBuff datagram).packet now

/-- The state after the steps `acts` of a new connection. -/
def WirePeer.after (cfg : Config) (seq0 : Nat) (acts : List WireAct) : WirePeer :=
  run WirePeer.step (WirePeer.init cfg seq0) acts

/-! ## Safety -/

/-- What `push_to_recv_buff` handed to the user from a block. -/
def handedBytes (e : Block × Nat) : List UInt8 := e.1.slice offsetofData e.2

/-- All of it was received in the datagram, as its payload. -/
def Handed (e : Block × Nat) : Prop :=
  handedBytes e <+: e.1.datagram.drop offsetofData

instance (e : Block × Nat) : Decidable (Handed e) :=
  inferInstanceAs (Decidable (_ <+: _))

/-- A buffered copy holds the `len` bytes of its payload, and they were
received. -/
structure Block.Kept (b : Block) : Prop where
  len_nonneg : 0 ≤ b.len
  inside : offsetofData + b.len ≤ b.size
  received : b.slice offsetofData b.len.toNat <+: b.datagram.drop offsetofData

/-- No load or store went outside a block, only received bytes were
handed over or are buffered, and the pointers of `recv_buffer` are in
range. -/
structure WirePeer.Safe (n : WirePeer) : Prop where
  noFault : n.fault = none
  handed : ∀ e ∈ n.pushes, Handed e
  kept : ∀ b ∈ n.queue, b.Kept
  wr_lt : n.peer.rdt.recvBuffer.wrPoint < n.peer.rdt.recvBuffer.size
  rd_lt : n.peer.rdt.recvBuffer.rdPoint < n.peer.rdt.recvBuffer.size

/-! ## Well-sized datagrams -/

/-- The datagram reaches as far as `n` bytes of payload. -/
def Block.Carries (b : Block) (n : Int) : Prop :=
  0 ≤ n ∧ (n = 0 ∨ offsetofData + n ≤ b.datagram.length)

/-- `push_to_recv_buff` finds what it copies, if it copies anything. -/
def PushFits (s : Rdt) (b : Block) : Prop :=
  0 = ringbuffFreeSize s.recvBuffer ∨
    b.Carries (min b.len (ringbuffFreeSize s.recvBuffer))

/-- The copy made of a packet ahead of the base lies inside `recv_buff`
and holds the payload. -/
def CopyFits (b : Block) : Prop :=
  b.Carries b.len ∧ offsetofData + b.len ≤ b.pktSize ∧ b.pktSize ≤ b.size

/-- What a SEND packet needs depends on what the window makes of it. -/
def SendSized (s : Rdt) (b : Block) : Prop :=
  match recvWindow .uInt32 s b.seq with
  | .first | .inOrder => PushFits s b
  | .discard => True
  | .ahead => CopyFits b

/-- The sizes in a data packet agree with the datagram, as far as the
branch it takes depends on them. -/
def DataSized (s : Rdt) (b : Block) : Prop :=
  match b.cmd with
  | .send => SendSized s b
  | .test => PushFits s b
  | _ => True

/-- An ACK, or a packet whose terminator lies inside `recv_buff` and whose
sizes agree with the datagram. -/
def Sized (s : Rdt) (b : Block) : Prop :=
  b.cmd = .ack ∨ (0 ≤ offsetofData + b.len ∧ offsetofData + b.len < packetLen s ∧
    DataSized s b.terminated)

/-- The receive worker is given well-sized datagrams. -/
def WellSized (n : WirePeer) : WireAct → Prop
  | .op _ => True
  | .recv datagram _ => n.receives → Sized n.peer.rdt (n.recvBuff datagram)

end Training.Udp
