import Kademlia.Foundations.ByteSource
import Kademlia.Model.Wire

/-!
The receiving side of `shared.c`, and `get_rpc_request` of `network.c`.

A TCP connection is the source of chunks its reads will meet; the end of the
source is the end of the stream. `errno == EINTR` is an interruption, any
other error a failure. The receive buffer outlives the packets, so what a
short packet does not overwrite is left over from earlier ones.
-/

namespace Kademlia.Model

open Foundations Foundations.Traced

abbrev Conn := Source UInt8

/-! ### `recv_all` -/

/-- The return value, the bytes stored from `dst` on, and the connection. -/
structure RecvAll where
  ret : ℤ
  stored : List UInt8
  rest : Conn

/-- The loop of `recv_all`; `nb_read` is the number of bytes stored. -/
def recvAllLoop (len : ℕ) : ℤ → List UInt8 → Conn → RecvAll
  | ret, stored, [] => ⟨if stored.length < len then 0 else ret, stored, []⟩
  | ret, stored, event :: conn =>
      if stored.length < len then
        match event with
        | .interrupt => recvAllLoop len (-1) stored conn
        | .failure => ⟨-1, stored, conn⟩
        | .chunk b bs =>
            let got := (b :: bs).take (len - stored.length)
            let left := (b :: bs).drop (len - stored.length)
            if left.isEmpty then recvAllLoop len got.length (stored ++ got) conn
            -- the chunk has more than was asked for, so the loop is over
            else ⟨got.length, stored ++ got, Source.unread left conn⟩
      -- what is returned is the result of the last `read`, not `nb_read`
      else ⟨ret, stored, event :: conn⟩

def recvAll (conn : Conn) (len : ℕ) : RecvAll := recvAllLoop len 0 [] conn

/-! ### `recv_all_peek` -/

/-- What one `recv` with `MSG_PEEK` meets: at least one byte is there, or the
call is interrupted or fails. -/
inductive PeekEvent
  /-- `more + 1` bytes can be returned -/
  | ready (more : ℕ)
  | interrupt
  | failure
  deriving DecidableEq, Repr

def PeekEvent.size : PeekEvent → ℕ
  | .ready more => more + 1
  | _ => 0

/-- The loop of `recv_all_peek` on the pending bytes `stream`. Nothing is
consumed, so every `recv` returns bytes from the start of `stream`. -/
def recvAllPeekLoop (stream : List UInt8) (len : ℕ) :
    List UInt8 → List PeekEvent → ℤ × List UInt8
  | stored, [] => (stored.length, stored)
  | stored, event :: peeks =>
      if stored.length < len then
        match event with
        | .interrupt => recvAllPeekLoop stream len stored peeks
        | .failure => (-1, stored)
        | .ready more =>
            let got := stream.take (min (more + 1) (len - stored.length))
            if got.isEmpty then (stored.length, stored)
            else recvAllPeekLoop stream len (stored ++ got) peeks
      else (stored.length, stored)

/-- The return value and the bytes stored from `dst` on. -/
def recvAllPeek (stream : List UInt8) (peeks : List PeekEvent) (len : ℕ) : ℤ × List UInt8 :=
  recvAllPeekLoop stream len [] peeks

/-- `memcmp(peek_buf, RPC_MAGIC, 4) == 0`, for a `peek_buf` cleared before. -/
def peeksMagic (stored : List UInt8) : Bool :=
  stored ++ List.replicate (4 - stored.length) 0 == rpcMagic.toList

/-- The test of `handle_connected` for an RPC packet. -/
def isRpcRequest (peeked : ℤ × List UInt8) : Bool := peeked.1 = 4 ∧ peeksMagic peeked.2 = true

/-- The test of `iterative_find_peers` for an RPC packet. -/
def isRpcReply (peeked : ℤ × List UInt8) : Bool := ¬ (peeked.1 ≤ 0 ∨ peeksMagic peeked.2 = false)

/-! ### `recv_until` -/

/-- The bytes of one chunk, read one by one behind `stored`: what is stored
then, what is left of the chunk, and whether the loop is over. -/
def scanUntil (len : ℕ) (pattern : List UInt8) :
    List UInt8 → List UInt8 → List UInt8 × List UInt8 × Bool
  | stored, [] => (stored, [], false)
  | stored, b :: bs =>
      if stored.length < len then
        -- the last bytes stored are the pattern
        if pattern.isSuffixOf (stored ++ [b]) then (stored ++ [b], bs, true)
        else scanUntil len pattern (stored ++ [b]) bs
      else (stored, b :: bs, true)

def recvUntilLoop (len : ℕ) (pattern : List UInt8) : List UInt8 → Conn → RecvAll
  | stored, [] => ⟨stored.length, stored, []⟩
  | stored, event :: conn =>
      if stored.length < len then
        match event with
        | .interrupt => recvUntilLoop len pattern stored conn
        | .failure => ⟨-1, stored, conn⟩
        | .chunk b bs =>
            match scanUntil len pattern stored (b :: bs) with
            | (stored, left, true) => ⟨stored.length, stored, Source.unread left conn⟩
            | (stored, _, false) => recvUntilLoop len pattern stored conn
      else ⟨stored.length, stored, event :: conn⟩

/-- `recv_until`, which reads single bytes. -/
def recvUntil (conn : Conn) (len : ℕ) (pattern : List UInt8) : RecvAll :=
  recvUntilLoop len pattern [] conn

/-! ### `get_rpc_request` -/

/-- What `getsockopt(SO_TYPE)` finds. -/
inductive Socket
  | stream (conn : Conn)
  /-- the datagrams in the receive queue -/
  | dgram (queue : List (List UInt8))
  | otherType
  | badDescriptor

/-- The return value, the receive buffer, `*out_size` and the socket after a
call. `headerLen` and `bodyLen` count the bytes stored from index 0 and from
the end of the header on. -/
structure RpcRequest where
  ret : ℤ
  buf : Memory
  outSize : ℕ
  sock : Socket
  headerLen : ℕ
  bodyLen : ℕ

/-- `get_rpc_request` on a TCP socket. -/
def getStreamRequest (conn : Conn) (buf : Memory) (outSize : ℕ) : Traced Field RpcRequest :=
  let head := recvAll conn sizeofHeader
  let buf := buf.write 0 head.stored
  -- `received` is converted to `size_t` for the comparison
  if toSizeT head.ret < sizeofHeader then
    pure ⟨-1, buf, outSize, .stream head.rest, head.stored.length, 0⟩
  else do
    touch .packetSize 0
    let packetSize := buf.header.packetSize
    if toSizeT packetSize > maxRpcPacketSize then
      pure ⟨-1, buf, outSize, .stream head.rest, head.stored.length, 0⟩
    else
      let body := recvAll head.rest (toSizeT (packetSize - sizeofHeader))
      let buf := buf.write sizeofHeader body.stored
      if body.ret < 0 then
        pure ⟨-1, buf, outSize, .stream body.rest, head.stored.length, body.stored.length⟩
      else
        pure ⟨0, buf, body.ret.toNat, .stream body.rest, head.stored.length,
          body.stored.length⟩

/-- `get_rpc_request` on a UDP socket: one `recvfrom` gives a whole datagram. -/
def getDatagramRequest (queue : List (List UInt8)) (buf : Memory) (outSize : ℕ) :
    Traced Field RpcRequest :=
  match queue with
  | [] => pure ⟨-1, buf, outSize, .dgram [], 0, 0⟩
  | datagram :: queue =>
      let stored := datagram.take maxRpcPacketSize
      let buf := buf.write 0 stored
      if stored.length = 0 then pure ⟨-1, buf, outSize, .dgram queue, 0, 0⟩
      else do
        touch .packetSize 0
        let packetSize := buf.header.packetSize
        if toSizeT packetSize > maxRpcPacketSize ∨ (stored.length : ℤ) ≠ packetSize then
          pure ⟨-1, buf, outSize, .dgram queue, stored.length, 0⟩
        else pure ⟨0, buf, stored.length, .dgram queue, stored.length, 0⟩

def getRpcRequest (sock : Socket) (buf : Memory) (outSize : ℕ) : Traced Field RpcRequest :=
  match sock with
  | .stream conn => getStreamRequest conn buf outSize
  | .dgram queue => getDatagramRequest queue buf outSize
  | .otherType | .badDescriptor => pure ⟨-1, buf, outSize, sock, 0, 0⟩

end Kademlia.Model
