import Kademlia.Model.Sockets
import Kademlia.Model.Requests

/-!
The dispatch of `network.c`: one connection slot of `handle_connected`, and the
broadcast socket in slot 1, which is served by `handle_incoming`.

The first four bytes are peeked to tell an RPC packet from an HTTP request.
The HTTP side touches neither the storage nor the buckets and is left to
`get_http_request`.
-/

namespace Kademlia.Model

open Foundations Traced

/-- What `handle_connected` did with a message. -/
inductive Outcome
  /-- the descriptor was closed and the slot freed -/
  | closed
  /-- `get_rpc_request` did not return 0 -/
  | discarded
  /-- `handle_rpc_request` was called -/
  | dispatched (sent : Option Response)
  /-- `get_http_request` was called -/
  | http

def Outcome.isRpc : Outcome → Prop
  | .discarded | .dispatched _ => True
  | .closed | .http => False

structure Served where
  node : Node
  buf : Memory
  sock : Socket
  outcome : Outcome

/-- Fetch an RPC packet and, if that succeeds, handle it. -/
def serveRpc (own : Option HashID) (stack : KeyValuePair) (node : Node) (buf : Memory)
    (sock : Socket) : Traced Field Served := do
  let request ← getRpcRequest sock buf 0
  if request.ret = 0 then do
    let handled ← handleRpcRequest own stack node request.buf
    pure ⟨handled.node, request.buf, request.sock, .dispatched handled.sent⟩
  else pure ⟨node, request.buf, request.sock, .discarded⟩

/-- A slot with `POLLIN` set. -/
def handleConnected (own : Option HashID) (stack : KeyValuePair) (node : Node) (buf : Memory)
    (peeks : List PeekEvent) (conn : Conn) : Traced Field Served :=
  let peeked := recvAllPeek conn.delivered peeks 4
  if peeked.1 ≤ 0 then pure ⟨node, buf, .stream conn, .closed⟩
  else if isRpcRequest peeked then
    serveRpc own stack node buf (.stream conn)
  else pure ⟨node, buf, .stream conn, .http⟩

/-! ### The broadcast socket -/

structure Datagram where
  /-- `sin_addr` of the sender -/
  sender : Bytes 4
  bytes : List UInt8
  deriving DecidableEq

/-- The node, the shared buffer and the receive queue of the broadcast socket. -/
structure Listener where
  node : Node
  buf : Memory
  queue : List Datagram

/-- What `get_primary_ip` gives during a call, if it succeeds, and what
`handle_store` finds in its local entry. -/
structure IncomingCall where
  primaryIp : Option (Bytes 4)
  stack : KeyValuePair

/-- The datagrams of `queue` that `sock` still has. -/
def stillQueued (sock : Socket) (queue : List Datagram) : List Datagram :=
  match sock with
  | .dgram left => queue.drop (queue.length - left.length)
  | _ => queue

/-- `handle_incoming` with slot 1 ready and slot 0 not. -/
def handleIncoming (own : Option HashID) (listener : Listener) (call : IncomingCall) :
    Traced Field Listener :=
  match listener.queue with
  | [] => pure listener
  | datagram :: queue =>
      -- "This is our own broadcast, ignore"
      if call.primaryIp = some datagram.sender then pure { listener with queue := queue }
      -- "Incomplete UDP magic": the four bytes were only peeked
      else if datagram.bytes.length < 4 then pure listener
      -- "Consume/discard"
      else if datagram.bytes.take 4 ≠ rpcMagic.toList then
        pure { listener with queue := queue }
      else do
        let served ← serveRpc own call.stack listener.node listener.buf
          (.dgram (listener.queue.map Datagram.bytes))
        pure ⟨served.node, served.buf, stillQueued served.sock listener.queue⟩

end Kademlia.Model
