import Kademlia.Model.Http
import Kademlia.Model.Network

/-!
A connection slot of `handle_connected` over the calls of `update_network`.

Only the connection belongs to the slot. The storage, the buckets, the receive
buffer and the files are shared with the other slots and may be different at
each call.
-/

namespace Kademlia.Model

open Foundations Traced

/-- A slot is free when its descriptor is -1. -/
structure Slot where
  isOpen : Bool
  conn : Conn

/-- What `handle_connected` meets when it comes to the slot: the `revents` that
`poll` set, the peek, and what is shared. -/
structure Poll where
  /-- `POLLHUP` -/
  hup : Bool
  /-- `POLLIN` -/
  readable : Bool
  peeks : List PeekEvent
  stack : KeyValuePair
  node : Node
  buf : Memory
  disk : Disk
  ops : FileOps

/-- The slot after a call; `poll` sets no `revents` for a free slot. -/
def Slot.serve (own : Option HashID) (slot : Slot) (poll : Poll) : Traced Field Slot :=
  if slot.isOpen = false then pure slot
  else if poll.hup then pure { slot with isOpen := false }
  else if poll.readable = false then pure slot
  else do
    let served ← handleConnected own poll.stack poll.node poll.buf poll.peeks slot.conn
    match served.outcome, served.sock with
    | .closed, _ => pure { slot with isOpen := false }
    | .http, _ =>
        pure { slot with conn := (getHttpRequest poll.ops poll.disk poll.buf slot.conn).1.rest }
    | _, .stream conn => pure { slot with conn := conn }
    | _, _ => pure slot

end Kademlia.Model
