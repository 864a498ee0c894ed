import Kademlia.Foundations.Splitting
import Kademlia.Model.Network
import Kademlia.Model.Packets

/-!
The nodes of a network and the packets between them.

Every packet that was ever sent may arrive anywhere, any number of times, in any
order, or never; one that begins to arrive arrives whole, in chunks of any size. Over
the same connections come HTTP requests and bytes that nobody has read. They may be
anything that does not begin with the magic of an RPC packet: an unread body that
begins so would be dispatched as one.

A node works on one thing at a time: it serves what comes in, or it is in
`iterative_find_peers`, which waits for the packets of others. So an upload and a
download are several steps, with those of the other nodes between them. What
`get_own_id` and `get_primary_ip` may return at a node is a parameter, and files are
left out.
-/

namespace Kademlia.Model

open Foundations Foundations.Source Foundations.Traced

/-- A call of `iterative_find_peers` that is not over. `entry` is `kv` of the `handle_rpc_upload`
that made it; `handle_rpc_download` has none. -/
structure RunningLookup where
  q : Search
  vars : LookupState
  entry : Option KeyValuePair

structure Participant where
  node : Node
  lookup : Option RunningLookup

def Participant.initial : Participant := ⟨Node.initial, none⟩

/-- The nodes and the packets sent so far. The last field records the entries that uploads began
with. -/
structure System (N : Type) where
  parties : N → Participant
  flight : List Packet
  uploads : List KeyValuePair

def System.initial (N : Type) : System N := ⟨fun _ => .initial, [], []⟩

/-- If what comes over the connection begins as a packet does, it begins with one in flight. -/
def Admits (flight : List Packet) (conn : Conn) : Prop :=
  rpcMagic.toList <+: delivered conn → ∃ packet ∈ flight, packet.bytes <+: delivered conn

/-- The same for datagrams. -/
def AdmitsQueue (flight : List Packet) (queue : List Datagram) : Prop :=
  ∀ datagram ∈ queue, rpcMagic.toList <+: datagram.bytes →
    ∃ packet ∈ flight, packet.bytes = datagram.bytes

def Outcome.sent : Outcome → List Packet
  | .dispatched (some response) => [.response response]
  | _ => []

/-- The lookup at its start, with the peers that are known already. -/
def RunningLookup.start (q : Search) (buckets : Buckets) (entry : Option KeyValuePair) :
    Traced Field RunningLookup := do
  let initial ← initialPeers q buckets
  pure ⟨q, LookupState.start initial (fun _ => none) buckets, entry⟩

/-- The STORE that `handle_rpc_upload` sends when its lookup is over; `contents` is what it reads
of the file. -/
def RunningLookup.publishes (l : RunningLookup) (net : UploadNetwork)
    (contents : Option (List UInt8)) : Traced Field (List Packet) :=
  match l.entry, contents with
  | some kv, some contents =>
      let found := l.vars.finish l.q
      if found.ret ≠ 0 then pure []
      else do
        let request ← storeRequest (replicate net contents found.outPeers kv)
        pure [.store request]
  | _, _ => pure []

/-- The search of `handle_rpc_upload` and `handle_rpc_download`. -/
def fileSearch (own : Option HashID) (fileHash : HashID) (findValue : Bool) : Search :=
  ⟨own, fileHash, kValue, findValue⟩

section Steps

variable {N : Type} [DecidableEq N] (s : System N)

def System.set (n : N) (party : Participant) : System N :=
  { s with parties := Function.update s.parties n party }

def System.send (packets : List Packet) : System N := { s with flight := packets ++ s.flight }

/-- `handle_rpc_upload` up to its lookup: `kv` goes into the own storage, and the lookup starts. -/
def System.beginUpload (n : N) (own : Option HashID) (fileHash : HashID) (kv : KeyValuePair) :
    Traced Field (System N) := do
  let node := (s.parties n).node
  let lookup ← RunningLookup.start (fileSearch own fileHash false) node.buckets (some kv)
  pure { s.set n ⟨{ node with storage := storagePutValue node.storage kv }, some lookup⟩ with
    uploads := kv :: s.uploads }

variable (describes : N → Option HashID → Option SockAddrIn → Prop)

/-- What one node can do; `describes` is what it may find out about itself. -/
inductive Acts : System N → Traced Field (System N) → Prop
  /-- `broadcast_discovery_request` -/
  | announce {s : System N} {n : N} {own : Option HashID} {primary : Option SockAddrIn}
      {packet : RPCBroadcast} (hself : describes n own primary)
      (hpacket : broadcastDiscoveryRequest own primary = some packet) :
      Acts s (pure (s.send [.broadcast packet]))
  /-- `handle_connected` -/
  | connected {s : System N} {n : N} {own : Option HashID} {primary : Option SockAddrIn}
      {stack : KeyValuePair} {buf : Memory} {peeks : List PeekEvent} {conn : Conn}
      (hself : describes n own primary) (hidle : (s.parties n).lookup = none)
      (hconn : Admits s.flight conn) :
      Acts s (do
        let served ← handleConnected own stack (s.parties n).node buf peeks conn
        pure ((s.set n ⟨served.node, none⟩).send served.outcome.sent))
  /-- `handle_incoming`; an answer to a datagram has no connection to be sent over -/
  | incoming {s : System N} {n : N} {own : Option HashID} {primary : Option SockAddrIn}
      {call : IncomingCall} {buf : Memory} {queue : List Datagram}
      (hself : describes n own primary) (hidle : (s.parties n).lookup = none)
      (hqueue : AdmitsQueue s.flight queue) :
      Acts s (do
        let listener ← handleIncoming own ⟨(s.parties n).node, buf, queue⟩ call
        pure (s.set n ⟨listener.node, none⟩))
  /-- `handle_rpc_upload`, up to its lookup -/
  | upload {s : System N} {n : N} {own : Option HashID} {primary : Option SockAddrIn}
      (fileHash : HashID) (hself : describes n own primary) (hidle : (s.parties n).lookup = none) :
      Acts s (s.beginUpload n own fileHash (uploadEntry fileHash (createOwnPeer own primary)))
  /-- `handle_rpc_download` of a file that is not in the own storage, up to its lookup -/
  | download {s : System N} {n : N} {ownId : HashID} {primary : Option SockAddrIn}
      (fileHash : HashID) (hself : describes n (some ownId) primary)
      (hidle : (s.parties n).lookup = none)
      (hmissing : storageGetValue (s.parties n).node.storage fileHash = none) :
      Acts s (do
        let lookup ← RunningLookup.start (fileSearch (some ownId) fileHash true)
          (s.parties n).node.buckets none
        pure (s.set n ⟨(s.parties n).node, some lookup⟩))
  /-- the request of a lookup -/
  | ask {s : System N} {n : N} {l : RunningLookup} (hlookup : (s.parties n).lookup = some l) :
      Acts s (pure (s.send [.find (findRequest l.q)]))
  /-- a step of the loops of a lookup; `session` is that of the peer it contacts, if it does -/
  | look {s : System N} {n : N} {l : RunningLookup} {session : Option Session}
      (hlookup : (s.parties n).lookup = some l)
      (hsession : ∀ reached ∈ session, Admits s.flight reached.conn) :
      Acts s (do
        let vars ← l.vars.step l.q fun _ _ => session
        pure (s.set n ⟨(s.parties n).node, some { l with vars := vars }⟩))
  /-- what follows the loops -/
  | finish {s : System N} {n : N} {l : RunningLookup} {net : UploadNetwork}
      {contents : Option (List UInt8)} (hlookup : (s.parties n).lookup = some l)
      (hexit : l.vars.position = .exit) :
      Acts s (do
        let packets ← l.publishes net contents
        pure ((s.set n ⟨{ (s.parties n).node with buckets := l.vars.buckets }, none⟩).send
          packets))

/-- What a node makes of the system, when an index outside of its table finds an empty bucket
there and stores nothing. -/
def Yields (s s' : System N) : Prop := ∃ act, Acts describes s act ∧ act.val = s'

/-- A step of the system: to use an index outside of the table has no meaning in C. -/
def Steps (s s' : System N) : Prop :=
  ∃ act, Acts describes s act ∧ act.Stays .buckets bucketCount ∧ act.val = s'

/-- What a network can come to. -/
def System.Reachable (s : System N) : Prop :=
  Relation.ReflTransGen (Steps describes) (System.initial N) s

/-- A call returns `a`, and has used no index outside of the table. -/
structure Returns {α : Type} (x : Traced Field (Option α)) (a : α) : Prop where
  inTable : x.Stays .buckets bucketCount
  val : x.val = some a

end Steps

end Kademlia.Model
