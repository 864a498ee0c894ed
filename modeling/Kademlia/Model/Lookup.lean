import Kademlia.Model.Vector
import Kademlia.Model.Storage
import Kademlia.Model.Buckets
import Kademlia.Model.Sockets

/-!
The client side of `rpc.c`: `iterative_find_peers`.

The two nested loops are a step function on the local variables and a position
in the code. The network decides, anew for each contact, whether the peer can
be connected to and what its connection delivers. Freeing memory and logging
are left out.
-/

namespace Kademlia.Model

open Foundations Traced

/-! ### The arguments -/

/-- The arguments of `iterative_find_peers`, and the own id. -/
structure Search where
  own : Option HashID
  targetKey : HashID
  maxPeers : ℕ
  findValue : Bool

/-- What a contacted peer's socket has to offer, and what is in the
uninitialised `buf` and `kvp` that its reply is read into. -/
structure Session where
  peeks : List PeekEvent
  conn : Conn
  buf : Memory
  kvp : KeyValuePair

/-- The socket that the `n`th peer contacted is reached by, if any. The calls
are made one after the other, so the answers may depend on all earlier ones. -/
abbrev Network := ℕ → Peer → Option Session

/-! ### The local variables -/

/-- Where the execution stands: before the test of the `while` loop, before the
test of the `for` loop with its `i`, or behind both. -/
inductive Position
  | outer
  | inner (i : ℕ)
  | exit
  deriving DecidableEq, Repr

/-- The variables of `iterative_find_peers`. The last four record what was
done: the sweeps begun, the entries contacted, the peers a request was sent to
and the peers read from closest lists. -/
structure LookupState where
  pending : VectorPtr Peer
  contacted : VectorPtr Bool
  outPeers : ℕ → Option Peer
  buckets : Buckets
  anyNewContact : Bool
  done : Bool
  valueFound : Bool
  position : Position
  sweeps : ℕ
  contacts : List ℕ
  requests : List Peer
  advertised : List Peer

def LookupState.addPending (s : LookupState) (peer : Peer) : LookupState :=
  { s with pending := vectorPush s.pending peer, contacted := vectorPush s.contacted false }

/-- The variables before the loops, with nothing pending yet. -/
def LookupState.empty (outPeers : ℕ → Option Peer) (buckets : Buckets) : LookupState where
  pending := vectorInit
  contacted := vectorInit
  outPeers := outPeers
  buckets := buckets
  anyNewContact := false
  done := false
  valueFound := false
  position := .outer
  sweeps := 0
  contacts := []
  requests := []
  advertised := []

def LookupState.start (initial : List Peer) (outPeers : ℕ → Option Peer) (buckets : Buckets) :
    LookupState :=
  initial.foldl LookupState.addPending (LookupState.empty outPeers buckets)

/-! ### One contact -/

/-- The reply of a peer, when it is an RPC packet that `get_rpc_request`
accepts. -/
def receiveReply (session : Session) : Traced Field (Option Memory) :=
  if isRpcReply (recvAllPeek session.conn.delivered session.peeks 4) then do
    let request ← getRpcRequest (.stream session.conn) session.buf 0
    pure (if request.ret ≠ 0 then none else some request.buf)
  else pure none

/-- `new_peer` of the loops over `closest[]`. -/
def hearPeer (own : Option HashID) (s : LookupState) (newPeer : Peer) :
    Traced Field LookupState := do
  let buckets ← updateBucketPeers own s.buckets newPeer
  let s := { s with buckets := buckets, advertised := s.advertised ++ [newPeer] }
  if s.pending.data.any fun q => q.peerId = newPeer.peerId then pure s
  else pure (s.addPending newPeer)

def hearPeers (own : Option HashID) (closest : ℕ → RPCPeer) (numClosest : ℕ)
    (s : LookupState) : Traced Field LookupState := do
  touch .numClosest 0
  (List.range numClosest).foldlM (fun s (j : ℕ) => do
    touch .closest j
    hearPeer own s (deserializeRpcPeer (closest j))) s

/-- The branch of `found_key`. -/
def takeValue (maxPeers : ℕ) (values : RPCKeyValue) (kvp : KeyValuePair) (s : LookupState) :
    Traced Field LookupState := do
  let kvp ← deserializeRpcValue values kvp
  pure { s with
    outPeers := (List.range (min kvp.numValues maxPeers)).foldl
      (fun outPeers j => Function.update outPeers j (some (readSlot kvp.values zeroPeer j)))
      s.outPeers
    valueFound := true }

def handleReply (q : Search) (kvp : KeyValuePair) (buf : Memory) (s : LookupState) :
    Traced Field LookupState := do
  touch .callType 0
  if q.findValue = true ∧ buf.header.callType = RPCCallType.findValueResponse.code then do
    let resp := buf.rpcFindValueResponse
    touch .foundKey 0
    if resp.foundKey ≠ 0 then takeValue q.maxPeers resp.values kvp s
    else hearPeers q.own (buf.slot (14 + sizeofKeyValue + 8)) resp.numClosest s
  else if q.findValue = false ∧ buf.header.callType = RPCCallType.findNodeResponse.code then
    let resp := buf.rpcFindNodeResponse
    hearPeers q.own (buf.slot 22) resp.numClosest s
  else pure s

/-- The body of the inner loop from `connect_to_peer` on. -/
def contactPeer (q : Search) (session : Option Session) (p : Peer) (s : LookupState) :
    Traced Field LookupState :=
  match session with
  | none => pure s
  | some session => do
      let s := { s with requests := s.requests ++ [p] }
      let reply ← receiveReply session
      match reply with
      | none => pure s
      | some buf => handleReply q session.kvp buf s

/-! ### The loops -/

def LookupState.mark (s : LookupState) (i : ℕ) : LookupState :=
  { s with
    contacted := s.contacted.store i true
    anyNewContact := true
    contacts := s.contacts ++ [i] }

/-- The end of the body of the `while` loop. -/
def endSweep (q : Search) (s : LookupState) : LookupState :=
  { s with
    done := s.done || !s.anyNewContact || decide (s.pending.size ≥ q.maxPeers)
    position := .outer }

def LookupState.step (q : Search) (net : Network) (s : LookupState) : Traced Field LookupState :=
  match s.position with
  | .outer =>
      if s.done = false ∧ (q.findValue = false ∨ s.valueFound = false) then
        pure { s with anyNewContact := false, position := .inner 0, sweeps := s.sweeps + 1 }
      else pure { s with position := .exit }
  | .inner i =>
      if i < s.pending.size then
        match vectorGet s.pending i, vectorGet s.contacted i with
        | some p, some false => do
            let s ← contactPeer q (net s.contacts.length p) p (s.mark i)
            if s.valueFound then pure (endSweep q s)
            else pure { s with position := .inner (i + 1) }
        -- no peer information or already contacted
        | _, _ => pure { s with position := .inner (i + 1) }
      else pure (endSweep q s)
  | .exit => pure s

def LookupState.run (q : Search) (net : Network) : ℕ → LookupState → Traced Field LookupState
  | 0, s => pure s
  | n + 1, s => do
      let s ← s.step q net
      LookupState.run q net n s

/-! ### The result -/

/-- `memcmp`, with the difference of the first bytes that are not equal as its result. -/
def memcmp : List UInt8 → List UInt8 → ℤ
  | a :: l, b :: l' => if a = b then memcmp l l' else (a.toNat : ℤ) - b.toNat
  | _, _ => 0

def peerDistanceCmp (target : HashID) (a b : Peer) : Bool :=
  memcmp (distHash a.peerId target).toList (distHash b.peerId target).toList < 0

/-- The return value, `out_peers`, and the variables after the loops. -/
structure LookupResult where
  ret : ℤ
  outPeers : ℕ → Option Peer
  last : LookupState

/-- What follows the loops. -/
def LookupState.finish (q : Search) (s : LookupState) : LookupResult :=
  if q.findValue then ⟨if s.valueFound then 0 else -1, s.outPeers, s⟩
  else
    let sorted := vectorSort s.pending (peerDistanceCmp q.targetKey)
    ⟨0, (List.range (min sorted.size q.maxPeers)).foldl
      (fun outPeers i => Function.update outPeers i (vectorGet sorted i)) s.outPeers, s⟩

def initialPeers (q : Search) (buckets : Buckets) : Traced Field (List Peer) := do
  let initial ← findClosestPeers q.own buckets q.targetKey kValue
  pure ((initial.getD []).take kValue)

/-- `none` when the loops are not over after `fuel` steps. -/
def iterativeFindPeers (q : Search) (net : Network) (buckets : Buckets)
    (outPeers : ℕ → Option Peer) (fuel : ℕ) : Traced Field (Option LookupResult) :=
  if q.maxPeers = 0 then pure (some ⟨-1, outPeers, LookupState.empty outPeers buckets⟩)
  else do
    let initial ← initialPeers q buckets
    let s ← (LookupState.start initial outPeers buckets).run q net fuel
    pure (if s.position = .exit then some (s.finish q) else none)

end Kademlia.Model
