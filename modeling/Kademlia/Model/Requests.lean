import Kademlia.Model.Storage
import Kademlia.Model.Buckets

/-!
The request side of `rpc.c`: what a node does with a packet.

A packet is the contents of the receive buffer; a handler reads it as the
struct its call type asks for. `handle_store` converts the packet into a local
`struct KeyValuePair` that is not initialised, so its previous contents are a
parameter, `stack`.
-/

namespace Kademlia.Model

open Foundations Traced

/-- `storage_map` and `buckets` -/
structure Node where
  storage : Storage
  buckets : Buckets

def Node.initial : Node := ⟨Storage.empty, Buckets.empty⟩

inductive Response
  | plain (response : RPCResponse)
  | findNode (response : RPCFindNodeResponse)
  | findValue (response : RPCFindValueResponse)

structure Handled where
  node : Node
  sent : Option Response

def rpcHeader (callType : RPCCallType) (packetSize : ℕ) : RPCMessageHeader :=
  ⟨rpcMagic, packetSize, callType.code⟩

def handlePing (node : Node) : Handled :=
  ⟨node, some (.plain ⟨rpcHeader .pingResponse sizeofResponse, 1⟩)⟩

def handleStore (stack : KeyValuePair) (node : Node) (data : RPCStore) :
    Traced Field Handled := do
  let kvp ← deserializeRpcValue data.keyValue stack
  pure ⟨{ node with storage := storagePutValue node.storage kvp },
    some (.plain ⟨rpcHeader .storeResponse sizeofResponse, 1⟩)⟩

/-- The loop over the `count` slots of the array from `find_closest_peers`:
the peers found and the slots of `response.closest`. -/
def fillClosest (closest : List Peer) (count : ℕ) :
    Traced Field (ℕ × (Fin kValue → RPCPeer)) :=
  (List.range count).foldlM (fun (acc : ℕ × (Fin kValue → RPCPeer)) (i : ℕ) =>
      match closest[i]? with
      | none => pure acc
      | some peer => do
          touch .closest i
          pure (acc.1 + 1, writeSlot acc.2 i (serializeRpcPeer peer)))
    (0, fun _ => zeroRPCPeer)

def handleFindNode (own : Option HashID) (node : Node) (data : RPCFind) :
    Traced Field Handled := do
  let response : RPCFindNodeResponse :=
    { header := rpcHeader .findNodeResponse sizeofFindNodeResponse
      success := 1, foundKey := 0, numClosest := 0, closest := fun _ => zeroRPCPeer }
  match ← findClosestPeers own node.buckets data.key bucketSize with
  | none => pure ⟨node, some (.findNode response)⟩
  | some closest => do
      let (found, slots) ← fillClosest closest bucketSize
      pure ⟨node, some (.findNode { response with numClosest := found, closest := slots })⟩

def handleFindValue (own : Option HashID) (node : Node) (data : RPCFind) :
    Traced Field Handled := do
  let response : RPCFindValueResponse :=
    { header := rpcHeader .findValueResponse sizeofFindValueResponse
      success := 1, foundKey := 0
      values := ⟨zeroBytes 32, 0, fun _ => zeroRPCPeer⟩
      numClosest := 0, closest := fun _ => zeroRPCPeer }
  match storageGetValue node.storage data.key with
  | some kvp => do
      let values ← serializeRpcValue kvp response.values
      pure ⟨node, some (.findValue { response with foundKey := 1, values := values })⟩
  | none =>
      match ← findClosestPeers own node.buckets data.key bucketSize with
      | none => pure ⟨node, some (.findValue response)⟩
      | some closest => do
          let (found, slots) ← fillClosest closest bucketSize
          pure ⟨node,
            some (.findValue { response with numClosest := found, closest := slots })⟩

def handleBroadcast (own : Option HashID) (node : Node) (data : RPCBroadcast) :
    Traced Field Handled := do
  let buckets ← updateBucketPeers own node.buckets (deserializeRpcPeer data.peer)
  pure ⟨{ node with buckets := buckets }, none⟩

/-- `expected_size`; responses leave it 0. -/
def expectedSize : RPCCallType → ℕ
  | .ping => sizeofPing
  | .store => sizeofStore
  | .findNode => sizeofFind
  | .findValue => sizeofFind
  | .broadcast => sizeofBroadcast
  | .pingResponse | .storeResponse | .findNodeResponse | .findValueResponse => 0

/-- The call type of a packet whose claimed size is the one expected. -/
def passesSizeCheck (contents : Memory) : Option RPCCallType :=
  match RPCCallType.ofCode contents.header.callType with
  -- "Got invalid RPC request!"
  | none => none
  | some callType =>
      if toSizeT contents.header.packetSize ≠ expectedSize callType then none
      else some callType

def handleRpcRequest (own : Option HashID) (stack : KeyValuePair) (node : Node)
    (contents : Memory) : Traced Field Handled :=
  match passesSizeCheck contents with
  | some .ping => pure (handlePing node)
  | some .store => handleStore stack node contents.rpcStore
  | some .findNode => handleFindNode own node contents.rpcFind
  | some .findValue => handleFindValue own node contents.rpcFind
  | some .broadcast => handleBroadcast own node contents.rpcBroadcast
  | _ => pure ⟨node, none⟩

/-! ### Publishing a file -/

/-- `htons(SERVER_PORT)`, 8182 -/
def serverPort : Bytes 2 := ⟨[31, 246], rfl⟩

/-- The entry `handle_rpc_upload` puts into its own storage before it looks for
replicas; `self` is what `create_own_peer` left in `kv.values[0]`. -/
def uploadEntry (fileHash : HashID) (self : Peer) : KeyValuePair where
  key := fileHash
  numValues := 1
  values := writeSlot (fun _ => zeroPeer) 0
    { self with peerAddr := { self.peerAddr with sinPort := serverPort } }

/-! ### Runs of a node -/

inductive NodeEvent
  /-- `handle_rpc_request` on a received packet -/
  | packet (stack : KeyValuePair) (contents : Memory)
  /-- the local put of `handle_rpc_upload` -/
  | upload (fileHash : HashID) (self : Peer)

def Node.step (own : Option HashID) (node : Node) : NodeEvent → Traced Field Node
  | .packet stack contents => do
      let handled ← handleRpcRequest own stack node contents
      pure handled.node
  | .upload fileHash self =>
      pure { node with storage := storagePutValue node.storage (uploadEntry fileHash self) }

def Node.run (own : Option HashID) (node : Node) (events : List NodeEvent) :
    Traced Field Node :=
  events.foldlM (Node.step own) node

end Kademlia.Model
