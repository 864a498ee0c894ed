import Kademlia.Foundations.Ledger
import Kademlia.Model.Transfer

/-!
What the RPC client acquires and releases: `iterative_find_peers`,
`handle_rpc_upload` and `handle_rpc_download` with their calls of `malloc` and
`free`, `connect_to_peer` and `close`, `fopen` and `fclose`.

The pointers go beside the variables that the functions of `rpc.c` are modelled
with. An allocation that fails ends the program. What `update_bucket_peers`
allocates stays in the routing table and is left out, as is what the system's
own functions allocate. A loop that reads a block over and over uses it once.
-/

namespace Kademlia.Model

open Foundations CString Traced Owning

inductive Resource
  | block
  | socket
  | file
  deriving DecidableEq, Repr

/-! ### Vectors -/

/-- A `VectorPtr` with its array, `none` while it has none. -/
structure PointerVector where
  array : Option (Handle Resource)
  elems : VectorPtr (Handle Resource)

def PointerVector.init : PointerVector := ⟨none, vectorInit⟩

def PointerVector.push (vec : PointerVector) (elem : Handle Resource) :
    Owning Resource PointerVector :=
  if vec.elems.size = vec.elems.capacity then do
    releaseAll vec.array.toList
    let data ← acquire .block
    pure ⟨some data, vectorPush vec.elems elem⟩
  else pure ⟨vec.array, vectorPush vec.elems elem⟩

def PointerVector.free (vec : PointerVector) (freeElements : Bool) : Owning Resource Unit := do
  releaseAll (if freeElements then vec.elems.data else [])
  releaseAll vec.array.toList

/-! ### `iterative_find_peers` -/

/-- The variables of a lookup, the blocks that `pending` and `contacted` point to, and what was
put into `out_peers`. -/
structure LookupMemory where
  vars : LookupState
  peers : PointerVector
  flags : PointerVector
  out : List (Handle Resource)

def LookupMemory.addPending (o : LookupMemory) (vars : LookupState) (peer : Handle Resource) :
    Owning Resource LookupMemory := do
  let peers ← o.peers.push peer
  let flag ← acquire .block
  let flags ← o.flags.push flag
  pure ⟨vars, peers, flags, o.out⟩

/-- `find_closest_peers` returns `NULL` and does not free its array. -/
def Search.dropsResult (q : Search) : Bool :=
  match q.own with
  | none => true
  | some ownId => getBucketIndex (distHash ownId q.targetKey) = -1

/-- What comes before the loops. -/
def LookupMemory.start (q : Search) (buckets : Buckets) (outPeers : ℕ → Option Peer) :
    Owning Resource LookupMemory := do
  let result ← acquire .block
  let o : LookupMemory := ⟨LookupState.empty outPeers buckets, .init, .init, []⟩
  match (findClosestPeers q.own buckets q.targetKey kValue).val with
  | none => do
      releaseAll (if q.dropsResult then [] else [result])
      pure o
  | some initial => do
      let o ← (initial.take kValue).foldlM (fun (o : LookupMemory) peer => do
        use result
        let copy ← acquire .block
        o.addPending (o.vars.addPending peer) copy) o
      release result
      pure o

/-- `new_peer`, and the scan of `pending` for its id. -/
def LookupMemory.hearPeer (own : Option HashID) (o : LookupMemory) (newPeer : Peer) :
    Owning Resource LookupMemory := do
  let pointer ← acquire .block
  let vars := (Model.hearPeer own o.vars newPeer).val
  useAll (o.peers.elems.data.take
    (o.vars.pending.data.findIdx (fun q => q.peerId = newPeer.peerId) + 1))
  if o.vars.pending.data.any fun q => q.peerId = newPeer.peerId then do
    release pointer
    pure { o with vars := vars }
  else o.addPending vars pointer

def LookupMemory.hearPeers (own : Option HashID) (closest : ℕ → RPCPeer)
    (numClosest : ℕ) (o : LookupMemory) : Owning Resource LookupMemory :=
  (List.range numClosest).foldlM (fun o j => o.hearPeer own (deserializeRpcPeer (closest j))) o

/-- The branch of `found_key`: the owners are allocated, and everything pending is freed that
was not moved to `out_peers`. -/
def LookupMemory.takeValue (maxPeers : ℕ) (values : RPCKeyValue) (kvp : KeyValuePair)
    (o : LookupMemory) : Owning Resource LookupMemory := do
  let out ← acquireMany .block (min (deserializeRpcValue values kvp).val.numValues maxPeers)
  releaseAll (o.peers.elems.data.filter (· ∉ out))
  pure ⟨(Model.takeValue maxPeers values kvp o.vars).val, o.peers, o.flags, out⟩

/-- What is done with a reply; the `break` of `found_key` goes past the `close`. -/
def LookupMemory.handleReply (q : Search) (kvp : KeyValuePair) (buf : Memory)
    (sock : Handle Resource) (o : LookupMemory) : Owning Resource LookupMemory :=
  if q.findValue = true ∧ buf.header.callType = RPCCallType.findValueResponse.code then
    let resp := buf.rpcFindValueResponse
    if resp.foundKey ≠ 0 then o.takeValue q.maxPeers resp.values kvp
    else do
      let o ← o.hearPeers q.own (buf.slot (14 + sizeofKeyValue + 8)) resp.numClosest
      release sock
      pure o
  else if q.findValue = false ∧ buf.header.callType = RPCCallType.findNodeResponse.code then do
    let resp := buf.rpcFindNodeResponse
    let o ← o.hearPeers q.own (buf.slot 22) resp.numClosest
    release sock
    pure o
  else do
    release sock
    pure o

/-- The body of the inner loop from `connect_to_peer` on. -/
def LookupMemory.contactPeer (q : Search) (session : Option Session) (p : Peer)
    (o : LookupMemory) : Owning Resource LookupMemory :=
  match session with
  | none => pure o
  | some session => do
      let sock ← acquire .socket
      let o := { o with vars := { o.vars with requests := o.vars.requests ++ [p] } }
      match (receiveReply session).val with
      | none => do
          release sock
          pure o
      | some buf => o.handleReply q session.kvp buf sock

def LookupMemory.step (q : Search) (net : Network) (o : LookupMemory) :
    Owning Resource LookupMemory :=
  match o.vars.position with
  | .outer => pure { o with vars := (o.vars.step q net).val }
  | .inner i =>
      if i < o.vars.pending.size then do
        -- `*c`
        useAll (vectorGet o.flags.elems i).toList
        match vectorGet o.vars.pending i, vectorGet o.vars.contacted i with
        | some p, some false => do
            -- `p->peer_addr`
            useAll (vectorGet o.peers.elems i).toList
            let o ← { o with vars := o.vars.mark i }.contactPeer q
              (net o.vars.contacts.length p) p
            if o.vars.valueFound then pure { o with vars := endSweep q o.vars }
            else pure { o with vars := { o.vars with position := .inner (i + 1) } }
        | _, _ => pure { o with vars := { o.vars with position := .inner (i + 1) } }
      else pure { o with vars := endSweep q o.vars }
  | .exit => pure o

def LookupMemory.run (q : Search) (net : Network) : ℕ → LookupMemory →
    Owning Resource LookupMemory
  | 0, o => pure o
  | n + 1, o => do
      let o ← o.step q net
      LookupMemory.run q net n o

/-- `pending`, sorted with its pointers. -/
def LookupMemory.sorted (q : Search) (o : LookupMemory) : List (Handle Resource) :=
  let pairs := o.vars.pending.data.zip o.peers.elems.data
  (vectorSort ⟨pairs, pairs.length, le_rfl⟩ fun a b =>
    peerDistanceCmp q.targetKey a.1 b.1).data.map Prod.snd

/-- What follows the loops, and the pointers that `out_peers` has then. -/
def LookupMemory.finish (q : Search) (o : LookupMemory) :
    Owning Resource (LookupResult × List (Handle Resource)) :=
  if q.findValue then do
    o.peers.free false
    o.flags.free true
    pure (o.vars.finish q, o.out)
  else do
    useAll o.peers.elems.data
    releaseAll ((o.sorted q).drop q.maxPeers)
    o.peers.free false
    o.flags.free true
    pure (o.vars.finish q, (o.sorted q).take q.maxPeers)

def iterativeFindPeersIn (q : Search) (net : Network) (buckets : Buckets)
    (outPeers : ℕ → Option Peer) (fuel : ℕ) :
    Owning Resource (Option (LookupResult × List (Handle Resource))) :=
  if q.maxPeers = 0 then pure (some (⟨-1, outPeers, LookupState.empty outPeers buckets⟩, []))
  else do
    let o ← LookupMemory.start q buckets outPeers
    let o ← o.run q net fuel
    if o.vars.position = .exit then do
      let found ← o.finish q
      pure (some found)
    else pure none

/-! ### The exchanges with a peer -/

def downloadHttpFileIn (session : HttpSession) (disk : Disk) (file : FileMagnet) :
    Owning Resource GetResult :=
  -- `connect_to_peer` has closed a socket that it could not connect
  if session.connected = false then pure ⟨-1, disk, true⟩
  else do
    let peerFd ← acquire .socket
    if session.headerSent = false then do
      release peerFd
      pure ⟨-1, disk, true⟩
    else
      let received := recvUntil session.reply httpHeaderSize httpPattern
      if received.ret ≤ 0 then do
        release peerFd
        pure ⟨-1, disk, true⟩
      else
        let header := received.stored.takeWhile (· ≠ 0)
        if (strstr header (ascii "404 Not Found")).isSome then do
          release peerFd
          pure ⟨-1, disk, true⟩
        else
          match strcasestrPortable header contentLengthName with
          | none => do
              release peerFd
              pure ⟨-1, disk, true⟩
          | some field =>
              let contentLength := (scanContentLength field).getD 0
              if session.ops.dirReady = false then do
                release peerFd
                pure ⟨-1, disk, true⟩
              else if session.ops.opens = false then do
                release peerFd
                pure ⟨-1, disk, true⟩
              else do
                let newFile ← acquire .file
                let got := session.saved disk file (receiveBody false contentLength []
                  session.ops.writes session.ops.again received.rest)
                -- a loop that does not end closes neither
                if got.returns = false then pure got
                else do
                  release newFile
                  release peerFd
                  pure got

/-- `upload_http_file`, with the pointers to the peer and the contents. -/
def uploadHttpFileIn (session : HttpSession) (contents : List UInt8)
    (peer : Option (Handle Resource)) (block : Handle Resource) : Owning Resource PutResult :=
  if contents.isEmpty then pure ⟨-1, none⟩
  else do
    useAll peer.toList
    if session.connected = false then pure ⟨-1, none⟩
    else do
      let sock ← acquire .socket
      if session.headerSent = false then do
        release sock
        pure ⟨-1, none⟩
      else do
        use block
        if session.bodySent = false then do
          release sock
          pure ⟨-1, none⟩
        else
          let received := recvUntil session.reply httpHeaderSize httpPattern
          if received.ret ≤ 0 then do
            release sock
            pure ⟨-1, none⟩
          else do
            release sock
            pure ⟨0, parseStatus (received.stored.takeWhile (· ≠ 0))⟩

/-! ### `handle_rpc_upload` -/

def replicateIn (net : UploadNetwork) (contents : List UInt8) (outPeers : ℕ → Option Peer)
    (pointers : List (Handle Resource)) (block : Handle Resource) (kv : KeyValuePair) :
    Owning Resource KeyValuePair :=
  (List.range (kValue - 1)).foldlM (fun kv i =>
    match outPeers i with
    | none => pure kv
    | some peer => do
        let put ← uploadHttpFileIn (net.put i peer) contents pointers[i]? block
        if put.ret ≠ 0 then pure kv
        else do
          useAll pointers[i]?.toList
          pure (kv.addOwner peer)) kv

/-- The loop that sends the STORE. -/
def publishIn (net : UploadNetwork) (outPeers : ℕ → Option Peer)
    (pointers : List (Handle Resource)) : Owning Resource (List Peer) :=
  (List.range kValue).foldlM (fun stored i =>
    match outPeers i with
    | none => pure stored
    | some peer => do
        useAll pointers[i]?.toList
        if net.storeConnects i peer = false then pure stored
        else do
          let sock ← acquire .socket
          release sock
          pure (stored ++ [peer])) []

def handleRpcUploadIn (own : Option HashID) (primary : Option SockAddrIn) (net : UploadNetwork)
    (disk : Disk) (node : Node) (file : FileMagnet) (fuel : ℕ) :
    Owning Resource (Option Uploaded) := do
  let kv := uploadEntry file.fileHash (createOwnPeer own primary)
  let storage := storagePutValue node.storage kv
  let found ← iterativeFindPeersIn ⟨own, file.fileHash, kValue, false⟩ net.lookup node.buckets
    (fun _ => none) fuel
  match found with
  | none => pure none
  | some (found, pointers) =>
      let node : Node := ⟨storage, found.last.buckets⟩
      if found.ret ≠ 0 then pure (some ⟨-1, node, found.outPeers, none, []⟩)
      else
        match disk (pathIn uploadDir file.nameText) with
        | none => pure (some ⟨-1, node, found.outPeers, none, []⟩)
        | some contents => do
            let fileHandle ← acquire .file
            let fileContents ← acquire .block
            release fileHandle
            let kv ← replicateIn net contents found.outPeers pointers fileContents kv
            let stored ← publishIn net found.outPeers pointers
            releaseAll pointers
            release fileContents
            pure (some ⟨0, node, found.outPeers, some kv, stored⟩)

/-! ### `handle_rpc_download` -/

/-- The owners of an entry of our own storage are not pointed to by any of `pointers`. -/
def tryOwnersIn (http : ℕ → Peer → HttpSession) (file : FileMagnet) (stopAt : Option HashID) :
    ℕ → List Peer → List (Handle Resource) → Disk → Owning Resource TriedOwners
  | _, [], _, disk => pure ⟨-1, none, [], disk, true⟩
  | n, peer :: peers, pointers, disk => do
      useAll (pointers.take 1)
      if stopAt = some peer.peerId then pure ⟨0, none, [], disk, true⟩
      else do
        let got ← downloadHttpFileIn (http n peer) disk file
        if got.ret = 0 then pure ⟨0, some peer, [peer], got.disk, true⟩
        else if got.returns = false then pure ⟨-1, none, [peer], got.disk, false⟩
        else do
          let tried ← tryOwnersIn http file stopAt (n + 1) peers (pointers.drop 1) got.disk
          pure { tried with contacted := peer :: tried.contacted }

def handleRpcDownloadIn (own : Option HashID) (lookup : Network)
    (http : ℕ → Peer → HttpSession) (disk : Disk) (node : Node) (file : FileMagnet)
    (fuel : ℕ) : Owning Resource (Option TriedOwners) :=
  match own with
  | none => pure (some ⟨-1, none, [], disk, true⟩)
  | some ownId =>
      match storageGetValue node.storage file.fileHash with
      | some kvp => do
          let tried ← tryOwnersIn http file (some ownId) 0
            ((List.range kvp.numValues).map (readSlot kvp.values zeroPeer)) [] disk
          pure tried.ended
      | none => do
          let found ← iterativeFindPeersIn ⟨own, file.fileHash, kValue, true⟩ lookup
            node.buckets (fun _ => none) fuel
          match found with
          | none => pure none
          | some (found, pointers) =>
              if found.ret < 0 then pure (some ⟨-1, none, [], disk, true⟩)
              else do
                let tried ← tryOwnersIn http file none 0
                  ((List.range kValue).filterMap found.outPeers) pointers disk
                if tried.returns = false then pure none
                else do
                  releaseAll pointers
                  pure (some tried)

/-! ### One call after the other -/

/-- A command that the network thread serves, and what it meets then. -/
inductive ClientCall
  | upload (own : Option HashID) (primary : Option SockAddrIn) (net : UploadNetwork)
      (disk : Disk) (node : Node) (file : FileMagnet)
  | download (own : Option HashID) (lookup : Network) (http : ℕ → Peer → HttpSession)
      (disk : Disk) (node : Node) (file : FileMagnet)

/-- `false` when the call is not over after `fuel` steps of its lookup. -/
def ClientCall.serve (fuel : ℕ) : ClientCall → Owning Resource Bool
  | .upload own primary net disk node file => do
      let uploaded ← handleRpcUploadIn own primary net disk node file fuel
      pure uploaded.isSome
  | .download own lookup http disk node file => do
      let tried ← handleRpcDownloadIn own lookup http disk node file fuel
      pure tried.isSome

def serveAll (fuel : ℕ) : List ClientCall → Owning Resource Bool
  | [] => pure true
  | call :: calls => do
      let finished ← call.serve fuel
      if finished then serveAll fuel calls else pure false

end Kademlia.Model
