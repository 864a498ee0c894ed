import Kademlia.Model.Http
import Kademlia.Model.Lookup
import Kademlia.Model.Requests

/-!
The client side of `http.c`, the magnets it is given, and the uploads and
downloads of `rpc.c` that are built on it.

Each exchange with a peer is a session: what `connect_to_peer` and the calls of
`send_all` return, and the connection that the response is read from. SHA-256
is a parameter.
-/

namespace Kademlia.Model

open Foundations CString Traced

def downloadDir : List UInt8 := ascii "./download"

/-! ### Magnets -/

/-- `struct FileMagnet`; a `NULL` name is `none`. -/
structure FileMagnet where
  fileHash : HashID
  displayName : Option (List UInt8)
  exactLength : ℕ

/-- What follows the last `'/'` of a path. -/
def baseName (filename : List UInt8) : List UInt8 := filename.rtakeWhile (· ≠ 47)

/-- `contents` is what `sha256_file` reads of the file, `none` if it cannot. It
returns the number of bytes as an `int`. -/
def createMagnet (sha256 : List UInt8 → HashID) (filename : List UInt8)
    (contents : Option (List UInt8)) : Option FileMagnet :=
  if filename.length < 1 then none
  else
    match contents with
    | none => none
    | some contents =>
        let contentsLen := int32 (contents.length % 2 ^ 32)
        if contentsLen = -1 then none
        else some ⟨sha256 contents, some (baseName filename), toSizeT contentsLen⟩

/-- A file name that `create_magnet` can find at the end of a path. -/
structure BaseName where
  bytes : List UInt8
  ne_nil : bytes ≠ []
  no_slash : 47 ∉ bytes
  no_nul : 0 ∉ bytes

/-- The name as `%s` prints it. -/
def FileMagnet.nameText (file : FileMagnet) : List UInt8 :=
  file.displayName.getD (ascii "(null)")

/-! ### Requests -/

def inetNtop (addr : Bytes 4) : List UInt8 :=
  List.intercalate [46] (addr.toList.map fun b => decimal b.toNat)

def ntohs (port : Bytes 2) : ℕ := port.toList.foldl (fun n b => 256 * n + b.toNat) 0

/-- The value of the `Host` field. -/
def hostText (addr : SockAddrIn) : List UInt8 :=
  inetNtop addr.sinAddr ++ [58] ++ decimal (ntohs addr.sinPort)

/-- `request` of `download_http_file` -/
def getRequest (file : FileMagnet) (addr : SockAddrIn) : List UInt8 :=
  snprintf 1024 (ascii "GET /" ++ file.nameText ++ ascii " HTTP/1.1\r\n" ++
    ascii "Host: " ++ hostText addr ++ ascii "\r\n" ++ ascii "Connection: close\r\n\r\n")

/-- `request_header` of `upload_http_file` -/
def putRequest (file : FileMagnet) (addr : SockAddrIn) (length : ℕ) : List UInt8 :=
  snprintf 1024 (ascii "PUT /" ++ file.nameText ++ ascii " HTTP/1.1\r\n" ++
    ascii "Host: " ++ hostText addr ++ ascii "\r\n" ++
    ascii "Content-Type: application/octet-stream\r\n" ++
    ascii "Content-Length: " ++ decimal length ++ ascii "\r\n" ++
    ascii "Connection: close\r\n\r\n")

/-! ### One exchange -/

/-- What the network and the file system make of one exchange. -/
structure HttpSession where
  connected : Bool
  headerSent : Bool
  bodySent : Bool
  reply : Conn
  ops : FileOps
  /-- where a transfer would fail, the peer stays silent and `errno` is `EAGAIN` for ever -/
  silent : Bool

/-- The value of a `long` stored into an `int`. -/
def longToInt (z : ℤ) : ℤ := int32 (z % 2 ^ 32).toNat

/-- `sscanf(resp_header, "HTTP/%*d.%*d %d", &status_code)` -/
def parseStatus (header : List UInt8) : Option ℤ :=
  if (ascii "HTTP/").isPrefixOf header then do
    let (_, rest) ← scanSigned (2 ^ 63) (header.drop 5)
    if rest.head? = some 46 then do
      let (_, rest) ← scanSigned (2 ^ 63) rest.tail
      let (code, _) ← scanSigned (2 ^ 63) rest
      some (longToInt code)
    else none
  else none

/-- The return value of `upload_http_file`, and the status that it logs. -/
structure PutResult where
  ret : ℤ
  status : Option ℤ

/-- `upload_http_file`; the body of the response is read and dropped. -/
def uploadHttpFile (session : HttpSession) (contents : List UInt8) : PutResult :=
  if contents.isEmpty then ⟨-1, none⟩
  else if session.connected = false then ⟨-1, none⟩
  else if session.headerSent = false then ⟨-1, none⟩
  else if session.bodySent = false then ⟨-1, none⟩
  else
    let received := recvUntil session.reply httpHeaderSize httpPattern
    if received.ret ≤ 0 then ⟨-1, none⟩
    else ⟨0, parseStatus (received.stored.takeWhile (· ≠ 0))⟩

/-- The return value of `download_http_file`, whether it returns at all, and the files
then. -/
structure GetResult where
  ret : ℤ
  disk : Disk
  returns : Bool

/-- What the transfer loop leaves. What `fclose` cannot write counts as not stored by
`fwrite`, at whose result nobody looks either. -/
def HttpSession.saved (session : HttpSession) (disk : Disk) (file : FileMagnet)
    (received : Received) : GetResult where
  ret := if received.stop = .failed then -1 else 0
  disk := disk.store (pathIn downloadDir file.nameText) received.written
  returns := !(session.silent && received.stop = .failed)

def downloadHttpFile (session : HttpSession) (disk : Disk) (file : FileMagnet) : GetResult :=
  if session.connected = false then ⟨-1, disk, true⟩
  else if session.headerSent = false then ⟨-1, disk, true⟩
  else
    let received := recvUntil session.reply httpHeaderSize httpPattern
    if received.ret ≤ 0 then ⟨-1, disk, true⟩
    else
      let header := received.stored.takeWhile (· ≠ 0)
      if (strstr header (ascii "404 Not Found")).isSome then ⟨-1, disk, true⟩
      else
        match strcasestrPortable header contentLengthName with
        | none => ⟨-1, disk, true⟩
        | some field =>
            -- a number that cannot be read is logged and taken for 0
            let contentLength := (scanContentLength field).getD 0
            if session.ops.dirReady = false then ⟨-1, disk, true⟩
            else if session.ops.opens = false then ⟨-1, disk, true⟩
            else
              session.saved disk file (receiveBody false contentLength [] session.ops.writes
                session.ops.again received.rest)

/-! ### Uploading -/

/-- `create_own_peer`, from the results of `get_own_id` and `get_primary_ip`. -/
def createOwnPeer (own : Option HashID) (primary : Option SockAddrIn) : Peer :=
  match own with
  | none => zeroPeer
  | some ownId => ⟨ownId, primary.getD zeroAddr⟩

/-- What the network makes of an upload: the lookup, the PUT to `out_peers[i]`
and the connection for the STORE to it. -/
structure UploadNetwork where
  lookup : Network
  put : ℕ → Peer → HttpSession
  storeConnects : ℕ → Peer → Bool

def KeyValuePair.addOwner (kv : KeyValuePair) (peer : Peer) : KeyValuePair :=
  { kv with values := writeSlot kv.values kv.numValues peer, numValues := kv.numValues + 1 }

/-- The replication loop over the first `K_VALUE - 1` entries of `out_peers`. -/
def replicate (net : UploadNetwork) (contents : List UInt8) (outPeers : ℕ → Option Peer)
    (kv : KeyValuePair) : KeyValuePair :=
  (List.range (kValue - 1)).foldl (fun kv i =>
    match outPeers i with
    | none => kv
    | some peer =>
        if (uploadHttpFile (net.put i peer) contents).ret ≠ 0 then kv
        else kv.addOwner peer) kv

/-- The return value of `handle_rpc_upload` and the node after it. If the entry
was published, `published` is the entry, `outPeers` what the lookup returned and
`stored` the peers that the STORE was sent to. -/
structure Uploaded where
  ret : ℤ
  node : Node
  outPeers : ℕ → Option Peer
  published : Option KeyValuePair
  stored : List Peer

def storeRequest (kv : KeyValuePair) : Traced Field RPCStore := do
  let serialized ← serializeRpcValue kv ⟨zeroBytes 32, 0, fun _ => zeroRPCPeer⟩
  pure ⟨rpcHeader .store sizeofStore, serialized⟩

/-- `none` when the lookup is not over after `fuel` steps. -/
def handleRpcUpload (own : Option HashID) (primary : Option SockAddrIn) (net : UploadNetwork)
    (disk : Disk) (node : Node) (file : FileMagnet) (fuel : ℕ) :
    Traced Field (Option Uploaded) := do
  let kv := uploadEntry file.fileHash (createOwnPeer own primary)
  let storage := storagePutValue node.storage kv
  let found ← iterativeFindPeers ⟨own, file.fileHash, kValue, false⟩ net.lookup node.buckets
    (fun _ => none) fuel
  match found with
  | none => pure none
  | some found =>
      let node : Node := ⟨storage, found.last.buckets⟩
      if found.ret ≠ 0 then pure (some ⟨-1, node, found.outPeers, none, []⟩)
      else
        match disk (pathIn uploadDir file.nameText) with
        -- "File does not exist at path"
        | none => pure (some ⟨-1, node, found.outPeers, none, []⟩)
        | some contents => do
            let kv := replicate net contents found.outPeers kv
            let _ ← storeRequest kv
            let stored := (List.range kValue).filterMap fun i =>
              (found.outPeers i).filter (net.storeConnects i)
            pure (some ⟨0, node, found.outPeers, some kv, stored⟩)

/-! ### Downloading -/

/-- The return value of a loop over owners, the one that served the file, the
ones a connection was opened to, the files, and whether the last of them let go. -/
structure TriedOwners where
  ret : ℤ
  servedBy : Option Peer
  contacted : List Peer
  disk : Disk
  returns : Bool

/-- Ask one owner after the other. The loop over an entry of our own storage
stops with success at the id `stopAt`. -/
def tryOwners (http : ℕ → Peer → HttpSession) (file : FileMagnet) (stopAt : Option HashID) :
    ℕ → List Peer → Disk → TriedOwners
  | _, [], disk => ⟨-1, none, [], disk, true⟩
  | n, peer :: peers, disk =>
      if stopAt = some peer.peerId then ⟨0, none, [], disk, true⟩
      else
        let got := downloadHttpFile (http n peer) disk file
        if got.ret = 0 then ⟨0, some peer, [peer], got.disk, true⟩
        else if got.returns = false then ⟨-1, none, [peer], got.disk, false⟩
        else
          let tried := tryOwners http file stopAt (n + 1) peers got.disk
          { tried with contacted := peer :: tried.contacted }

/-- What a loop over owners gives when it is over. -/
def TriedOwners.ended (tried : TriedOwners) : Option TriedOwners :=
  if tried.returns then some tried else none

theorem TriedOwners.eq_of_ended {tried tried' : TriedOwners} (h : tried'.ended = some tried) :
    tried' = tried := by
  unfold ended at h
  split at h
  · exact Option.some.inj h
  · cases h

/-- `none` when the lookup is not over after `fuel` steps, or a transfer never is. -/
def handleRpcDownload (own : Option HashID) (lookup : Network)
    (http : ℕ → Peer → HttpSession) (disk : Disk) (node : Node) (file : FileMagnet) (fuel : ℕ) :
    Traced Field (Option TriedOwners) :=
  match own with
  | none => pure (some ⟨-1, none, [], disk, true⟩)
  | some ownId =>
      match storageGetValue node.storage file.fileHash with
      | some kvp =>
          pure (tryOwners http file (some ownId) 0
            ((List.range kvp.numValues).map (readSlot kvp.values zeroPeer)) disk).ended
      | none => do
          let found ← iterativeFindPeers ⟨own, file.fileHash, kValue, true⟩ lookup node.buckets
            (fun _ => none) fuel
          match found with
          | none => pure none
          | some found =>
              if found.ret < 0 then pure (some ⟨-1, none, [], disk, true⟩)
              else pure (tryOwners http file none 0
                ((List.range kValue).filterMap found.outPeers) disk).ended

end Kademlia.Model
