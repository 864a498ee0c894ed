import Kademlia.Foundations.Machine
import Kademlia.Model.Digest

/-!
`get_primary_ip`, `get_own_id` and `create_own_peer` of `shared.c`.

The first two keep what they found out in static variables. What the calls to the system
give is a parameter, and so are the functions of OpenSSL; a digest that fails leaves the
id as it is. All callers pass a cleared buffer of `INET_ADDRSTRLEN` bytes for the text.
-/

namespace Kademlia.Model

open Foundations CString

def inetAddrstrlen : ℕ := 16

/-- What `socket`, `connect` and `getsockname` give. -/
structure PrimaryQuery where
  socket : Bool
  connect : Bool
  sockname : Option SockAddrIn

/-- The static variables of `get_primary_ip` and `get_own_id`. -/
structure IdentityCache where
  cachedIp : List UInt8
  cachedAddr : SockAddrIn
  ipCached : Bool
  ownId : HashID
  idCached : Bool

def IdentityCache.initial : IdentityCache := ⟨[], zeroAddr, false, zeroBytes 32, false⟩

/-- The return value is 0 if there is a text and an address, and -1 if not. -/
structure PrimaryIp where
  found : Option (List UInt8 × SockAddrIn)
  cache : IdentityCache

def getPrimaryIp (query : PrimaryQuery) (cache : IdentityCache) : PrimaryIp :=
  if cache.ipCached then
    ⟨some (cache.cachedIp.take (inetAddrstrlen - 1), cache.cachedAddr), cache⟩
  else if query.socket = false then ⟨none, cache⟩
  else if query.connect = false then ⟨none, cache⟩
  else
    match query.sockname with
    | none => ⟨none, cache⟩
    | some name =>
        let ip := inetNtop name.sinAddr
        -- `inet_ntop` fails when the text and its NUL do not fit
        if inetAddrstrlen ≤ ip.length then ⟨none, cache⟩
        else
          ⟨some (ip, name),
            { cache with
              cachedIp := ip.take (inetAddrstrlen - 1), cachedAddr := name, ipCached := true }⟩

/-- What `sha256_buf` stores; `none` when it returns -1. -/
def sha256Buf {ctx : Type} (evp : Evp ctx) (inBuf : List UInt8) : Option HashID := do
  let state ← evp.digestInit
  let state ← evp.digestUpdate state inBuf
  evp.digestFinal state

/-- `get_own_id`; the id is `none` when it returns -1. -/
def getOwnId {ctx : Type} (evp : Evp ctx) (query : PrimaryQuery) (cache : IdentityCache) :
    Option HashID × IdentityCache :=
  if cache.idCached then (some cache.ownId, cache)
  else
    let primary := getPrimaryIp query cache
    match primary.found with
    | none => (none, primary.cache)
    | some (ip, _) =>
        -- the return value of `sha256_buf` is not looked at
        let ownId := (sha256Buf evp ip).getD primary.cache.ownId
        (some ownId, { primary.cache with ownId := ownId, idCached := true })

/-- `create_own_peer`: the return value and what is left in `out_peer`. The two queries are those
of its two calls of `get_primary_ip`. -/
structure OwnPeer where
  ret : ℤ
  outPeer : Peer
  cache : IdentityCache

def createOwnPeerFrom {ctx : Type} (evp : Evp ctx) (idQuery addrQuery : PrimaryQuery)
    (cache : IdentityCache) : OwnPeer :=
  let own := getOwnId evp idQuery cache
  match own.1 with
  | none => ⟨-1, zeroPeer, own.2⟩
  | some ownId =>
      let primary := getPrimaryIp addrQuery own.2
      match primary.found with
      | none => ⟨-1, ⟨ownId, zeroAddr⟩, primary.cache⟩
      | some (_, addr) => ⟨0, ⟨ownId, addr⟩, primary.cache⟩

/-! ### Runs -/

inductive IdentityCall (ctx : Type)
  | primaryIp (query : PrimaryQuery)
  | ownId (evp : Evp ctx) (query : PrimaryQuery)
  | ownPeer (evp : Evp ctx) (idQuery addrQuery : PrimaryQuery)

inductive IdentityAnswer
  | primaryIp (found : Option (List UInt8 × SockAddrIn))
  | ownId (id : Option HashID)
  | ownPeer (ret : ℤ) (peer : Peer)

def callIdentity {ctx : Type} : Machine IdentityCache (IdentityCall ctx) IdentityAnswer
  | cache, .primaryIp query =>
      (.primaryIp (getPrimaryIp query cache).found, (getPrimaryIp query cache).cache)
  | cache, .ownId evp query =>
      (.ownId (getOwnId evp query cache).1, (getOwnId evp query cache).2)
  | cache, .ownPeer evp idQuery addrQuery =>
      let own := createOwnPeerFrom evp idQuery addrQuery cache
      (.ownPeer own.ret own.outPeer, own.cache)

end Kademlia.Model
