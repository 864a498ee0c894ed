import Kademlia.Foundations.Layout
import Kademlia.Model.Transfer

/-!
The packets that a node sends, as the bytes that `send_all` and `sendto` are
given: the fields of the packed structs one behind the other, integers little
endian.
-/

namespace Kademlia.Model

open Foundations Foundations.Traced

def leBytes : ℕ → ℕ → List UInt8
  | 0, _ => []
  | width + 1, n => UInt8.ofNat n :: leBytes width (n / 256)

def SockAddrIn.bytes (addr : SockAddrIn) : List UInt8 :=
  addr.sinFamily.toList ++ (addr.sinPort.toList ++ (addr.sinAddr.toList ++ addr.sinZero.toList))

def RPCPeer.bytes (peer : RPCPeer) : List UInt8 :=
  peer.peerId.toList ++ (peer.peerAddr.bytes ++ peer.peerKey.toList)

def peersBytes (peers : Fin kValue → RPCPeer) : List UInt8 :=
  (List.ofFn peers).flatMap RPCPeer.bytes

def RPCKeyValue.bytes (value : RPCKeyValue) : List UInt8 :=
  value.key.toList ++ (leBytes 8 value.numValues ++ peersBytes value.values)

def RPCMessageHeader.bytes (header : RPCMessageHeader) : List UInt8 :=
  header.magicNumber.toList ++
    (leBytes 4 (header.packetSize % 2 ^ 32).toNat ++ leBytes 4 header.callType)

def RPCBroadcast.bytes (packet : RPCBroadcast) : List UInt8 :=
  packet.header.bytes ++ packet.peer.bytes

def RPCStore.bytes (packet : RPCStore) : List UInt8 :=
  packet.header.bytes ++ packet.keyValue.bytes

def RPCFind.bytes (packet : RPCFind) : List UInt8 := packet.header.bytes ++ packet.key.toList

def RPCResponse.bytes (packet : RPCResponse) : List UInt8 :=
  packet.header.bytes ++ [packet.success]

def RPCFindValueResponse.bytes (packet : RPCFindValueResponse) : List UInt8 :=
  packet.header.bytes ++ ([packet.success] ++ ([packet.foundKey] ++ (packet.values.bytes ++
    (leBytes 8 packet.numClosest ++ peersBytes packet.closest))))

def RPCFindNodeResponse.bytes (packet : RPCFindNodeResponse) : List UInt8 :=
  packet.header.bytes ++ ([packet.success] ++ ([packet.foundKey] ++
    (leBytes 8 packet.numClosest ++ peersBytes packet.closest)))

/-- What goes from one node to another. -/
inductive Packet
  | broadcast (packet : RPCBroadcast)
  | store (packet : RPCStore)
  | find (packet : RPCFind)
  | response (response : Response)

def Packet.bytes : Packet → List UInt8
  | .broadcast packet => packet.bytes
  | .store packet => packet.bytes
  | .find packet => packet.bytes
  | .response (.plain packet) => packet.bytes
  | .response (.findNode packet) => packet.bytes
  | .response (.findValue packet) => packet.bytes

/-- `req` of `iterative_find_peers` -/
def findRequest (q : Search) : RPCFind where
  header := rpcHeader (if q.findValue then .findValue else .findNode) sizeofFind
  key := q.targetKey

/-- `request` of `broadcast_discovery_request`; nothing is sent when `create_own_peer` fails. -/
def broadcastDiscoveryRequest (own : Option HashID) (primary : Option SockAddrIn) :
    Option RPCBroadcast :=
  if own.isNone ∨ primary.isNone then none
  else
    let peer := createOwnPeer own primary
    some
      { header := rpcHeader .broadcast sizeofBroadcast
        peer := serializeRpcPeer
          { peer with peerAddr := { peer.peerAddr with sinPort := serverPort } } }

end Kademlia.Model
