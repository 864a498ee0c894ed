import Kademlia.Framing.Segmentation
import Kademlia.Lookup.Uniqueness

/-!
Networks of peers that send their whole reply in one piece, and the tables and
replies that the examples of lookups use.
-/

namespace Kademlia.Lookup

open Foundations Foundations.Traced Foundations.Worklist Model Buckets

/-- An RPC packet, of which `rest` is what follows its first byte. -/
structure Whole where
  rest : List UInt8
  framed : Framing.WellFramed (75 :: rest)
  magic : rpcMagic.toList <+: 75 :: rest

namespace Whole

def buf (reply : Whole) : Memory := Memory.write (fun _ => 0) 0 (75 :: reply.rest)

def session (reply : Whole) : Session where
  peeks := [.ready 3]
  conn := [.chunk 75 reply.rest]
  buf := fun _ => 0
  kvp := ⟨zeroBytes 32, 0, fun _ => zeroPeer⟩

theorem receiveReply_session (reply : Whole) :
    (receiveReply reply.session).val = some reply.buf := by
  have hdelivered : Source.delivered reply.session.conn = 75 :: reply.rest := by simp [session]
  have hwhole : sizeofHeader ≤ (Source.firstChunk reply.session.conn).length :=
    reply.framed.header_le
  obtain ⟨hret, hbuf, -⟩ := Framing.getStreamRequest_whole reply.framed
    (hdelivered ▸ List.prefix_refl _) reply.session.buf 0 hwhole
  have hpeek : isRpcReply (recvAllPeek (Source.delivered reply.session.conn)
      reply.session.peeks 4) = true := by
    obtain ⟨rest, hrest⟩ := reply.magic
    rw [hdelivered, ← hrest]
    rfl
  simp only [receiveReply, hpeek, if_true, getRpcRequest, val_bind, hret, hbuf]
  rfl

end Whole

/-- The peers at the addresses that have a reply answer with it. -/
def answering (replies : SockAddrIn → Option Whole) : Network :=
  fun _ p => (replies p.peerAddr).map Whole.session

/-! ### Fixed networks -/

/-- A FIND_VALUE_RESPONSE whose counts stay within its arrays. -/
structure Answer extends RPCFindValueResponse where
  numValues_le : values.numValues ≤ kValue
  numClosest_le : numClosest ≤ kValue

/-- The network always answers as `answers` says, or not at all. -/
def IsFixed (net : Network) (answers : SockAddrIn → Option Answer) : Prop :=
  ∀ n p, (net n p).bind findValueAnswer =
    (answers p.peerAddr).map Answer.toRPCFindValueResponse

structure FoundValue extends Whole where
  typed : toWhole.buf.header.callType = RPCCallType.findValueResponse.code
  values_le : toWhole.buf.rpcFindValueResponse.values.numValues ≤ kValue
  closest_le : toWhole.buf.rpcFindValueResponse.numClosest ≤ kValue

def FoundValue.answer (reply : FoundValue) : Answer where
  toRPCFindValueResponse := reply.buf.rpcFindValueResponse
  numValues_le := reply.values_le
  numClosest_le := reply.closest_le

theorem isFixed_answering (replies : SockAddrIn → Option FoundValue) :
    IsFixed (answering fun addr => (replies addr).map FoundValue.toWhole)
      fun addr => (replies addr).map FoundValue.answer := by
  intro n p
  cases hreply : replies p.peerAddr with
  | none => simp [answering, hreply]
  | some reply =>
      simp [answering, hreply, findValueAnswer, reply.receiveReply_session, reply.typed,
        FoundValue.answer]

/-! ### Replies -/

/-- The address with a port below 256 and zeros besides. -/
def portAddr (port : UInt8) : SockAddrIn := { zeroAddr with sinPort := ⟨[0, port], rfl⟩ }

/-- A closest list of one peer: its id begins with `first` and `second`, and its
port is `port`. -/
def oneClosest (first second port : UInt8) : List UInt8 :=
  [1, 0, 0, 0, 0, 0, 0, 0] ++ [first, second] ++ List.replicate 33 0 ++ [port] ++
    List.replicate 284 0

def listing (first second port : UInt8) : List UInt8 :=
  [68, 77, 84, 190, 2, 0, 0, 128, 0, 0, 0, 1, 0] ++ List.replicate 360 0 ++
    oneClosest first second port

def owning : List UInt8 :=
  [68, 77, 84, 190, 2, 0, 0, 128, 0, 0, 0, 1, 1] ++ List.replicate 32 0 ++
    [1, 0, 0, 0, 0, 0, 0, 0, 7] ++ List.replicate 647 0

/-- The reply is one of a peer that lists a peer with first bit 1 or 8. -/
def listingReply (near : Bool) : FoundValue where
  rest := if near then listing 64 0 1 else listing 0 128 1
  framed := by cases near <;> exact ⟨by decide +kernel, by decide +kernel, by decide +kernel⟩
  magic := by cases near <;> decide +kernel
  typed := by cases near <;> decide +kernel
  values_le := by cases near <;> decide +kernel
  closest_le := by cases near <;> decide +kernel

def owningReply : FoundValue where
  rest := owning
  framed := ⟨by decide +kernel, by decide +kernel, by decide +kernel⟩
  magic := by decide +kernel
  typed := by decide +kernel
  values_le := by decide +kernel
  closest_le := by decide +kernel

/-- The peers at the zero address list a peer at port 1, which has the value. -/
def pathReplies (near : Bool) (addr : SockAddrIn) : Option FoundValue :=
  if addr = zeroAddr then some (listingReply near)
  else if addr = portAddr 1 then some owningReply
  else none

/-! ### FIND_NODE -/

/-- A FIND_NODE_RESPONSE of a peer that lists a peer with first bit 1 or 8. -/
def nodeReply (near : Bool) : Whole where
  rest := [68, 77, 84, 86, 1, 0, 0, 64, 0, 0, 0, 1, 0] ++
    if near then oneClosest 64 0 1 else oneClosest 0 128 1
  framed := by cases near <;> exact ⟨by decide +kernel, by decide +kernel, by decide +kernel⟩
  magic := by cases near <;> decide +kernel

/-- Only the peers at the zero address answer. -/
def nodeReplies (near : Bool) (addr : SockAddrIn) : Option Whole :=
  if addr = zeroAddr then some (nodeReply near) else none

theorem findNodeAnswer_nodeReply (near : Bool) :
    findNodeAnswer (nodeReply near).session = some (nodeReply near).buf.rpcFindNodeResponse := by
  have htype : (nodeReply near).buf.header.callType = RPCCallType.findNodeResponse.code := by
    cases near <;> decide +kernel
  simp [findNodeAnswer, (nodeReply near).receiveReply_session, htype]

theorem numClosest_nodeReplies (near : Bool) (n : ℕ) (p : Peer) :
    ∀ answer ∈ (answering (nodeReplies near) n p).bind findNodeAnswer,
      answer.numClosest ≤ kValue := by
  rw [answering, nodeReplies]
  split
  · rw [Option.map_some, Option.bind_some, findNodeAnswer_nodeReply]
    simp only [Option.mem_some_iff, forall_eq']
    cases near <;> decide +kernel
  · simp

theorem expand_nodeReplies (near : Bool) (own : Option HashID) (key : HashID) (maxPeers n : ℕ)
    (p : Peer) :
    expand ⟨own, key, maxPeers, false⟩ (answering (nodeReplies near)) n p =
      if p.peerAddr = zeroAddr then
        [if near then ⟨⟨64 :: List.replicate 31 0, by decide⟩, portAddr 1⟩
        else ⟨⟨0 :: 128 :: List.replicate 30 0, by decide⟩, portAddr 1⟩]
      else [] := by
  rw [expand, closestSent_findNode (numClosest_nodeReplies near n p), answering, nodeReplies]
  split
  · rw [Option.map_some, Option.bind_some, findNodeAnswer_nodeReply, Option.elim_some]
    cases near <;> decide +kernel
  · rfl

end Kademlia.Lookup
