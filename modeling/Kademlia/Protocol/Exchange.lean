import Kademlia.Lookup.InTable
import Kademlia.Protocol.Lookups
import Kademlia.Storage.Indexing

/-!
A request of a lookup and the answer to it, from one node to the other and back.

What the client learns is what the server has: the owners of its entry, or the peers
that it selects from its table.
-/

namespace Kademlia.Protocol

open Foundations Foundations.Source Foundations.Traced Foundations.Worklist Model Framing Buckets
  Lookup

/-- The packet comes over the connection, and what is peeked and the first chunk have enough of
it. -/
structure Arrives (packet : Packet) (peeks : List PeekEvent) (conn : Conn) : Prop where
  rpc : isRpcRequest (recvAllPeek (delivered conn) peeks 4) = true
  whole : sizeofHeader ≤ (firstChunk conn).length
  brings : packet.bytes <+: delivered conn

/-- The session brings the response, and what is peeked and the first chunk have enough of it. -/
structure Replies (session : Session) (r : Response) : Prop where
  rpc : isRpcReply (recvAllPeek (delivered session.conn) session.peeks 4) = true
  whole : sizeofHeader ≤ (firstChunk session.conn).length
  brings : (Packet.response r).bytes <+: delivered session.conn

variable {q : Search} {own : Option HashID} {node : Node} {peeks : List PeekEvent} {conn : Conn}
  {session : Session} {r : Response} {packet : Packet}

/-! ### Requests -/

theorem Arrives.handled (h : Arrives packet peeks conn) (hformed : Formed packet)
    (own : Option HashID) (stack : KeyValuePair) (node : Node) (buf : Memory) :
    (handleConnected own stack node buf peeks conn).val.node =
        (handlePacket own stack node packet).val.node ∧
      (handleConnected own stack node buf peeks conn).val.outcome =
        .dispatched (handlePacket own stack node packet).val.sent := by
  have hstream := handleConnected_stream hformed h.brings peeks own stack node buf
  rw [if_pos ⟨h.rpc, h.whole⟩] at hstream
  rw [hstream]
  exact ⟨rfl, rfl⟩

/-- Only the handler uses arrays that have bounds. -/
theorem Arrives.defined_iff (h : Arrives packet peeks conn) (hformed : Formed packet)
    (own : Option HashID) (stack : KeyValuePair) (node : Node) (buf : Memory) :
    Defined (handleConnected own stack node buf peeks conn) ↔
      Defined (handlePacket own stack node packet) := by
  obtain ⟨hret, hbuf, -⟩ := getStreamRequest_whole hformed.wellFramed h.brings buf 0 h.whole
  have hfetched : Defined (getRpcRequest (.stream conn) buf 0) := getRpcRequest_defined _ _ _
  rw [handleConnected_of_rpc h.rpc, serveRpc, defined_bind, and_iff_right hfetched, getRpcRequest,
    if_pos hret, hbuf, handleRpcRequest_packet hformed, defined_bind]
  exact and_iff_left (defined_pure _)

theorem handlePacket_findNode (hfind : q.findValue = false) (own : Option HashID)
    (stack : KeyValuePair) (node : Node) :
    handlePacket own stack node (.find (findRequest q)) =
      handleFindNode own node (findRequest q) := by
  rw [handlePacket, if_pos (by rw [findRequest, hfind]; rfl)]

theorem handlePacket_findValue (hfind : q.findValue = true) (own : Option HashID)
    (stack : KeyValuePair) (node : Node) :
    handlePacket own stack node (.find (findRequest q)) =
      handleFindValue own node (findRequest q) := by
  have hne : RPCCallType.findValue.code ≠ RPCCallType.findNode.code := by decide
  rw [handlePacket, if_neg (by rw [findRequest, hfind]; exact hne)]

/-! ### Replies -/

theorem Replies.receiveReply (h : Replies session r) (hformed : Formed (.response r)) :
    (receiveReply session).val = some (session.buf.write 0 (Packet.response r).bytes) := by
  obtain ⟨hret, hbuf, -⟩ :=
    getStreamRequest_whole hformed.wellFramed h.brings session.buf 0 h.whole
  rw [Model.receiveReply, if_pos h.rpc, val_bind, getRpcRequest, val_pure, hbuf,
    if_neg (not_not.mpr hret)]

theorem Replies.findNodeAnswer {r : RPCFindNodeResponse} (h : Replies session (.findNode r))
    (hheader : r.header = rpcHeader .findNodeResponse sizeofFindNodeResponse)
    (hcount : r.numClosest ≤ kValue) : findNodeAnswer session = some r := by
  have hformed : Formed (.response (.findNode r)) :=
    ⟨⟨.findNodeResponse, List.mem_singleton_self _, hheader⟩, hcount⟩
  have hcode : (session.buf.write 0 (Packet.response (.findNode r)).bytes).header.callType =
      RPCCallType.findNodeResponse.code := by
    rw [hformed.header_write, packetHeader, hheader]
    rfl
  rw [Lookup.findNodeAnswer, h.receiveReply hformed, Option.bind_eq_bind, Option.bind_some,
    if_pos hcode]
  exact congrArg some (rpcFindNodeResponse_write _ hformed.fits (lt_of_le_kValue hcount))

theorem Replies.findValueAnswer {r : RPCFindValueResponse} (h : Replies session (.findValue r))
    (hheader : r.header = rpcHeader .findValueResponse sizeofFindValueResponse)
    (hvalues : r.values.numValues ≤ kValue) (hcount : r.numClosest ≤ kValue) :
    findValueAnswer session = some r := by
  have hformed : Formed (.response (.findValue r)) :=
    ⟨⟨.findValueResponse, List.mem_singleton_self _, hheader⟩, hvalues, hcount⟩
  have hcode : (session.buf.write 0 (Packet.response (.findValue r)).bytes).header.callType =
      RPCCallType.findValueResponse.code := by
    rw [hformed.header_write, packetHeader, hheader]
    rfl
  rw [Lookup.findValueAnswer, h.receiveReply hformed, Option.bind_eq_bind, Option.bind_some,
    if_pos hcode]
  exact congrArg some (rpcFindValueResponse_write _ hformed.fits (lt_of_le_kValue hvalues)
    (lt_of_le_kValue hcount))

theorem closestSent_findNodeResponse {r : RPCFindNodeResponse} (h : Replies session (.findNode r))
    (hheader : r.header = rpcHeader .findNodeResponse sizeofFindNodeResponse)
    (hcount : r.numClosest ≤ kValue) :
    closestSent false (some session) = listedPeers r.closest r.numClosest := by
  have hanswer : (some session).bind findNodeAnswer = some r := h.findNodeAnswer hheader hcount
  rw [closestSent_findNode (by rw [hanswer]; rintro _ ⟨⟩; exact hcount), hanswer,
    Option.elim_some]

theorem closestSent_findValueResponse {r : RPCFindValueResponse}
    (h : Replies session (.findValue r))
    (hheader : r.header = rpcHeader .findValueResponse sizeofFindValueResponse)
    (hvalues : r.values.numValues ≤ kValue) (hcount : r.numClosest ≤ kValue) :
    closestSent true (some session) = closestOf r := by
  have hanswer : (some session).bind findValueAnswer = some r :=
    h.findValueAnswer hheader hvalues hcount
  rw [closestSent_findValue (by rw [hanswer]; rintro _ ⟨⟩; exact hcount), hanswer,
    Option.elim_some]

theorem Replies.slotsFit (h : Replies session r) (hformed : Formed (.response r))
    (findValue : Bool) : SlotsFit findValue (some session) := by
  have hheader := hformed.header_write session.buf
  have hfits := hformed.fits
  have hcounts := hformed.counts
  cases findValue with
  | false =>
      rw [SlotsFit, if_neg Bool.false_ne_true, Option.bind_some, Lookup.findNodeAnswer,
        h.receiveReply hformed, Option.bind_eq_bind, Option.bind_some, hheader]
      split
      · next hcode =>
          obtain ⟨r', hr'⟩ := exists_of_findNodeResponse (hformed.mem_callTypes hcode)
          obtain rfl := Packet.response.inj hr'
          have hsame := rpcFindNodeResponse_write session.buf hfits (lt_of_le_kValue hcounts)
          rintro answer ⟨⟩
          exact hsame.symm ▸ hcounts
      · rintro _ ⟨⟩
  | true =>
      rw [SlotsFit, if_pos rfl, Option.bind_some, Lookup.findValueAnswer,
        h.receiveReply hformed, Option.bind_eq_bind, Option.bind_some, hheader]
      split
      · next hcode =>
          obtain ⟨r', hr'⟩ := exists_of_findValueResponse (hformed.mem_callTypes hcode)
          obtain rfl := Packet.response.inj hr'
          have hsame := rpcFindValueResponse_write session.buf hfits (lt_of_le_kValue hcounts.1)
            (lt_of_le_kValue hcounts.2)
          rintro answer ⟨⟩
          exact hsame.symm ▸ hcounts
      · rintro _ ⟨⟩

/-! ### Answers -/

/-- A node that has no entry, or is not asked for one, answers with the peers that it selects. -/
theorem answer_closest (hmissing : q.findValue = true → node.storage q.targetKey = none)
    (own : Option HashID) (stack : KeyValuePair) :
    (Defined (handlePacket own stack node (.find (findRequest q))) ↔ InTable own q.targetKey) ∧
      ∃ r, Formed (.response r) ∧
        (handlePacket own stack node (.find (findRequest q))).val.sent = some r ∧
        ∀ session, Replies session r →
          closestSent q.findValue (some session) =
              closestPeers own node.buckets q.targetKey bucketSize ∧
            valueSent q.findValue (some session) = none := by
  cases hfind : q.findValue with
  | false =>
      obtain ⟨r, hval, hheader, hcount, hlisted⟩ :=
        handleFindNode_answer own node (findRequest q)
      rw [handlePacket_findNode hfind, hval]
      refine ⟨Storage.handleFindNode_defined_iff, .findNode r,
        ⟨⟨.findNodeResponse, List.mem_singleton_self _, hheader⟩, hcount⟩, rfl,
        fun session hreplies => ⟨?_, rfl⟩⟩
      rw [closestSent_findNodeResponse hreplies hheader hcount, hlisted]
      rfl
  | true =>
      have hnone := hmissing hfind
      obtain ⟨r, hval, hheader, hkey, hvalues, hcount, hlisted⟩ :=
        handleFindValue_missing (findRequest q) hnone own
      have hvalues' : r.values.numValues ≤ kValue := hvalues ▸ Nat.zero_le _
      have hentry : ∀ kvp, node.storage (findRequest q).key = some kvp → kvp.numValues ≤ kValue :=
        fun kvp hkvp => by cases hnone.symm.trans hkvp
      rw [handlePacket_findValue hfind, Storage.handleFindValue_defined_iff hentry, hval]
      refine ⟨forall_prop_of_true hnone, .findValue r,
        ⟨⟨.findValueResponse, List.mem_singleton_self _, hheader⟩, hvalues', hcount⟩, rfl,
        fun session hreplies => ⟨?_, ?_⟩⟩
      · rw [closestSent_findValueResponse hreplies hheader hvalues' hcount, closestOf,
          if_neg (not_not.mpr hkey), hlisted]
        rfl
      · rw [valueSent, if_pos rfl, Option.bind_some,
          hreplies.findValueAnswer hheader hvalues' hcount, Option.bind_some, valueOf,
          if_neg (not_not.mpr hkey)]

/-- A node that has an entry answers with its owners, and no peers. -/
theorem answer_value (hfind : q.findValue = true) {kv : KeyValuePair}
    (hkv : node.storage q.targetKey = some kv) (hcount : kv.numValues ≤ kValue)
    (own : Option HashID) (stack : KeyValuePair) :
    Defined (handlePacket own stack node (.find (findRequest q))) ∧
      ∃ r, Formed (.response r) ∧
        (handlePacket own stack node (.find (findRequest q))).val.sent = some r ∧
        ∀ session, Replies session r → closestSent q.findValue (some session) = [] ∧
          ∃ values, valueSent q.findValue (some session) = some values ∧
            ∀ maxPeers outPeers, withOwners values maxPeers outPeers =
              fun i => if i < min kv.numValues maxPeers then (Upload.owners kv)[i]?
                else outPeers i := by
  obtain ⟨r, hval, hheader, hkey, hclosest, blank, hvalues⟩ :=
    handleFindValue_found (findRequest q) hkv own
  have hentry : ∀ kvp, node.storage (findRequest q).key = some kvp → kvp.numValues ≤ kValue :=
    fun kvp hkvp => Option.some.inj (hkv.symm.trans hkvp) ▸ hcount
  have hnum : r.values.numValues = kv.numValues := by
    rw [hvalues, serializeRpcValue_numValues]
  have hvalues' : r.values.numValues ≤ kValue := hnum ▸ hcount
  have hclosest' : r.numClosest ≤ kValue := hclosest ▸ Nat.zero_le _
  have hone : r.foundKey ≠ 0 := by rw [hkey]; decide
  rw [handlePacket_findValue hfind, Storage.handleFindValue_defined_iff hentry, hval]
  refine ⟨fun hnone => (by cases hkv.symm.trans hnone), .findValue r,
    ⟨⟨.findValueResponse, List.mem_singleton_self _, hheader⟩, hvalues', hclosest'⟩, rfl,
    fun session hreplies => ?_⟩
  rw [hfind, closestSent_findValueResponse hreplies hheader hvalues' hclosest', valueSent,
    if_pos rfl, Option.bind_some, hreplies.findValueAnswer hheader hvalues' hclosest',
    Option.bind_some, closestOf, valueOf, if_pos hone, if_pos hone]
  refine ⟨rfl, r.values, rfl, fun maxPeers outPeers => ?_⟩
  funext i
  rw [withOwners, hnum]
  split
  · next hi =>
      have hlt : i < kv.numValues := by omega
      rw [hvalues, readSlot_serializeRpcValue kv blank hlt, deserialize_serializeRpcPeer,
        Upload.owners, List.getElem?_map, List.getElem?_range hlt, Option.map_some]
  · rfl

theorem exists_answer
    (hcount : ∀ kv, node.storage q.targetKey = some kv → kv.numValues ≤ kValue)
    (own : Option HashID) (stack : KeyValuePair) :
    (InTable own q.targetKey → Defined (handlePacket own stack node (.find (findRequest q)))) ∧
      ∃ r, Formed (.response r) ∧
        (handlePacket own stack node (.find (findRequest q))).val.sent = some r := by
  by_cases hvalue : ∃ kv, q.findValue = true ∧ node.storage q.targetKey = some kv
  · obtain ⟨kv, hfind, hkv⟩ := hvalue
    obtain ⟨hdefined, r, hformed, hsent, -⟩ :=
      answer_value hfind hkv (hcount kv hkv) own stack
    exact ⟨fun _ => hdefined, r, hformed, hsent⟩
  · have hmissing : q.findValue = true → node.storage q.targetKey = none := fun hfind =>
      Option.eq_none_iff_forall_ne_some.mpr fun kv hkv => hvalue ⟨kv, hfind, hkv⟩
    obtain ⟨hdefined, r, hformed, hsent, -⟩ := answer_closest hmissing own stack
    exact ⟨hdefined.mpr, r, hformed, hsent⟩

/-! ### There and back -/

/-- When no value is sent, the asking lookup has the peers that the node selects pending, in
this order and without those that it had already. -/
theorem exchange_closest (harrives : Arrives (.find (findRequest q)) peeks conn)
    (hmissing : q.findValue = true → node.storage q.targetKey = none)
    (htarget : InTable own q.targetKey)
    (hselected : ∀ p ∈ closestPeers own node.buckets q.targetKey bucketSize,
      InTable q.own p.peerId) (stack : KeyValuePair) (buf : Memory) :
    Defined (handleConnected own stack node buf peeks conn) ∧
      ∃ r, (handleConnected own stack node buf peeks conn).val.outcome = .dispatched (some r) ∧
        ∀ session, Replies session r → ∀ p s, Defined (contactPeer q (some session) p s) ∧
          (contactPeer q (some session) p s).val.pending.data =
            pushAll Peer.peerId s.pending.data
              (closestPeers own node.buckets q.targetKey bucketSize) ∧
          (contactPeer q (some session) p s).val.valueFound = s.valueFound := by
  have hformed := formed_findRequest q
  obtain ⟨hdefined, r, hresponse, hsent, hanswer⟩ := answer_closest hmissing own stack
  refine ⟨(harrives.defined_iff hformed own stack node buf).mpr (hdefined.mpr htarget), r, ?_,
    fun session hreplies p s => ?_⟩
  · rw [(harrives.handled hformed own stack node buf).2, hsent]
  · obtain ⟨hclosest, hvalue⟩ := hanswer session hreplies
    have hcontacted := contactPeer_contacted q (some session) p s
    refine ⟨?_, ?_, ?_⟩
    · rw [contactPeer_defined_iff q (hreplies.slotsFit hresponse _), hclosest]
      exact hselected
    · rw [← hclosest]
      exact hcontacted.heard.pending
    · rw [hcontacted.valueFound, hvalue, Option.isSome_none, Bool.or_false]

/-- When a value is sent, the lookup ends with the owners that the entry lists. -/
theorem exchange_value (harrives : Arrives (.find (findRequest q)) peeks conn)
    (hfind : q.findValue = true) {kv : KeyValuePair} (hkv : node.storage q.targetKey = some kv)
    (hcount : kv.numValues ≤ kValue) (own : Option HashID) (stack : KeyValuePair)
    (buf : Memory) :
    Defined (handleConnected own stack node buf peeks conn) ∧
      ∃ r, (handleConnected own stack node buf peeks conn).val.outcome = .dispatched (some r) ∧
        ∀ session, Replies session r → ∀ p s, Defined (contactPeer q (some session) p s) ∧
          (contactPeer q (some session) p s).val.valueFound = true ∧
          (contactPeer q (some session) p s).val.outPeers =
            (fun i => if i < min kv.numValues q.maxPeers then (Upload.owners kv)[i]?
              else s.outPeers i) ∧
          (contactPeer q (some session) p s).val.pending.data = s.pending.data := by
  have hformed := formed_findRequest q
  obtain ⟨hdefined, r, hresponse, hsent, hanswer⟩ := answer_value hfind hkv hcount own stack
  refine ⟨(harrives.defined_iff hformed own stack node buf).mpr hdefined, r, ?_,
    fun session hreplies p s => ?_⟩
  · rw [(harrives.handled hformed own stack node buf).2, hsent]
  · obtain ⟨hclosest, values, hvalue, howners⟩ := hanswer session hreplies
    have hcontacted := contactPeer_contacted q (some session) p s
    refine ⟨?_, ?_, ?_, ?_⟩
    · rw [contactPeer_defined_iff q (hreplies.slotsFit hresponse _), hclosest]
      exact fun r hr => by cases hr
    · rw [hcontacted.valueFound, hvalue, Option.isSome_some, Bool.or_true]
    · rw [hcontacted.outPeers, hvalue, Option.elim_some, howners]
    · have hpending := hcontacted.heard.pending
      rwa [hclosest, pushAll_nil] at hpending

/-! ### One packet in one chunk -/

def oneChunk (packet : Packet) : Conn := unread packet.bytes []

def replySession (r : Response) : Session where
  peeks := [.ready 3]
  conn := oneChunk (.response r)
  buf := fun _ => 0
  kvp := blankEntry

theorem delivered_oneChunk (packet : Packet) : delivered (oneChunk packet) = packet.bytes := by
  rw [oneChunk, delivered_unread, delivered, List.append_nil]

theorem le_firstChunk_oneChunk (packet : Packet) :
    sizeofHeader ≤ (firstChunk (oneChunk packet)).length := by
  have hlen := length_packet_bytes packet
  have hbound := (packetLength_bounds packet).1
  rw [oneChunk]
  cases hbytes : packet.bytes with
  | nil =>
      rw [hbytes, List.length_nil] at hlen
      have hsize : sizeofHeader = 12 := rfl
      omega
  | cons b bs =>
      rw [hbytes] at hlen
      show sizeofHeader ≤ (b :: bs).length
      omega

theorem Formed.magic {packet : Packet} (h : Formed packet) : rpcMagic.toList <+: packet.bytes := by
  obtain ⟨kind, -, hheader⟩ := h.header
  obtain ⟨before, after, hbytes, hbefore⟩ := liesAt_packetHeader packet
  obtain rfl := List.length_eq_zero_iff.mp hbefore
  rw [hbytes, hheader, RPCMessageHeader.bytes, List.nil_append, List.append_assoc]
  exact List.prefix_append _ _

theorem isRpcReply_of_magic {l : List UInt8} (h : rpcMagic.toList <+: l) :
    isRpcReply (recvAllPeek l [.ready 3] 4) = true := by
  obtain ⟨rest, rfl⟩ := h
  rfl

theorem replies_replySession {r : Response} (h : Formed (.response r)) :
    Replies (replySession r) r := by
  have hdelivered : delivered (replySession r).conn = (Packet.response r).bytes :=
    delivered_oneChunk _
  refine ⟨?_, le_firstChunk_oneChunk (.response r), ?_⟩
  · rw [hdelivered]
    exact isRpcReply_of_magic h.magic
  · rw [hdelivered]

theorem isRpcRequest_of_magic {l : List UInt8} (h : rpcMagic.toList <+: l) :
    isRpcRequest (recvAllPeek l [.ready 3] 4) = true := by
  obtain ⟨rest, rfl⟩ := h
  rfl

theorem arrives_oneChunk (h : Formed packet) : Arrives packet [.ready 3] (oneChunk packet) := by
  refine ⟨?_, le_firstChunk_oneChunk packet, ?_⟩
  · rw [delivered_oneChunk]
    exact isRpcRequest_of_magic h.magic
  · rw [delivered_oneChunk]

def respond (own : Option HashID) (node : Node) (q : Search) : Traced Field Served :=
  handleConnected own blankEntry node (fun _ => 0) [.ready 3] (oneChunk (.find (findRequest q)))

def keyTwo (findValue : Bool) : Search := ⟨some (sparseID 3 0), sparseID 2 0, kValue, findValue⟩

def knowingNode : Node :=
  ⟨Storage.empty, (updateBucketPeers (some (sparseID 1 0)) Buckets.empty zeroPeer).val⟩

def storingNode : Node :=
  ⟨storagePutValue Storage.empty (uploadEntry (sparseID 2 0) zeroPeer), Buckets.empty⟩

theorem exchange_closest_keyTwo :
    ∃ r, (respond (some (sparseID 1 0)) knowingNode (keyTwo false)).val.outcome =
        .dispatched (some r) ∧
      ∀ session, Replies session r → ∀ p s,
        (contactPeer (keyTwo false) (some session) p s).val.pending.data =
          pushAll Peer.peerId s.pending.data [zeroPeer] := by
  have hselected : closestPeers (some (sparseID 1 0)) knowingNode.buckets (sparseID 2 0)
      bucketSize = [zeroPeer] := by decide +kernel
  have htarget : InTable (some (sparseID 1 0)) (keyTwo false).targetKey :=
    inTable_iff.mpr (Or.inr (by decide))
  have hplaced : InTable (keyTwo false).own zeroPeer.peerId :=
    inTable_iff.mpr (Or.inr (by decide))
  have hclosest : ∀ p ∈ closestPeers (some (sparseID 1 0)) knowingNode.buckets
      (keyTwo false).targetKey bucketSize, InTable (keyTwo false).own p.peerId := by
    intro p hp
    rw [keyTwo, hselected] at hp
    exact List.mem_singleton.mp hp ▸ hplaced
  obtain ⟨-, r, hr, hreplies⟩ := exchange_closest (arrives_oneChunk (formed_findRequest _))
    (fun h => by cases h) htarget hclosest blankEntry (fun _ => 0)
  refine ⟨r, hr, fun session hsession p s => ?_⟩
  rw [(hreplies session hsession p s).2.1, keyTwo, hselected]

theorem exchange_value_keyTwo :
    ∃ r, (respond (some (sparseID 1 0)) storingNode (keyTwo true)).val.outcome =
        .dispatched (some r) ∧
      ∀ session, Replies session r → ∀ p s,
        (contactPeer (keyTwo true) (some session) p s).val.valueFound = true ∧
          (contactPeer (keyTwo true) (some session) p s).val.outPeers =
            (fun i => if i < min 1 kValue then
              (Upload.owners (uploadEntry (sparseID 2 0) zeroPeer))[i]? else s.outPeers i) := by
  have hkv : storingNode.storage (keyTwo true).targetKey =
      some (uploadEntry (sparseID 2 0) zeroPeer) := by
    rw [storingNode, storagePutValue_of_none rfl]
    exact Function.update_self (sparseID 2 0) _ Storage.empty
  obtain ⟨-, r, hr, hreplies⟩ := exchange_value (arrives_oneChunk (formed_findRequest _)) rfl hkv
    (by decide) (some (sparseID 1 0)) blankEntry (fun _ => 0)
  refine ⟨r, hr, fun session hsession p s => ?_⟩
  obtain ⟨-, hfound, howners, -⟩ := hreplies session hsession p s
  exact ⟨hfound, howners⟩

end Kademlia.Protocol
