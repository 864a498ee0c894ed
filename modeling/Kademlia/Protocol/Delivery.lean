import Kademlia.Framing.Packets
import Kademlia.Framing.Peek
import Kademlia.Lookup.Contact
import Kademlia.Model.Protocol

/-!
What becomes of a packet that arrives.

The bytes of a packet are handled as the struct that was sent, whatever was in the
receive buffer, or they are dropped because the first chunk does not have the whole
header.
-/

namespace Kademlia.Protocol

open Foundations Foundations.Source Foundations.Traced Model Framing

/-! ### Packets as they are sent -/

def packetHeader : Packet → RPCMessageHeader
  | .broadcast packet => packet.header
  | .store packet => packet.header
  | .find packet => packet.header
  | .response (.plain packet) => packet.header
  | .response (.findNode packet) => packet.header
  | .response (.findValue packet) => packet.header

def packetLength : Packet → ℕ
  | .broadcast _ => sizeofBroadcast
  | .store _ => sizeofStore
  | .find _ => sizeofFind
  | .response (.plain _) => sizeofResponse
  | .response (.findNode _) => sizeofFindNodeResponse
  | .response (.findValue _) => sizeofFindValueResponse

/-- The call types under which a packet is sent. -/
def callTypes : Packet → List RPCCallType
  | .broadcast _ => [.broadcast]
  | .store _ => [.store]
  | .find _ => [.findNode, .findValue]
  | .response (.plain _) => [.pingResponse, .storeResponse]
  | .response (.findNode _) => [.findNodeResponse]
  | .response (.findValue _) => [.findValueResponse]

/-- No count is larger than its array. -/
def CountsFit : Packet → Prop
  | .store packet => packet.keyValue.numValues ≤ kValue
  | .response (.findNode packet) => packet.numClosest ≤ kValue
  | .response (.findValue packet) =>
      packet.values.numValues ≤ kValue ∧ packet.numClosest ≤ kValue
  | _ => True

/-- A packet as the program fills it. -/
structure Formed (packet : Packet) : Prop where
  header : ∃ kind ∈ callTypes packet, packetHeader packet = rpcHeader kind (packetLength packet)
  counts : CountsFit packet

variable {packet : Packet} {m : Memory}

theorem length_packet_bytes (packet : Packet) : packet.bytes.length = packetLength packet := by
  rcases packet with packet | packet | packet | packet | packet | packet <;>
    simp [Packet.bytes, packetLength, RPCBroadcast.bytes, RPCStore.bytes, RPCFind.bytes,
      RPCResponse.bytes, RPCFindNodeResponse.bytes, RPCFindValueResponse.bytes, sizeofBroadcast,
      sizeofStore, sizeofFind, sizeofResponse, sizeofFindNodeResponse, sizeofFindValueResponse,
      sizeofHeader, sizeofKeyValue, sizeofPeer, kValue]

theorem liesAt_packetHeader (packet : Packet) :
    LiesAt packet.bytes 0 (packetHeader packet).bytes := by
  rcases packet with packet | packet | packet | packet | packet | packet <;>
    exact (liesAt_self _).left

theorem packetLength_bounds (packet : Packet) :
    sizeofHeader ≤ packetLength packet ∧ packetLength packet ≤ maxRpcPacketSize := by
  rcases packet with packet | packet | packet | packet | packet | packet <;>
  · rw [packetLength]
    decide

theorem lt_of_le_kValue {n : ℕ} (h : n ≤ kValue) : n < 2 ^ 64 := h.trans_lt (by decide)

theorem code_lt (kind : RPCCallType) : kind.code < 2 ^ 32 := by cases kind <;> decide

theorem Formed.fits (h : Formed packet) : HeaderFits (packetHeader packet) := by
  obtain ⟨kind, -, hheader⟩ := h.header
  have hmax : maxRpcPacketSize < 2 ^ 31 := by decide
  obtain ⟨-, hle⟩ := packetLength_bounds packet
  rw [hheader]
  refine ⟨?_, ?_, code_lt kind⟩
  · show (-2 ^ 31 : ℤ) ≤ (packetLength packet : ℕ)
    omega
  · show ((packetLength packet : ℕ) : ℤ) < 2 ^ 31
    omega

theorem Formed.header_write (h : Formed packet) (m : Memory) :
    (m.write 0 packet.bytes).header = packetHeader packet :=
  Framing.header_write m (liesAt_packetHeader packet) h.fits

theorem Formed.wellFramed (h : Formed packet) : WellFramed packet.bytes := by
  obtain ⟨hlow, hhigh⟩ := packetLength_bounds packet
  obtain ⟨kind, -, hheader⟩ := h.header
  have hlen := length_packet_bytes packet
  have hsize : sizeofHeader = 12 := rfl
  refine ⟨?_, by omega, by omega⟩
  rw [← packetSize_write (by omega) (fun _ => 0), h.header_write, hheader, hlen]
  rfl

/-! ### Requests -/

theorem formed_findRequest (q : Search) : Formed (.find (findRequest q)) := by
  refine ⟨⟨if q.findValue then .findValue else .findNode, ?_, rfl⟩, trivial⟩
  cases q.findValue <;> simp [callTypes]

def handlePacket (own : Option HashID) (stack : KeyValuePair) (node : Node) :
    Packet → Traced Field Handled
  | .broadcast packet => handleBroadcast own node packet
  | .store packet => handleStore stack node packet
  | .find packet =>
      if packet.header.callType = RPCCallType.findNode.code then handleFindNode own node packet
      else handleFindValue own node packet
  | .response _ => pure ⟨node, none⟩

theorem expectedSize_lt (kind : RPCCallType) : expectedSize kind < 2 ^ 64 := by
  cases kind <;> decide

theorem passesSizeCheck_eq {kind : RPCCallType} {size : ℕ} (h : m.header = rpcHeader kind size)
    (hsize : size < 2 ^ 64) :
    passesSizeCheck m = if size ≠ expectedSize kind then none else some kind := by
  have hcode : RPCCallType.ofCode m.header.callType = some kind := by
    rw [h]
    exact RPCCallType.ofCode_code kind
  have hclaimed : toSizeT m.header.packetSize = size := by
    rw [h]
    show toSizeT (size : ℤ) = size
    rw [toSizeT_of_nonneg (by omega) (by omega), Int.toNat_natCast]
  rw [passesSizeCheck, hcode]
  dsimp only
  rw [hclaimed]

theorem passesSizeCheck_request {kind : RPCCallType}
    (h : m.header = rpcHeader kind (expectedSize kind)) : passesSizeCheck m = some kind := by
  rw [passesSizeCheck_eq h (expectedSize_lt kind), if_neg (not_not.mpr rfl)]

/-- No response has the size that is expected of one, 0. -/
theorem passesSizeCheck_response {kind : RPCCallType} {size : ℕ}
    (h : m.header = rpcHeader kind size) (hkind : expectedSize kind = 0) (hpos : 0 < size)
    (hsize : size < 2 ^ 64) : passesSizeCheck m = none := by
  rw [passesSizeCheck_eq h hsize, if_pos (by omega)]

theorem handleRpcRequest_of_none (h : passesSizeCheck m = none) (own : Option HashID)
    (stack : KeyValuePair) (node : Node) :
    handleRpcRequest own stack node m = pure ⟨node, none⟩ := by
  rw [handleRpcRequest, h]

theorem handleRpcRequest_packet (h : Formed packet) (own : Option HashID) (stack : KeyValuePair)
    (node : Node) (m : Memory) :
    handleRpcRequest own stack node (m.write 0 packet.bytes) =
      handlePacket own stack node packet := by
  obtain ⟨kind, hkind, hheader⟩ := h.header
  have hread := (h.header_write m).trans hheader
  have hfits := h.fits
  have hcounts := h.counts
  rcases packet with packet | packet | packet | packet | packet | packet
  · obtain rfl : kind = .broadcast := by simpa [callTypes] using hkind
    have hsame : (m.write 0 (Packet.broadcast packet).bytes).rpcBroadcast = packet :=
      rpcBroadcast_write m hfits
    rw [handleRpcRequest, passesSizeCheck_request hread]
    dsimp only
    rw [hsame, handlePacket]
  · obtain rfl : kind = .store := by simpa [callTypes] using hkind
    have hsame : (m.write 0 (Packet.store packet).bytes).rpcStore = packet :=
      rpcStore_write m hfits (lt_of_le_kValue hcounts)
    rw [handleRpcRequest, passesSizeCheck_request hread]
    dsimp only
    rw [hsame, handlePacket]
  · have hsame : (m.write 0 (Packet.find packet).bytes).rpcFind = packet := rpcFind_write m hfits
    have hcode : packet.header.callType = kind.code := congrArg RPCMessageHeader.callType hheader
    have hkinds : kind = .findNode ∨ kind = .findValue := by simpa [callTypes] using hkind
    rcases hkinds with rfl | rfl
    · rw [handleRpcRequest, passesSizeCheck_request hread]
      dsimp only
      rw [hsame, handlePacket, if_pos hcode]
    · rw [handleRpcRequest, passesSizeCheck_request hread]
      dsimp only
      rw [hsame, handlePacket, if_neg (by rw [hcode]; decide)]
  · have hkinds : kind = .pingResponse ∨ kind = .storeResponse := by
      simpa [callTypes] using hkind
    have hzero : expectedSize kind = 0 := by rcases hkinds with rfl | rfl <;> rfl
    have hsize : 0 < sizeofResponse ∧ sizeofResponse < 2 ^ 64 := by decide
    exact handleRpcRequest_of_none (passesSizeCheck_response hread hzero hsize.1 hsize.2) _ _ _
  · obtain rfl : kind = .findNodeResponse := by simpa [callTypes] using hkind
    have hsize : 0 < sizeofFindNodeResponse ∧ sizeofFindNodeResponse < 2 ^ 64 := by decide
    exact handleRpcRequest_of_none (passesSizeCheck_response hread rfl hsize.1 hsize.2) _ _ _
  · obtain rfl : kind = .findValueResponse := by simpa [callTypes] using hkind
    have hsize : 0 < sizeofFindValueResponse ∧ sizeofFindValueResponse < 2 ^ 64 := by decide
    exact handleRpcRequest_of_none (passesSizeCheck_response hread rfl hsize.1 hsize.2) _ _ _

/-! ### Delivery -/

theorem serveRpc_whole (h : Formed packet) {conn : Conn} (hconn : packet.bytes <+: delivered conn)
    (hwhole : sizeofHeader ≤ (firstChunk conn).length) (own : Option HashID)
    (stack : KeyValuePair) (node : Node) (buf : Memory) :
    (serveRpc own stack node buf (.stream conn)).val =
      ⟨(handlePacket own stack node packet).val.node, buf.write 0 packet.bytes,
        .stream (skip packet.bytes.length conn),
        .dispatched (handlePacket own stack node packet).val.sent⟩ := by
  obtain ⟨hret, hbuf, hsock⟩ := getStreamRequest_whole h.wellFramed hconn buf 0 hwhole
  rw [serveRpc, val_bind, getRpcRequest, if_pos hret, val_bind, hbuf, hsock,
    handleRpcRequest_packet h]
  rfl

theorem serveRpc_split (h : Formed packet) {conn : Conn} (hconn : packet.bytes <+: delivered conn)
    (hsplit : (firstChunk conn).length < sizeofHeader) (own : Option HashID)
    (stack : KeyValuePair) (node : Node) (buf : Memory) :
    (serveRpc own stack node buf (.stream conn)).val.node = node ∧
      (serveRpc own stack node buf (.stream conn)).val.outcome = .discarded := by
  have hret := getStreamRequest_split h.wellFramed hconn buf 0 hsplit
  rw [serveRpc, val_bind, getRpcRequest, if_neg (by rw [hret]; decide)]
  exact ⟨rfl, rfl⟩

/-- A packet on a connection is handled if the peek sees its magic and one chunk has its whole
header; if not, nothing comes of it. -/
theorem handleConnected_stream (h : Formed packet) {conn : Conn}
    (hconn : packet.bytes <+: delivered conn) (peeks : List PeekEvent) (own : Option HashID)
    (stack : KeyValuePair) (node : Node) (buf : Memory) :
    if isRpcRequest (recvAllPeek (delivered conn) peeks 4) = true ∧
        sizeofHeader ≤ (firstChunk conn).length then
      (handleConnected own stack node buf peeks conn).val =
        ⟨(handlePacket own stack node packet).val.node, buf.write 0 packet.bytes,
          .stream (skip packet.bytes.length conn),
          .dispatched (handlePacket own stack node packet).val.sent⟩
    else
      (handleConnected own stack node buf peeks conn).val.node = node ∧
        (handleConnected own stack node buf peeks conn).val.outcome.sent = [] := by
  by_cases hpeek : isRpcRequest (recvAllPeek (delivered conn) peeks 4) = true
  · rw [handleConnected_of_rpc hpeek]
    split
    · next hboth => exact serveRpc_whole h hconn hboth.2 own stack node buf
    · next hnot =>
        obtain ⟨hnode, hdiscarded⟩ := serveRpc_split h hconn
          (not_le.mp fun hwhole => hnot ⟨hpeek, hwhole⟩) own stack node buf
        rw [hdiscarded]
        exact ⟨hnode, rfl⟩
  · rw [if_neg fun hboth => hpeek hboth.1]
    rcases handleConnected_other hpeek own stack node buf with hother | hother <;> rw [hother] <;>
      exact ⟨rfl, rfl⟩

/-- What an uninitialised entry may have in it. -/
def blankEntry : KeyValuePair := ⟨zeroBytes 32, 0, fun _ => zeroPeer⟩

theorem handleConnected_stream_find :
    let packet := Packet.find (findRequest ⟨none, zeroBytes 32, kValue, false⟩)
    let conn := unread packet.bytes [.failure]
    if isRpcRequest (recvAllPeek (delivered conn) [.interrupt, .ready 3] 4) = true ∧
        sizeofHeader ≤ (firstChunk conn).length then
      (handleConnected none blankEntry Node.initial (fun _ => 0) [.interrupt, .ready 3] conn).val =
        ⟨(handlePacket none blankEntry Node.initial packet).val.node,
          Memory.write (fun _ => 0) 0 packet.bytes, .stream (skip packet.bytes.length conn),
          .dispatched (handlePacket none blankEntry Node.initial packet).val.sent⟩
    else
      (handleConnected none blankEntry Node.initial (fun _ => 0) [.interrupt, .ready 3]
          conn).val.node = Node.initial ∧
        (handleConnected none blankEntry Node.initial (fun _ => 0) [.interrupt, .ready 3]
          conn).val.outcome.sent = [] :=
  handleConnected_stream (formed_findRequest ⟨none, zeroBytes 32, kValue, false⟩) (by decide)
    _ _ _ _ _

theorem getDatagramRequest_packet (h : Formed packet) (rest : List (List UInt8)) (buf : Memory) :
    (getDatagramRequest (packet.bytes :: rest) buf 0).val.ret = 0 ∧
      (getDatagramRequest (packet.bytes :: rest) buf 0).val.buf = buf.write 0 packet.bytes ∧
      (getDatagramRequest (packet.bytes :: rest) buf 0).val.sock = .dgram rest := by
  have hlen := length_packet_bytes packet
  obtain ⟨hlow, hhigh⟩ := packetLength_bounds packet
  have hpos : 0 < sizeofHeader := by decide
  have hmax : maxRpcPacketSize < 2 ^ 64 := by decide
  have htake : packet.bytes.take maxRpcPacketSize = packet.bytes :=
    List.take_of_length_le (by omega)
  obtain ⟨kind, -, hheader⟩ := h.header
  have hsize : (buf.write 0 packet.bytes).header.packetSize = packet.bytes.length := by
    rw [h.header_write, hheader, hlen]
    rfl
  have hfits : ¬ (toSizeT (packet.bytes.length : ℤ) > maxRpcPacketSize ∨
      (packet.bytes.length : ℤ) ≠ packet.bytes.length) := by
    rw [toSizeT_of_nonneg (by omega) (by omega)]
    omega
  rw [getDatagramRequest, htake, if_neg (show ¬ packet.bytes.length = 0 by omega)]
  simp only [val_bind, hsize, hfits, if_false, val_pure, and_self]

theorem serveRpc_dgram (h : Formed packet) (rest : List (List UInt8)) (own : Option HashID)
    (stack : KeyValuePair) (node : Node) (buf : Memory) :
    (serveRpc own stack node buf (.dgram (packet.bytes :: rest))).val =
      ⟨(handlePacket own stack node packet).val.node, buf.write 0 packet.bytes, .dgram rest,
        .dispatched (handlePacket own stack node packet).val.sent⟩ := by
  obtain ⟨hret, hbuf, hsock⟩ := getDatagramRequest_packet h rest buf
  rw [serveRpc, val_bind, getRpcRequest, if_pos hret, val_bind, hbuf, hsock,
    handleRpcRequest_packet h]
  rfl

/-- A node does with what comes over a connection what it does with a packet in flight, or
nothing. -/
theorem handleConnected_cases {flight : List Packet} (hformed : ∀ packet ∈ flight, Formed packet)
    {conn : Conn} (hconn : Admits flight conn) (peeks : List PeekEvent) (own : Option HashID)
    (stack : KeyValuePair) (node : Node) (buf : Memory) :
    ((handleConnected own stack node buf peeks conn).val.node = node ∧
        (handleConnected own stack node buf peeks conn).val.outcome.sent = []) ∨
      ∃ packet ∈ flight, (handleConnected own stack node buf peeks conn).val.node =
          (handlePacket own stack node packet).val.node ∧
        (handleConnected own stack node buf peeks conn).val.outcome =
          .dispatched (handlePacket own stack node packet).val.sent := by
  by_cases hpeek : isRpcRequest (recvAllPeek (delivered conn) peeks 4) = true
  · obtain ⟨packet, hpacket, hbytes⟩ := hconn (magic_of_isRpcRequest hpeek)
    have hstream := handleConnected_stream (hformed packet hpacket) hbytes peeks own stack node buf
    split at hstream
    · rw [hstream]
      exact Or.inr ⟨packet, hpacket, rfl, rfl⟩
    · exact Or.inl hstream
  · rcases handleConnected_other hpeek own stack node buf with hother | hother <;> rw [hother] <;>
      exact Or.inl ⟨rfl, rfl⟩

theorem handleIncoming_cases {flight : List Packet} (hformed : ∀ packet ∈ flight, Formed packet)
    {queue : List Datagram} (hqueue : AdmitsQueue flight queue) (own : Option HashID) (node : Node)
    (buf : Memory) (call : IncomingCall) :
    handleIncoming own ⟨node, buf, queue⟩ call =
        pure (handleIncoming own ⟨node, buf, queue⟩ call).val ∧
        (handleIncoming own ⟨node, buf, queue⟩ call).val.node = node ∨
      ∃ packet ∈ flight, ∃ rest,
        (handleIncoming own ⟨node, buf, queue⟩ call).log =
          (serveRpc own call.stack node buf (.dgram (packet.bytes :: rest))).log ∧
        (handleIncoming own ⟨node, buf, queue⟩ call).val.node =
          (handlePacket own call.stack node packet).val.node := by
  cases queue with
  | nil => exact Or.inl ⟨rfl, rfl⟩
  | cons datagram queue =>
      by_cases hself : call.primaryIp = some datagram.sender
      · left
        simp [handleIncoming, hself]
      by_cases hshort : datagram.bytes.length < 4
      · left
        simp [handleIncoming, hself, hshort]
      by_cases hmagic : datagram.bytes.take 4 = rpcMagic.toList
      · obtain ⟨packet, hpacket, hbytes⟩ :=
          hqueue datagram List.mem_cons_self (take_eq_magic_iff.mp hmagic)
        have hserved : handleIncoming own ⟨node, buf, datagram :: queue⟩ call = (do
            let served ← serveRpc own call.stack node buf
              (.dgram (packet.bytes :: queue.map Datagram.bytes))
            pure ⟨served.node, served.buf, stillQueued served.sock (datagram :: queue)⟩) := by
          rw [hbytes]
          simp only [handleIncoming, if_neg hself, if_neg hshort, hmagic, ne_eq, not_true_eq_false,
            if_false, List.map_cons]
        refine Or.inr ⟨packet, hpacket, queue.map Datagram.bytes, ?_, ?_⟩
        · rw [hserved, log_bind, log_pure, List.append_nil]
        · rw [hserved, val_bind, val_pure, serveRpc_dgram (hformed packet hpacket)]
      · left
        simp [handleIncoming, hself, hshort, hmagic]

theorem receiveReply_other {session : Session}
    (h : ¬ rpcMagic.toList <+: delivered session.conn) : (receiveReply session).val = none := by
  have hnot : ¬ isRpcReply (recvAllPeek session.conn.delivered session.peeks 4) = true :=
    fun hpeek => h (magic_of_isRpcReply hpeek)
  rw [receiveReply, if_neg hnot]
  rfl

theorem receiveReply_packet (h : Formed packet) {session : Session}
    (hconn : packet.bytes <+: delivered session.conn) {buf : Memory}
    (hreply : (receiveReply session).val = some buf) :
    buf = session.buf.write 0 packet.bytes := by
  unfold receiveReply at hreply
  split at hreply
  · rw [val_bind, getRpcRequest, val_pure] at hreply
    by_cases hwhole : sizeofHeader ≤ (firstChunk session.conn).length
    · obtain ⟨hret, hbuf, -⟩ := getStreamRequest_whole h.wellFramed hconn session.buf 0 hwhole
      rw [if_neg (not_not.mpr hret), hbuf] at hreply
      exact (Option.some.inj hreply).symm
    · have hret := getStreamRequest_split h.wellFramed hconn session.buf 0 (not_le.mp hwhole)
      rw [if_pos (by rw [hret]; decide)] at hreply
      cases hreply
  · cases hreply

end Kademlia.Protocol
