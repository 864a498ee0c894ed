import Kademlia.Lookup.InTable
import Kademlia.Protocol.Calls
import Kademlia.Storage.Indexing

/-!
The arrays that are filled and read with counts from the network.

No count is checked where it is used. Between nodes that all run this program none is
larger than the array: each is written by a loop over at most `K_VALUE` slots, or
copied from one that was.
-/

namespace Kademlia.Protocol

open Foundations Foundations.Source Foundations.Traced Model Framing Buckets Lookup Storage

/-! ### Requests -/

variable {node : Node} {packet : Packet} {flight : List Packet}

theorem inSlots_handlePacket (h : Bounded node.storage) (hcounts : CountsFit packet)
    (own : Option HashID) (stack : KeyValuePair) :
    InSlots (handlePacket own stack node packet) := by
  cases packet with
  | broadcast packet => exact inSlots_handleBroadcast own packet
  | store packet => exact inSlots_handleStore hcounts stack
  | find packet =>
      rw [handlePacket]
      split
      · exact inSlots_handleFindNode own node packet
      · exact inSlots_handleFindValue (h _) own
  | response response => exact inSlots_pure _

theorem inSlots_serveRpc (h : Bounded node.storage) (hformed : Formed packet) {sock : Socket}
    {buf : Memory} (hfetched : (getRpcRequest sock buf 0).val.ret = 0 →
      (getRpcRequest sock buf 0).val.buf = buf.write 0 packet.bytes)
    (own : Option HashID) (stack : KeyValuePair) :
    InSlots (serveRpc own stack node buf sock) := by
  refine inSlots_bind.mpr ⟨(getRpcRequest_defined sock buf 0).slots, ?_⟩
  split
  · next hret =>
      rw [hfetched hret, handleRpcRequest_packet hformed]
      exact inSlots_bind.mpr ⟨inSlots_handlePacket h hformed.counts own stack, inSlots_pure _⟩
  · exact inSlots_pure _

theorem fetched_stream (hformed : Formed packet) {conn : Conn}
    (hconn : packet.bytes <+: delivered conn) {buf : Memory}
    (hret : (getRpcRequest (.stream conn) buf 0).val.ret = 0) :
    (getRpcRequest (.stream conn) buf 0).val.buf = buf.write 0 packet.bytes := by
  by_cases hwhole : sizeofHeader ≤ (firstChunk conn).length
  · exact (getStreamRequest_whole hformed.wellFramed hconn buf 0 hwhole).2.1
  · have hsplit := getStreamRequest_split hformed.wellFramed hconn buf 0 (not_le.mp hwhole)
    rw [getRpcRequest, hsplit] at hret
    exact absurd hret (by decide)

theorem inSlots_handleConnected (h : Bounded node.storage)
    (hformed : ∀ packet ∈ flight, Formed packet) {conn : Conn} (hconn : Admits flight conn)
    (own : Option HashID) (stack : KeyValuePair) (buf : Memory) (peeks : List PeekEvent) :
    InSlots (handleConnected own stack node buf peeks conn) := by
  by_cases hpeek : isRpcRequest (recvAllPeek (delivered conn) peeks 4) = true
  · obtain ⟨packet, hpacket, hbytes⟩ := hconn (magic_of_isRpcRequest hpeek)
    rw [handleConnected_of_rpc hpeek]
    exact inSlots_serveRpc h (hformed packet hpacket)
      (fetched_stream (hformed packet hpacket) hbytes) own stack
  · rcases handleConnected_other hpeek own stack node buf with hother | hother <;> rw [hother] <;>
      exact inSlots_pure _

theorem inSlots_handleIncoming (h : Bounded node.storage)
    (hformed : ∀ packet ∈ flight, Formed packet) {queue : List Datagram}
    (hqueue : AdmitsQueue flight queue) (own : Option HashID) (buf : Memory)
    (call : IncomingCall) : InSlots (handleIncoming own ⟨node, buf, queue⟩ call) := by
  rcases handleIncoming_cases hformed hqueue own node buf call with
    ⟨hpure, -⟩ | ⟨packet, hpacket, rest, hlog, -⟩
  · rw [hpure]
    exact inSlots_pure _
  · have hfetched : (getRpcRequest (.dgram (packet.bytes :: rest)) buf 0).val.buf =
        buf.write 0 packet.bytes :=
      (getDatagramRequest_packet (hformed packet hpacket) rest buf).2.1
    obtain ⟨hvalues, hclosest⟩ := inSlots_serveRpc h (hformed packet hpacket)
      (fun _ => hfetched) own call.stack
    rw [InSlots, Stays, Stays, hlog]
    exact ⟨hvalues, hclosest⟩

/-! ### Lookups -/

theorem inSlots_hearPeers {numClosest : ℕ} (h : numClosest ≤ kValue) (own : Option HashID)
    (closest : ℕ → RPCPeer) (s : LookupState) :
    InSlots (hearPeers own closest numClosest s) := by
  refine inSlots_bind.mpr ⟨inSlots_touch (by simp),
    inSlots_foldlM (fun s j hj => inSlots_bind.mpr ⟨?_, ?_⟩) s⟩
  · have hlt := List.mem_range.mp hj
    exact inSlots_touch fun _ => by omega
  · refine inSlots_bind.mpr ⟨inSlots_updateBucketPeers _ _ _, ?_⟩
    dsimp only
    split <;> exact inSlots_pure _

theorem inSlots_handleReply {packet : Packet} (h : Formed packet) (q : Search) (kvp : KeyValuePair)
    (m : Memory) (s : LookupState) :
    InSlots (handleReply q kvp (m.write 0 packet.bytes) s) := by
  have hheader := h.header_write m
  have hfits := h.fits
  have hcounts := h.counts
  refine inSlots_bind.mpr ⟨inSlots_touch (by simp), ?_⟩
  rw [hheader]
  split
  · next hcode =>
      obtain ⟨r, rfl⟩ := exists_of_findValueResponse (h.mem_callTypes hcode.2)
      have hsame : (m.write 0 (Packet.response (.findValue r)).bytes).rpcFindValueResponse = r :=
        rpcFindValueResponse_write m hfits (lt_of_le_kValue hcounts.1) (lt_of_le_kValue hcounts.2)
      rw [hsame]
      refine inSlots_bind.mpr ⟨inSlots_touch (by simp), ?_⟩
      split
      · exact inSlots_bind.mpr ⟨inSlots_deserializeRpcValue hcounts.1 kvp, inSlots_pure _⟩
      · exact inSlots_hearPeers hcounts.2 _ _ _
  · split
    · next hcode =>
        obtain ⟨r, rfl⟩ := exists_of_findNodeResponse (h.mem_callTypes hcode.2)
        have hsame : (m.write 0 (Packet.response (.findNode r)).bytes).rpcFindNodeResponse = r :=
          rpcFindNodeResponse_write m hfits (lt_of_le_kValue hcounts)
        rw [hsame]
        exact inSlots_hearPeers hcounts _ _ _
    · exact inSlots_pure _

theorem inSlots_contactPeer (hformed : ∀ packet ∈ flight, Formed packet)
    {session : Option Session} (hsession : ∀ reached ∈ session, Admits flight reached.conn)
    (q : Search) (p : Peer) (s : LookupState) : InSlots (contactPeer q session p s) := by
  cases session with
  | none => exact inSlots_pure _
  | some session =>
      refine inSlots_bind.mpr ⟨(receiveReply_defined session).slots, ?_⟩
      cases hreply : (receiveReply session).val with
      | none => exact inSlots_pure _
      | some buf =>
          by_cases hmagic : rpcMagic.toList <+: delivered session.conn
          · obtain ⟨packet, hpacket, hbytes⟩ := hsession session rfl hmagic
            obtain rfl := receiveReply_packet (hformed packet hpacket) hbytes hreply
            exact inSlots_handleReply (hformed packet hpacket) _ _ _ _
          · rw [receiveReply_other hmagic] at hreply
            cases hreply

theorem inSlots_step (hformed : ∀ packet ∈ flight, Formed packet) {session : Option Session}
    (hsession : ∀ reached ∈ session, Admits flight reached.conn) (q : Search) (s : LookupState) :
    InSlots (s.step q fun _ _ => session) := by
  unfold LookupState.step
  cases s.position with
  | outer =>
      dsimp only
      split <;> exact inSlots_pure _
  | inner i =>
      dsimp only
      split
      · split
        · refine inSlots_bind.mpr ⟨inSlots_contactPeer hformed hsession q _ _, ?_⟩
          split <;> exact inSlots_pure _
        · exact inSlots_pure _
      · exact inSlots_pure _
  | exit => exact inSlots_pure _

theorem inSlots_start (q : Search) (buckets : Model.Buckets) (entry : Option KeyValuePair) :
    InSlots (RunningLookup.start q buckets entry) :=
  inSlots_bind.mpr
    ⟨inSlots_bind.mpr ⟨inSlots_findClosestPeers _ _ _ _, inSlots_pure _⟩, inSlots_pure _⟩

theorem SincereLookup.inSlots_publishes {G : Peer → Prop} {uploads : List KeyValuePair}
    {l : RunningLookup} (h : SincereLookup G uploads l) (net : UploadNetwork)
    (contents : Option (List UInt8)) : InSlots (l.publishes net contents) := by
  unfold RunningLookup.publishes
  split
  · next kv contents hentry =>
      have hone := (h.entry kv hentry).2.1
      dsimp only
      split
      · exact inSlots_pure _
      · exact inSlots_bind.mpr ⟨inSlots_bind.mpr
          ⟨inSlots_serializeRpcValue (numValues_replicate_le hone _ _ _) _, inSlots_pure _⟩,
          inSlots_pure _⟩
  · exact inSlots_pure _

/-! ### Every run -/

variable {N : Type} [DecidableEq N] {describes : N → Option HashID → Option SockAddrIn → Prop}
  {s : System N}

/-- Whatever a network of these nodes has done, what one of them does next stays within
`values[]` and `closest[]`. -/
theorem reachable_inSlots (h : s.Reachable describes) {act : Traced Field (System N)}
    (hacts : Acts describes s act) : InSlots act := by
  have hs := Reachable.sincere h
  have hbounded : ∀ n, Bounded (s.parties n).node.storage :=
    fun n key kv hkv => ((hs.nodes n).entries key kv hkv).count
  cases hacts with
  | announce => exact inSlots_pure _
  | connected _ _ hconn =>
      exact inSlots_bind.mpr
        ⟨inSlots_handleConnected (hbounded _) hs.formed hconn _ _ _ _, inSlots_pure _⟩
  | incoming _ _ hqueue =>
      exact inSlots_bind.mpr
        ⟨inSlots_handleIncoming (hbounded _) hs.formed hqueue _ _ _, inSlots_pure _⟩
  | upload => exact inSlots_bind.mpr ⟨inSlots_start _ _ _, inSlots_pure _⟩
  | download => exact inSlots_bind.mpr ⟨inSlots_start _ _ _, inSlots_pure _⟩
  | ask => exact inSlots_pure _
  | look _ hsession =>
      exact inSlots_bind.mpr ⟨inSlots_step hs.formed hsession _ _, inSlots_pure _⟩
  | finish hlookup =>
      exact inSlots_bind.mpr ⟨(hs.lookups _ _ hlookup).inSlots_publishes _ _, inSlots_pure _⟩

def asking : Traced Field (System Bool) := do
  let s ← announced.beginUpload false (some (idOf false)) fileKey
    (uploadEntry fileKey (createOwnPeer (some (idOf false)) (some zeroAddr)))
  pure (s.send [.find (findRequest (fileSearch (some (idOf false)) fileKey false))])

def answersFind : Traced Field (System Bool) := do
  let served ← handleConnected (some (idOf true)) blankEntry (asking.val.parties true).node
    (fun _ => 0) [.ready 3]
    (oneChunk (.find (findRequest (fileSearch (some (idOf false)) fileKey false))))
  pure ((asking.val.set true ⟨served.node, none⟩).send served.outcome.sent)

theorem reachable_asking : asking.val.Reachable twoNodes := by
  set begun := announced.beginUpload false (some (idOf false)) fileKey
    (uploadEntry fileKey (createOwnPeer (some (idOf false)) (some zeroAddr))) with hbegun
  have hstays : ∀ a ∈ begun.log, a.array = .buckets → a.Within bucketCount := by decide +kernel
  have hidle : (announced.parties false).lookup = none := by decide +kernel
  have hupload : Steps twoNodes announced begun.val :=
    ⟨begun, .upload fileKey ⟨rfl, rfl⟩ hidle, hstays, rfl⟩
  exact (reachable_announced.tail hupload).tail ⟨_, .ask (n := false) rfl, stays_pure _ _ _, rfl⟩

theorem acts_answersFind : Acts twoNodes asking.val answersFind := by
  have hidle : (asking.val.parties true).lookup = none := by decide +kernel
  refine .connected ⟨rfl, rfl⟩ hidle fun _ => ⟨_, List.mem_cons_self, ?_⟩
  rw [delivered_oneChunk]

/-- A STORE that is handled uses `values[]`, and a FIND_NODE that is answered uses `closest[]`. -/
theorem reachable_inSlots_twoNodes :
    (⟨.values, 0⟩ ∈ storing.log ∧ InSlots storing) ∧
      ⟨.closest, 0⟩ ∈ answersFind.log ∧ InSlots answersFind := by
  have hvalues : ⟨.values, 0⟩ ∈ storing.log := by decide +kernel
  have hclosest : ⟨.closest, 0⟩ ∈ answersFind.log := by decide +kernel
  exact ⟨⟨hvalues, reachable_inSlots reachable_published_second acts_storing⟩,
    hclosest, reachable_inSlots reachable_asking acts_answersFind⟩

end Kademlia.Protocol
