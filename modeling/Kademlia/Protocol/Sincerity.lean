import Kademlia.Buckets.Answers
import Kademlia.Lookup.Uniqueness
import Kademlia.Protocol.Delivery
import Kademlia.Upload.Entry

/-!
What nodes that run this program tell each other.

A peer is genuine when some node describes itself by it, and a list of owners is
published for a key when it starts as the entry of an upload of that key. Handlers
and lookups only pass on what they were told, so whatever is lost, repeated or
overtaken, all peers stay genuine and all entries published.
-/

namespace Kademlia.Protocol

open Foundations Foundations.Source Foundations.Traced Model Buckets Lookup

/-- The owners that an entry on the wire lists. -/
def sentOwners (value : RPCKeyValue) : List Peer :=
  (List.range value.numValues).map fun i =>
    deserializeRpcPeer (readSlot value.values zeroRPCPeer i)

def carriedPeers : Packet → List Peer
  | .broadcast packet => [deserializeRpcPeer packet.peer]
  | .store packet => sentOwners packet.keyValue
  | .find _ | .response (.plain _) => []
  | .response (.findNode packet) => listedPeers packet.closest packet.numClosest
  | .response (.findValue packet) =>
      if packet.foundKey ≠ 0 then sentOwners packet.values
      else listedPeers packet.closest packet.numClosest

def carriedEntry : Packet → Option RPCKeyValue
  | .store packet => some packet.keyValue
  | .response (.findValue packet) => valueOf packet
  | _ => none

/-- The owners start as those of an upload of `key` do. -/
def Published (uploads : List KeyValuePair) (key : HashID) (owners : List Peer) : Prop :=
  ∃ kv ∈ uploads, kv.key = key ∧ owners.head? = (Upload.owners kv).head?

section Sincere

variable (G : Peer → Prop) (uploads : List KeyValuePair)

structure SincereEntry (key : HashID) (kv : KeyValuePair) : Prop where
  key_eq : kv.key = key
  count : kv.numValues ≤ kValue
  genuine : ∀ p ∈ Upload.owners kv, G p
  published : Published uploads key (Upload.owners kv)

structure SincereNode (node : Node) : Prop where
  table : ∀ p ∈ tablePeers node.buckets, G p
  entries : ∀ key kv, node.storage key = some kv → SincereEntry G uploads key kv

structure SincerePacket (packet : Packet) : Prop where
  formed : Formed packet
  genuine : ∀ p ∈ carriedPeers packet, G p
  published : ∀ value, carriedEntry packet = some value →
    Published uploads value.key (sentOwners value)

structure SincereVars (s : LookupState) : Prop where
  pending : ∀ p ∈ s.pending.data, G p
  table : ∀ p ∈ tablePeers s.buckets, G p
  outPeers : ∀ i p, s.outPeers i = some p → G p

end Sincere

variable {G : Peer → Prop} {uploads uploads' : List KeyValuePair} {own : Option HashID}
  {node : Node} {packet : Packet} {stack : KeyValuePair}

/-! ### Entries on the wire -/

theorem owners_deserializeRpcValue (value : RPCKeyValue) (kvp : KeyValuePair) :
    Upload.owners (deserializeRpcValue value kvp).val = sentOwners value := by
  rw [Upload.owners, sentOwners, deserializeRpcValue_numValues]
  exact List.map_congr_left fun i hi =>
    readSlot_deserializeRpcValue value kvp (List.mem_range.mp hi)

theorem sentOwners_serializeRpcValue (kv : KeyValuePair) (blank : RPCKeyValue) :
    sentOwners (serializeRpcValue kv blank).val = Upload.owners kv := by
  rw [Upload.owners, sentOwners, serializeRpcValue_numValues]
  refine List.map_congr_left fun i hi => ?_
  rw [readSlot_serializeRpcValue kv blank (List.mem_range.mp hi), deserialize_serializeRpcPeer]

theorem Published.mono {key : HashID} {owners : List Peer} (h : Published uploads key owners)
    (hsub : uploads ⊆ uploads') : Published uploads' key owners := by
  obtain ⟨kv, hkv, hrest⟩ := h
  exact ⟨kv, hsub hkv, hrest⟩

theorem SincereEntry.mono {key : HashID} {kv : KeyValuePair} (h : SincereEntry G uploads key kv)
    (hsub : uploads ⊆ uploads') : SincereEntry G uploads' key kv :=
  ⟨h.key_eq, h.count, h.genuine, h.published.mono hsub⟩

theorem SincereNode.mono (h : SincereNode G uploads node) (hsub : uploads ⊆ uploads') :
    SincereNode G uploads' node :=
  ⟨h.table, fun key kv hkv => (h.entries key kv hkv).mono hsub⟩

theorem SincerePacket.mono (h : SincerePacket G uploads packet) (hsub : uploads ⊆ uploads') :
    SincerePacket G uploads' packet :=
  ⟨h.formed, h.genuine, fun value hvalue => (h.published value hvalue).mono hsub⟩

theorem SincereNode.put (h : SincereNode G uploads node) {kv : KeyValuePair}
    (hkv : SincereEntry G uploads kv.key kv) :
    SincereNode G uploads { node with storage := storagePutValue node.storage kv } where
  table := h.table
  entries key kvp hget := by
    have hput : storagePutValue node.storage kv key = some kvp := hget
    rw [storagePutValue_apply] at hput
    cases hold : node.storage key with
    | some old =>
        rw [hold, Option.some_or] at hput
        exact Option.some.inj hput ▸ h.entries key old hold
    | none =>
        rw [hold, Option.none_or] at hput
        by_cases hkey : kv.key = key
        · rw [if_pos hkey] at hput
          exact Option.some.inj hput ▸ hkey ▸ hkv
        · rw [if_neg hkey] at hput
          cases hput

/-! ### Tables -/

/-- An update puts no other peer than the given one into the table. -/
theorem tablePeers_updateBucketPeers (own : Option HashID) (buckets : Model.Buckets)
    (peer : Peer) : ∀ p ∈ tablePeers (updateBucketPeers own buckets peer).val,
      p ∈ tablePeers buckets ∨ p = peer := by
  intro p hp
  cases own with
  | none => exact Or.inl hp
  | some ownId =>
      rcases updateBucketPeers_cases ownId buckets peer with hsame | ⟨i, -, -, -, hadd⟩
      · exact Or.inl (hsame ▸ hp)
      · rw [hadd, tablePeers, List.mem_flatMap] at hp
        obtain ⟨j, hj, hp⟩ := hp
        by_cases hji : j = i
        · subst hji
          rw [Function.update_self, addFront_peers] at hp
          rcases List.mem_cons.mp hp with rfl | hp
          · exact Or.inr rfl
          · exact Or.inl (List.mem_flatMap.mpr ⟨j, hj, hp⟩)
        · rw [Function.update_of_ne hji] at hp
          exact Or.inl (List.mem_flatMap.mpr ⟨j, hj, hp⟩)

theorem genuine_update {buckets : Model.Buckets} (h : ∀ p ∈ tablePeers buckets, G p)
    {peer : Peer} (hpeer : G peer) (own : Option HashID) :
    ∀ p ∈ tablePeers (updateBucketPeers own buckets peer).val, G p := by
  intro p hp
  rcases tablePeers_updateBucketPeers own buckets peer p hp with hp | rfl
  · exact h p hp
  · exact hpeer

/-! ### Handlers -/

/-- The answer to a FIND lists the peers that `find_closest_peers` selects. -/
theorem handleFindNode_answer (own : Option HashID) (node : Node) (data : RPCFind) :
    ∃ r : RPCFindNodeResponse,
      (handleFindNode own node data).val = ⟨node, some (.findNode r)⟩ ∧
        r.header = rpcHeader .findNodeResponse sizeofFindNodeResponse ∧
        r.numClosest ≤ kValue ∧
        listedPeers r.closest r.numClosest =
          closestPeers own node.buckets data.key bucketSize := by
  rw [handleFindNode, val_bind]
  cases hfound : (findClosestPeers own node.buckets data.key bucketSize).val with
  | none => exact ⟨_, rfl, rfl, Nat.zero_le _, (closestPeers_eq_nil hfound).symm⟩
  | some closest =>
      obtain ⟨hcount, hlisted⟩ := fillClosest_selected hfound
      exact ⟨_, rfl, rfl, hcount ▸ closestPeers_length_le _ _ _ _, hlisted⟩

theorem handleFindValue_missing (data : RPCFind)
    (hget : storageGetValue node.storage data.key = none) (own : Option HashID) :
    ∃ r : RPCFindValueResponse,
      (handleFindValue own node data).val = ⟨node, some (.findValue r)⟩ ∧
        r.header = rpcHeader .findValueResponse sizeofFindValueResponse ∧
        r.foundKey = 0 ∧ r.values.numValues = 0 ∧ r.numClosest ≤ kValue ∧
        listedPeers r.closest r.numClosest =
          closestPeers own node.buckets data.key bucketSize := by
  unfold handleFindValue
  dsimp only
  rw [hget]
  dsimp only
  rw [val_bind]
  cases hfound : (findClosestPeers own node.buckets data.key bucketSize).val with
  | none => exact ⟨_, rfl, rfl, rfl, rfl, Nat.zero_le _, (closestPeers_eq_nil hfound).symm⟩
  | some closest =>
      obtain ⟨hcount, hlisted⟩ := fillClosest_selected hfound
      exact ⟨_, rfl, rfl, rfl, rfl, hcount ▸ closestPeers_length_le _ _ _ _, hlisted⟩

theorem handleFindValue_found (data : RPCFind) {kvp : KeyValuePair}
    (hget : storageGetValue node.storage data.key = some kvp) (own : Option HashID) :
    ∃ r : RPCFindValueResponse,
      (handleFindValue own node data).val = ⟨node, some (.findValue r)⟩ ∧
        r.header = rpcHeader .findValueResponse sizeofFindValueResponse ∧
        r.foundKey = 1 ∧ r.numClosest = 0 ∧
        ∃ blank, r.values = (serializeRpcValue kvp blank).val := by
  unfold handleFindValue
  dsimp only
  rw [hget]
  exact ⟨_, rfl, rfl, rfl, rfl, _, rfl⟩

theorem sincere_plain {kind : RPCCallType} (hkind : kind = .pingResponse ∨ kind = .storeResponse)
    (success : UInt8) :
    SincerePacket G uploads (.response (.plain ⟨rpcHeader kind sizeofResponse, success⟩)) where
  formed := ⟨⟨kind, by rcases hkind with rfl | rfl <;> simp [callTypes], rfl⟩, trivial⟩
  genuine p hp := nomatch hp
  published value hvalue := nomatch hvalue

theorem handleFindNode_sincere (h : SincereNode G uploads node) (own : Option HashID)
    (data : RPCFind) : SincereNode G uploads (handleFindNode own node data).val.node ∧
      ∀ r, (handleFindNode own node data).val.sent = some r →
        SincerePacket G uploads (.response r) := by
  obtain ⟨r, hval, hheader, hcount, hlisted⟩ := handleFindNode_answer own node data
  rw [hval]
  refine ⟨h, fun r' hr => ?_⟩
  obtain rfl := Option.some.inj hr
  refine ⟨⟨⟨.findNodeResponse, List.mem_singleton_self _, hheader⟩, hcount⟩, fun p hp => ?_,
    fun value hvalue => nomatch hvalue⟩
  rw [carriedPeers, hlisted] at hp
  exact h.table p (closestPeers_subset _ _ _ _ p hp)

theorem handleFindValue_sincere (h : SincereNode G uploads node) (own : Option HashID)
    (data : RPCFind) : SincereNode G uploads (handleFindValue own node data).val.node ∧
      ∀ r, (handleFindValue own node data).val.sent = some r →
        SincerePacket G uploads (.response r) := by
  cases hget : storageGetValue node.storage data.key with
  | none =>
      obtain ⟨r, hval, hheader, hfound, hvalues, hcount, hlisted⟩ :=
        handleFindValue_missing data hget own
      rw [hval]
      refine ⟨h, fun r' hr => ?_⟩
      obtain rfl := Option.some.inj hr
      refine ⟨⟨⟨.findValueResponse, List.mem_singleton_self _, hheader⟩,
        by rw [hvalues]; exact Nat.zero_le _, hcount⟩, fun p hp => ?_, fun value hvalue => ?_⟩
      · rw [carriedPeers, if_neg (not_not.mpr hfound), hlisted] at hp
        exact h.table p (closestPeers_subset _ _ _ _ p hp)
      · rw [carriedEntry, valueOf, if_neg (not_not.mpr hfound)] at hvalue
        cases hvalue
  | some kvp =>
      obtain ⟨r, hval, hheader, hfound, hcount, blank, hvalues⟩ := handleFindValue_found data hget own
      have hentry := h.entries data.key kvp hget
      have hone : r.foundKey ≠ 0 := by rw [hfound]; decide
      rw [hval]
      refine ⟨h, fun r' hr => ?_⟩
      obtain rfl := Option.some.inj hr
      refine ⟨⟨⟨.findValueResponse, List.mem_singleton_self _, hheader⟩, ?_,
        by rw [hcount]; exact Nat.zero_le _⟩, fun p hp => ?_, fun value hvalue => ?_⟩
      · rw [hvalues, serializeRpcValue_numValues]
        exact hentry.count
      · rw [carriedPeers, if_pos hone, hvalues, sentOwners_serializeRpcValue] at hp
        exact hentry.genuine p hp
      · rw [carriedEntry, valueOf, if_pos hone, hvalues] at hvalue
        obtain rfl := Option.some.inj hvalue
        rw [serializeRpcValue_key, sentOwners_serializeRpcValue, hentry.key_eq]
        exact hentry.published

/-- A node that is told sincere things stays sincere, and so is what it answers. -/
theorem handlePacket_sincere (h : SincereNode G uploads node)
    (hp : SincerePacket G uploads packet) (own : Option HashID) (stack : KeyValuePair) :
    SincereNode G uploads (handlePacket own stack node packet).val.node ∧
      ∀ r, (handlePacket own stack node packet).val.sent = some r →
        SincerePacket G uploads (.response r) := by
  cases packet with
  | broadcast packet =>
      refine ⟨⟨?_, h.entries⟩, fun r hr => by cases hr⟩
      exact genuine_update h.table (hp.genuine _ (List.mem_singleton_self _)) own
  | store packet =>
      refine ⟨h.put ⟨rfl, ?_, ?_, ?_⟩, fun r hr => ?_⟩
      · rw [deserializeRpcValue_numValues]
        exact hp.formed.counts
      · rw [owners_deserializeRpcValue]
        exact hp.genuine
      · rw [owners_deserializeRpcValue, deserializeRpcValue_key]
        exact hp.published _ rfl
      · obtain rfl := Option.some.inj hr
        exact sincere_plain (Or.inr rfl) 1
  | find packet =>
      rw [handlePacket]
      split
      · exact handleFindNode_sincere h own packet
      · exact handleFindValue_sincere h own packet
  | response response => exact ⟨h, fun r hr => by cases hr⟩

end Kademlia.Protocol
