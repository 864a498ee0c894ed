import Kademlia.Storage.StoreFind
import Kademlia.Upload.Accepted

/-!
The owner lists of the nodes after an upload.

A put never replaces an entry. The uploader puts its own before it knows the
replicas, so it is left with itself as the only owner; and a node that has an
entry already keeps it when the STORE arrives.
-/

namespace Kademlia.Upload

open Foundations CString Source Traced Model Framing Buckets Lookup Storage

/-- A node that handles a STORE sent to `peer`, and what happens to it later. -/
structure Receiver where
  peer : Peer
  own : Option HashID
  node : Node
  request : Request
  later : List NodeEvent

def Receiver.final (r : Receiver) : Node :=
  (Node.run r.own r.node (r.request.event :: r.later)).val

/-- What `r` handles is the STORE for `kv` that the upload sent. -/
structure Processed (up : Uploaded) (kv : KeyValuePair) (r : Receiver) : Prop where
  sentTo : r.peer ∈ up.stored
  received : r.request.contents.rpcStore = (storeRequest kv).val

/-- The storage has an entry for `key` that lists all of `peers`. -/
def Lists (storage : Model.Storage) (key : HashID) (peers : List Peer) : Prop :=
  ∃ kvp, storage key = some kvp ∧ peers ⊆ owners kvp

/-- The uploader and the receivers list all published owners, also after `later`. -/
structure OwnersAgree (own : Option HashID) (up : Uploaded) (kv : KeyValuePair)
    (later : List NodeEvent) (receivers : List Receiver) : Prop where
  uploader : Lists (Node.run own up.node later).val.storage kv.key (owners kv)
  receiver : ∀ r ∈ receivers, Lists r.final.storage kv.key (owners kv)

/-! ### What stays in the storage -/

theorem step_storage_of_some (own : Option HashID) {node : Node} {key : HashID}
    {kvp : KeyValuePair} (h : node.storage key = some kvp) (event : NodeEvent) :
    (Node.step own node event).val.storage key = some kvp := by
  cases event with
  | packet stack contents =>
      have hstep := step_storage own node ⟨stack, contents⟩ key
      rwa [h, Option.some_or] at hstep
  | upload fileHash self =>
      change storagePutValue node.storage _ key = some kvp
      rw [storagePutValue_apply, h, Option.some_or]

theorem run_storage_of_some (own : Option HashID) {node : Node} {key : HashID}
    {kvp : KeyValuePair} (h : node.storage key = some kvp) (events : List NodeEvent) :
    (Node.run own node events).val.storage key = some kvp := by
  induction events generalizing node with
  | nil => exact h
  | cons event events ih =>
      rw [Node.run, List.foldlM_cons, val_bind]
      exact ih (step_storage_of_some own h event)

theorem lists_run_iff (own : Option HashID) {node : Node} {key : HashID} {kvp : KeyValuePair}
    (h : node.storage key = some kvp) (events : List NodeEvent) (peers : List Peer) :
    Lists (Node.run own node events).val.storage key peers ↔ peers ⊆ owners kvp := by
  rw [Lists, run_storage_of_some own h]
  constructor
  · rintro ⟨kvp', hkvp', hpeers⟩
    exact Option.some.inj hkvp' ▸ hpeers
  · exact fun hpeers => ⟨kvp, rfl, hpeers⟩

/-! ### One receiver -/

theorem owners_deserialize (kv : KeyValuePair) (serialized : RPCKeyValue) (stack : KeyValuePair) :
    owners (deserializeRpcValue (serializeRpcValue kv serialized).val stack).val =
      owners kv := by
  unfold owners
  rw [deserializeRpcValue_numValues, serializeRpcValue_numValues]
  apply List.map_congr_left
  intro i hi
  have hlt : i < kv.numValues := List.mem_range.mp hi
  rw [readSlot_deserializeRpcValue _ stack (by simpa using hlt),
    readSlot_serializeRpcValue _ serialized hlt, deserialize_serializeRpcPeer]

theorem passesSizeCheck_of_received {contents : Memory} {kv : KeyValuePair}
    (h : contents.rpcStore = (storeRequest kv).val) : passesSizeCheck contents = some .store := by
  have hheader : contents.header = rpcHeader .store sizeofStore := congrArg RPCStore.header h
  rw [passesSizeCheck, hheader]
  rfl

theorem Processed.storage {up : Uploaded} {kv : KeyValuePair} {r : Receiver}
    (h : Processed up kv r) :
    (Node.step r.own r.node r.request.event).val.storage kv.key =
      some ((r.node.storage kv.key).getD r.request.entry) := by
  have hkey : r.request.contents.rpcStore.keyValue.key = kv.key := by
    rw [h.received]
    exact serializeRpcValue_key kv _
  rw [step_storage, if_pos ⟨passesSizeCheck_of_received h.received, hkey⟩]
  cases r.node.storage kv.key <;> rfl

theorem Processed.owners_entry {up : Uploaded} {kv : KeyValuePair} {r : Receiver}
    (h : Processed up kv r) : owners r.request.entry = owners kv := by
  rw [Request.entry, h.received]
  exact owners_deserialize kv _ _

/-- A receiver lists the published owners unless it has another entry. -/
theorem Processed.lists_iff {up : Uploaded} {kv : KeyValuePair} {r : Receiver}
    (h : Processed up kv r) :
    Lists r.final.storage kv.key (owners kv) ↔
      ∀ old, r.node.storage kv.key = some old → owners kv ⊆ owners old := by
  have hfinal : r.final =
      (Node.run r.own (Node.step r.own r.node r.request.event).val r.later).val := rfl
  rw [hfinal, lists_run_iff r.own h.storage]
  cases r.node.storage kv.key with
  | none => simp [h.owners_entry]
  | some old => simp

/-! ### All nodes -/

/-- The node itself, and the peers whose PUT got a response. -/
def IsOwner (own : Option HashID) (primary : Option SockAddrIn) (net : UploadNetwork)
    (contents : List UInt8) (outPeers : ℕ → Option Peer) (peer : Peer) : Prop :=
  peer = ownEntry own primary ∨ ∃ i, Replicated net contents outPeers i peer

variable {own : Option HashID} {primary : Option SockAddrIn} {net : UploadNetwork} {disk : Disk}
  {node : Node} {file : FileMagnet} {fuel : ℕ} {up : Uploaded} {kv : KeyValuePair}
  {contents : List UInt8}

theorem Publishes.owners_subset_iff
    (h : Publishes own primary net disk node file fuel up kv contents) (peers : List Peer) :
    owners kv ⊆ peers ↔
      ∀ peer, IsOwner own primary net contents up.outPeers peer → peer ∈ peers := by
  rw [h.owners_eq]
  constructor
  · rintro hsubset peer (rfl | hreplicated)
    · exact hsubset List.mem_cons_self
    · exact hsubset (List.mem_cons_of_mem _ (mem_replicas_iff.mpr hreplicated))
  · intro howners peer hpeer
    rcases List.mem_cons.mp hpeer with hself | hreplica
    · exact howners peer (Or.inl hself)
    · exact howners peer (Or.inr (mem_replicas_iff.mp hreplica))

theorem Publishes.lists_uploader_iff
    (h : Publishes own primary net disk node file fuel up kv contents) (later : List NodeEvent) :
    Lists (Node.run own up.node later).val.storage kv.key (owners kv) ↔
      owners kv ⊆ ((node.storage file.fileHash).map owners).getD [ownEntry own primary] := by
  have hstorage : up.node.storage kv.key = some ((node.storage file.fileHash).getD
      (uploadEntry file.fileHash (createOwnPeer own primary))) := by
    have hkey : (uploadEntry file.fileHash (createOwnPeer own primary)).key = file.fileHash := rfl
    rw [h.storage, h.key_eq, storagePutValue_apply, if_pos hkey]
    cases node.storage file.fileHash <;> rfl
  rw [lists_run_iff own hstorage]
  cases node.storage file.fileHash with
  | none =>
      rw [Option.getD_none, owners_uploadEntry]
      rfl
  | some old => rfl

/-- After an upload all nodes list the published owners exactly when each one had
no entry for the file or one that lists them all, and the uploader had such an
entry or is the only owner. -/
theorem ownersAgree_iff
    (h : (handleRpcUpload own primary net disk node file fuel).val = some up)
    (hkv : up.published = some kv) (later : List NodeEvent) {receivers : List Receiver}
    (hreceivers : ∀ r ∈ receivers, Processed up kv r) :
    OwnersAgree own up kv later receivers ↔
      ∀ found contents, WorksOn own net disk node file fuel found contents →
        (∀ peer, IsOwner own primary net contents found.outPeers peer →
          peer ∈ ((node.storage file.fileHash).map owners).getD [ownEntry own primary]) ∧
        ∀ r ∈ receivers, ∀ old, r.node.storage file.fileHash = some old →
          ∀ peer, IsOwner own primary net contents found.outPeers peer → peer ∈ owners old := by
  obtain ⟨contents, hpub⟩ := publishes_of_published h hkv
  obtain ⟨found, hworks, hout⟩ := hpub.worksOn
  have huploader := hpub.lists_uploader_iff later
  rw [hpub.owners_subset_iff, ← hout] at huploader
  have hreceiver : ∀ r ∈ receivers, (Lists r.final.storage kv.key (owners kv) ↔
      ∀ old, r.node.storage file.fileHash = some old →
        ∀ peer, IsOwner own primary net contents found.outPeers peer → peer ∈ owners old) := by
    intro r hr
    rw [(hreceivers r hr).lists_iff, hpub.key_eq]
    simp only [hpub.owners_subset_iff, hout]
  constructor
  · rintro ⟨hfirst, hothers⟩ found' contents' hworks'
    obtain ⟨rfl, rfl⟩ := hworks.unique hworks'
    exact ⟨huploader.mp hfirst, fun r hr => (hreceiver r hr).mp (hothers r hr)⟩
  · intro hall
    obtain ⟨hfirst, hothers⟩ := hall found contents hworks
    exact ⟨huploader.mpr hfirst, fun r hr => (hreceiver r hr).mpr (hothers r hr)⟩

/-- The STORE for a file with the hash 01..00, owned by the nodes with ids zero and
01..01. -/
def twoOwnerStore : Memory :=
  Memory.write (fun _ => 0) 0
    ([75, 68, 77, 84, 116, 1, 0, 0, 2, 0, 0, 0] ++ 1 :: List.replicate 31 0 ++
      2 :: List.replicate 7 0 ++ List.replicate 34 0 ++ [31, 246] ++ List.replicate 44 0 ++
      1 :: List.replicate 30 0 ++ [1])

/-- The peer 01..01, which has nothing stored when it gets this STORE. -/
def secondOwner : Receiver where
  peer := sparsePeer 1 1
  own := some (sparseID 1 1)
  node := Node.initial
  request := ⟨⟨zeroBytes 32, 0, fun _ => zeroPeer⟩, twoOwnerStore⟩
  later := []

instance : DecidableEq RPCKeyValue := fun a b =>
  decidable_of_iff (a.key = b.key ∧ a.numValues = b.numValues ∧ ∀ i, a.values i = b.values i) (by
    cases a
    cases b
    simp [funext_iff])

instance : DecidableEq RPCStore := fun a b =>
  decidable_of_iff (a.header = b.header ∧ a.keyValue = b.keyValue) (by
    cases a
    cases b
    simp)

/-- One peer, which stores the file and processes the STORE. -/
theorem ownersAgree_iff_secondOwner :
    ∃ up kv, oneByteUpload fileCreated [sparsePeer 1 1] = some up ∧ up.published = some kv ∧
      (OwnersAgree (some (sparseID 0 0)) up kv [] [secondOwner] ↔
        ∀ found contents, WorksOn (some (sparseID 0 0)) (answeringNetwork fileCreated)
            ⟨[], fun _ => some [1]⟩ ⟨Storage.empty, tableOf [sparsePeer 1 1]⟩
            ⟨sparseID 1 0, some (ascii "a"), 1⟩ 20 found contents →
          (∀ peer, IsOwner (some (sparseID 0 0)) none (answeringNetwork fileCreated) contents
              found.outPeers peer →
            peer ∈ ((Storage.empty (sparseID 1 0)).map owners).getD
              [ownEntry (some (sparseID 0 0)) none]) ∧
          ∀ r ∈ [secondOwner], ∀ old, r.node.storage (sparseID 1 0) = some old →
            ∀ peer, IsOwner (some (sparseID 0 0)) none (answeringNetwork fileCreated) contents
              found.outPeers peer → peer ∈ owners old) := by
  have hfacts : ((oneByteUpload fileCreated [sparsePeer 1 1]).bind fun up =>
      up.published.map fun kv => decide (secondOwner.peer ∈ up.stored ∧
        secondOwner.request.contents.rpcStore = (storeRequest kv).val)) = some true := by
    decide +kernel
  obtain ⟨up, hup, hfacts⟩ := Option.bind_eq_some_iff.mp hfacts
  obtain ⟨kv, hkv, hfacts⟩ := Option.map_eq_some_iff.mp hfacts
  obtain ⟨hsent, hreceived⟩ := of_decide_eq_true hfacts
  refine ⟨up, kv, hup, hkv, ownersAgree_iff hup hkv [] fun r hr => ?_⟩
  rw [List.mem_singleton.mp hr]
  exact ⟨hsent, hreceived⟩

/-- A peer that stores the file is published as an owner, but the uploader itself
does not list it. -/
theorem replicatedFile_not_ownersAgree :
    ∃ up kv, oneByteUpload fileCreated [sparsePeer 1 1] = some up ∧ up.ret = 0 ∧
      up.published = some kv ∧ ¬ OwnersAgree (some (sparseID 0 0)) up kv [] [] := by
  have howners : ((oneByteUpload fileCreated [sparsePeer 1 1]).bind fun up =>
      up.published.map fun kv => (up.ret, owners kv,
        (up.node.storage kv.key).map owners)) =
        some (0, [ownEntry (some (sparseID 0 0)) none, sparsePeer 1 1],
          some [ownEntry (some (sparseID 0 0)) none]) := by
    decide +kernel
  obtain ⟨up, hup, howners⟩ := Option.bind_eq_some_iff.mp howners
  obtain ⟨kv, hkv, howners⟩ := Option.map_eq_some_iff.mp howners
  rw [Prod.mk.injEq, Prod.mk.injEq] at howners
  obtain ⟨hret, hpublished, hstored⟩ := howners
  refine ⟨up, kv, hup, hret, hkv, fun hagree => ?_⟩
  obtain ⟨kvp, hkvp, hsubset⟩ := hagree.uploader
  have hentry : (up.node.storage kv.key).map owners = some (owners kvp) := by
    rw [show up.node.storage kv.key = some kvp from hkvp, Option.map_some]
  rw [hstored, Option.some.injEq] at hentry
  rw [hpublished, ← hentry] at hsubset
  revert hsubset
  decide

end Kademlia.Upload
