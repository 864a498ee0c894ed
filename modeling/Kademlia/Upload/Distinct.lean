import Kademlia.Lookup.FindNode
import Kademlia.Upload.Accepted

/-!
Owners that are listed twice.

Nothing in `handle_rpc_upload` compares ids, so the published entry repeats
what the lookup returns: ourselves, if some peer advertises us, and a peer that
is there twice. A lookup does not pend an id twice on its own, so the latter
comes from the buckets.
-/

namespace Kademlia.Upload

open Foundations CString Source Worklist Model Framing Buckets Lookup

/-- The first owner is the node itself, and no id is listed twice. -/
structure ListsOwnersOnce (own : Option HashID) (kv : KeyValuePair) : Prop where
  first : (owners kv).head?.map Peer.peerId = own
  nodup : ((owners kv).map Peer.peerId).Nodup

/-- Two results of the lookup have the id `id`, and both PUTs got a response. -/
def RepliesTwice (net : UploadNetwork) (contents : List UInt8) (outPeers : ℕ → Option Peer)
    (id : HashID) : Prop :=
  ∃ i j p p', i < j ∧ Replicated net contents outPeers i p ∧
    Replicated net contents outPeers j p' ∧ p.peerId = id ∧ p'.peerId = id

variable {own : Option HashID} {primary : Option SockAddrIn} {net : UploadNetwork} {disk : Disk}
  {node : Node} {file : FileMagnet} {fuel : ℕ} {up : Uploaded} {kv : KeyValuePair}
  {contents : List UInt8} {outPeers : ℕ → Option Peer}

theorem replicas_nodup_iff :
    ((replicas net contents outPeers (List.range (kValue - 1))).map Peer.peerId).Nodup ↔
      ∀ id, ¬ RepliesTwice net contents outPeers id := by
  rw [List.Nodup, List.pairwise_map, replicas, List.pairwise_filterMap, List.pairwise_iff_getElem]
  simp only [List.getElem_range, List.length_range]
  constructor
  · rintro hpairs id ⟨i, j, p, p', hij, hp, hp', hid, hid'⟩
    exact hpairs i j hp.lt hp'.lt hij p ((filter_outPeers_eq_some hp.lt).mpr hp) p'
      ((filter_outPeers_eq_some hp'.lt).mpr hp') (hid.trans hid'.symm)
  · intro hone i j hi hj hij p hp p' hp' hid
    exact hone p'.peerId ⟨i, j, p, p', hij, (filter_outPeers_eq_some hi).mp hp,
      (filter_outPeers_eq_some hj).mp hp', hid, rfl⟩

theorem Publishes.listsOnce_iff
    (h : Publishes own primary net disk node file fuel up kv contents) :
    ListsOwnersOnce own kv ↔
      own.isSome = true ∧
      (∀ i peer, Replicated net contents up.outPeers i peer → own ≠ some peer.peerId) ∧
      ∀ id, ¬ RepliesTwice net contents up.outPeers id := by
  have hfirst : (ownEntry own primary).peerId = own.getD (zeroBytes 32) := by
    cases own <;> rfl
  constructor
  · rintro ⟨hown, hnodup⟩
    rw [h.owners_eq] at hown hnodup
    rw [List.head?_cons, Option.map_some] at hown
    rw [List.map_cons, List.nodup_cons] at hnodup
    refine ⟨by rw [← hown]; rfl, ?_, replicas_nodup_iff.mp hnodup.2⟩
    intro i peer hreplicated hself
    refine hnodup.1 (List.mem_map.mpr ⟨peer, mem_replicas_iff.mpr ⟨i, hreplicated⟩, ?_⟩)
    exact Option.some.inj (hself.symm.trans hown.symm)
  · rintro ⟨hsome, hself, htwice⟩
    obtain ⟨ownId, rfl⟩ := Option.isSome_iff_exists.mp hsome
    refine ⟨by rw [h.owners_eq]; exact congrArg some hfirst, ?_⟩
    rw [h.owners_eq, List.map_cons, List.nodup_cons]
    refine ⟨fun hmem => ?_, replicas_nodup_iff.mpr htwice⟩
    obtain ⟨peer, hpeer, hid⟩ := List.mem_map.mp hmem
    obtain ⟨i, hreplicated⟩ := mem_replicas_iff.mp hpeer
    exact hself i peer hreplicated (by rw [hid]; rfl)

/-- The published entry lists each owner once exactly when the own id is known,
no peer with this id answers a PUT, and no id that `find_closest_peers` found
twice answers two. -/
theorem listsOwnersOnce_iff
    (h : (handleRpcUpload own primary net disk node file fuel).val = some up)
    (hkv : up.published = some kv) :
    ListsOwnersOnce own kv ↔
      ∀ found contents, WorksOn own net disk node file fuel found contents →
        own.isSome = true ∧
        (∀ i peer, Replicated net contents found.outPeers i peer → own ≠ some peer.peerId) ∧
        ∀ id, ((closestPeers own node.buckets file.fileHash kValue).map
          Peer.peerId).Duplicate id → ¬ RepliesTwice net contents found.outPeers id := by
  obtain ⟨contents, hpub⟩ := publishes_of_published h hkv
  obtain ⟨found, hworks, hout⟩ := hpub.worksOn
  have hresult := findNodeResult_of_some (by decide) hworks.lookup
  rw [initialPeers_val] at hresult
  rw [hpub.listsOnce_iff, ← hout]
  constructor
  · rintro ⟨hsome, hself, htwice⟩ found' contents' hworks'
    obtain ⟨rfl, rfl⟩ := hworks.unique hworks'
    exact ⟨hsome, hself, fun id _ => htwice id⟩
  · intro hall
    obtain ⟨hsome, hself, htwice⟩ := hall found contents hworks
    refine ⟨hsome, hself, fun id hreplies => htwice id ?_ hreplies⟩
    obtain ⟨i, j, p, p', hij, hp, hp', rfl, hid'⟩ := hreplies
    exact hresult.duplicate hij hp.found hp'.found hid'.symm

/-- One peer. -/
theorem listsOwnersOnce_iff_onePeer :
    ∃ up kv, oneByteUpload fileCreated [sparsePeer 1 1] = some up ∧ up.published = some kv ∧
      (ListsOwnersOnce (some (sparseID 0 0)) kv ↔
        ∀ found contents, WorksOn (some (sparseID 0 0)) (answeringNetwork fileCreated)
            ⟨[], fun _ => some [1]⟩ ⟨Storage.empty, tableOf [sparsePeer 1 1]⟩
            ⟨sparseID 1 0, some (ascii "a"), 1⟩ 20 found contents →
          (some (sparseID 0 0)).isSome = true ∧
          (∀ i peer, Replicated (answeringNetwork fileCreated) contents found.outPeers i peer →
            some (sparseID 0 0) ≠ some peer.peerId) ∧
          ∀ id, ((closestPeers (some (sparseID 0 0)) (tableOf [sparsePeer 1 1]) (sparseID 1 0)
            kValue).map Peer.peerId).Duplicate id →
              ¬ RepliesTwice (answeringNetwork fileCreated) contents found.outPeers id) := by
  have hsome : ((oneByteUpload fileCreated [sparsePeer 1 1]).bind Uploaded.published).isSome := by
    decide
  obtain ⟨kv, hkv⟩ := Option.isSome_iff_exists.mp hsome
  obtain ⟨up, hup, hkv⟩ := Option.bind_eq_some_iff.mp hkv
  exact ⟨up, kv, hup, hkv, listsOwnersOnce_iff hup hkv⟩

/-- One peer in the bucket of the target, and four in the next one, of which the
one heard of first is nearest. -/
theorem fivePeers_not_listsOwnersOnce :
    ∃ up kv, oneByteUpload fileCreated [sparsePeer 1 1, sparsePeer 3 0, sparsePeer 2 1,
        sparsePeer 2 2, sparsePeer 2 3] = some up ∧
      up.published = some kv ∧ ¬ ListsOwnersOnce (some (sparseID 0 0)) kv := by
  have howners : ((oneByteUpload fileCreated [sparsePeer 1 1, sparsePeer 3 0, sparsePeer 2 1,
      sparsePeer 2 2, sparsePeer 2 3]).bind Uploaded.published).map owners =
        some [ownEntry (some (sparseID 0 0)) none, sparsePeer 1 1, sparsePeer 3 0,
          sparsePeer 3 0] := by
    decide +kernel
  obtain ⟨kv, hkv, howners⟩ := Option.map_eq_some_iff.mp howners
  obtain ⟨up, hup, hkv⟩ := Option.bind_eq_some_iff.mp hkv
  refine ⟨up, kv, hup, hkv, fun honce => ?_⟩
  have hnodup := honce.nodup
  rw [howners] at hnodup
  revert hnodup
  decide

end Kademlia.Upload
