import Kademlia.Framing.RecvUntil
import Kademlia.Http.Requests
import Kademlia.Model.Transfer

/-!
The entry that an upload publishes.

The uploader is its first owner. The others are peers that the lookup returned
and whose PUT got any response: the loop does not look further into it.
-/

namespace Kademlia.Upload

open Foundations Foundations.Source Foundations.Traced Model Framing

/-! ### The response to a PUT -/

/-- The connection delivers something, and if it fails then not before the end
of the response header. -/
def Responds (reply : Conn) : Prop :=
  delivered reply ≠ [] ∧
    (fails reply = false ∨ StopsWithin httpHeaderSize httpPattern (delivered reply))

def statusOf (reply : Conn) : Option ℤ :=
  parseStatus ((untilPattern httpHeaderSize httpPattern (delivered reply)).takeWhile (· ≠ 0))

/-- The request could be sent, and there is a response. -/
structure GotResponse (session : HttpSession) : Prop where
  connected : session.connected = true
  headerSent : session.headerSent = true
  bodySent : session.bodySent = true
  responds : Responds session.reply

theorem recvUntil_pos_iff_responds (reply : Conn) :
    0 < (recvUntil reply httpHeaderSize httpPattern).ret ↔ Responds reply :=
  recvUntil_pos_iff (by decide) Http.httpPattern_ne_nil reply

theorem uploadHttpFile_of_gotResponse {session : HttpSession} {contents : List UInt8}
    (hcontents : contents ≠ []) (h : GotResponse session) :
    uploadHttpFile session contents = ⟨0, statusOf session.reply⟩ := by
  have hempty : contents.isEmpty = false := by simpa using hcontents
  have hreceived := not_le.mpr ((recvUntil_pos_iff_responds session.reply).mpr h.responds)
  simp only [uploadHttpFile, hempty, h.connected, h.headerSent, h.bodySent, Bool.false_eq_true,
    Bool.true_eq_false, if_false, if_neg hreceived]
  rw [recvUntil_stored, statusOf]

/-- A response is all that counts as success. -/
theorem uploadHttpFile_ret_iff (session : HttpSession) (contents : List UInt8) :
    (uploadHttpFile session contents).ret = 0 ↔ contents ≠ [] ∧ GotResponse session := by
  constructor
  · intro hret
    unfold uploadHttpFile at hret
    dsimp only at hret
    split_ifs at hret with hcontents hconnected hheader hbody hreceived
    iterate 5 cases hret
    exact ⟨by simpa using hcontents, by simpa using hconnected, by simpa using hheader,
      by simpa using hbody, (recvUntil_pos_iff_responds _).mp (not_le.mp hreceived)⟩
  · rintro ⟨hcontents, h⟩
    rw [uploadHttpFile_of_gotResponse hcontents h]

/-! ### Owners -/

def owners (kv : KeyValuePair) : List Peer :=
  (List.range kv.numValues).map (readSlot kv.values zeroPeer)

theorem owners_addOwner {kv : KeyValuePair} (h : kv.numValues < kValue) (peer : Peer) :
    owners (kv.addOwner peer) = owners kv ++ [peer] := by
  unfold owners KeyValuePair.addOwner
  dsimp only
  rw [List.range_succ, List.map_append, List.map_singleton]
  congr 1
  · apply List.map_congr_left
    intro i hi
    have hlt : i < kv.numValues := List.mem_range.mp hi
    rw [readSlot_writeSlot, if_neg (by omega)]
  · rw [readSlot_writeSlot, if_pos ⟨rfl, h⟩]

/-- The uploader with the port of its server, as it lists itself. -/
def ownEntry (own : Option HashID) (primary : Option SockAddrIn) : Peer :=
  { createOwnPeer own primary with
    peerAddr := { (createOwnPeer own primary).peerAddr with sinPort := serverPort } }

theorem owners_uploadEntry (fileHash : HashID) (own : Option HashID)
    (primary : Option SockAddrIn) :
    owners (uploadEntry fileHash (createOwnPeer own primary)) = [ownEntry own primary] := rfl

/-- The peers that the replication loop adds when it is at the entries `is`. -/
def replicas (net : UploadNetwork) (contents : List UInt8) (outPeers : ℕ → Option Peer)
    (is : List ℕ) : List Peer :=
  is.filterMap fun i =>
    (outPeers i).filter fun peer => (uploadHttpFile (net.put i peer) contents).ret = 0

/-- The PUT to `peer`, entry `i` of the lookup result, got a response. -/
structure Replicated (net : UploadNetwork) (contents : List UInt8) (outPeers : ℕ → Option Peer)
    (i : ℕ) (peer : Peer) : Prop where
  lt : i < kValue - 1
  found : outPeers i = some peer
  nonempty : contents ≠ []
  response : GotResponse (net.put i peer)

variable {net : UploadNetwork} {contents : List UInt8} {outPeers : ℕ → Option Peer}

theorem filter_outPeers_eq_some {i : ℕ} (hi : i < kValue - 1) {peer : Peer} :
    (outPeers i).filter (fun peer => (uploadHttpFile (net.put i peer) contents).ret = 0) =
      some peer ↔ Replicated net contents outPeers i peer := by
  rw [Option.filter_eq_some_iff, decide_eq_true_iff, uploadHttpFile_ret_iff]
  constructor
  · rintro ⟨hfound, hcontents, hresponse⟩
    exact ⟨hi, hfound, hcontents, hresponse⟩
  · rintro ⟨-, hfound, hcontents, hresponse⟩
    exact ⟨hfound, hcontents, hresponse⟩

theorem mem_replicas_iff {peer : Peer} :
    peer ∈ replicas net contents outPeers (List.range (kValue - 1)) ↔
      ∃ i, Replicated net contents outPeers i peer := by
  rw [replicas, List.mem_filterMap]
  constructor
  · rintro ⟨i, hi, hpeer⟩
    exact ⟨i, (filter_outPeers_eq_some (List.mem_range.mp hi)).mp hpeer⟩
  · rintro ⟨i, h⟩
    exact ⟨i, List.mem_range.mpr h.lt, (filter_outPeers_eq_some h.lt).mpr h⟩

/-- The loop adds the replicas behind the owners that the entry has, as long as
there is room for all of its rounds. -/
theorem owners_foldl {is : List ℕ} {kv : KeyValuePair} (h : kv.numValues + is.length ≤ kValue) :
    owners (is.foldl (fun kv i =>
      match outPeers i with
      | none => kv
      | some peer =>
          if (uploadHttpFile (net.put i peer) contents).ret ≠ 0 then kv
          else kv.addOwner peer) kv) = owners kv ++ replicas net contents outPeers is := by
  induction is generalizing kv with
  | nil => simp [replicas]
  | cons i is ih =>
      rw [List.length_cons] at h
      rw [List.foldl_cons, replicas, List.filterMap_cons]
      cases hfound : outPeers i with
      | none => exact ih (show kv.numValues + is.length ≤ kValue by omega)
      | some peer =>
          by_cases hret : (uploadHttpFile (net.put i peer) contents).ret = 0
          · have hroom : (kv.addOwner peer).numValues + is.length ≤ kValue := by
              change kv.numValues + 1 + is.length ≤ kValue
              omega
            simp only [hret, ne_eq, not_true, if_false, Option.filter_some, decide_true, if_true]
            rw [ih hroom, owners_addOwner (by omega), List.append_assoc]
            rfl
          · simp only [hret, ne_eq, not_false_iff, if_true, Option.filter_some, decide_false,
              Bool.false_eq_true, if_false]
            exact ih (show kv.numValues + is.length ≤ kValue by omega)

theorem owners_replicate (net : UploadNetwork) (contents : List UInt8)
    (outPeers : ℕ → Option Peer) (fileHash : HashID) (own : Option HashID)
    (primary : Option SockAddrIn) :
    owners (replicate net contents outPeers
        (uploadEntry fileHash (createOwnPeer own primary))) =
      ownEntry own primary :: replicas net contents outPeers (List.range (kValue - 1)) :=
  owners_foldl (show 1 + 3 ≤ kValue from le_rfl)

/-! ### The whole upload -/

/-- The upload that ended with `up` published `kv`; the file had `contents`. -/
structure Publishes (own : Option HashID) (primary : Option SockAddrIn) (net : UploadNetwork)
    (disk : Disk) (node : Node) (file : FileMagnet) (fuel : ℕ) (up : Uploaded)
    (kv : KeyValuePair) (contents : List UInt8) : Prop where
  lookup : ∃ found, (iterativeFindPeers ⟨own, file.fileHash, kValue, false⟩ net.lookup
    node.buckets (fun _ => none) fuel).val = some found ∧ found.outPeers = up.outPeers
  contents_eq : disk (pathIn uploadDir file.nameText) = some contents
  published : up.published = some kv
  owners_eq : owners kv = ownEntry own primary ::
    replicas net contents up.outPeers (List.range (kValue - 1))
  key_eq : kv.key = file.fileHash
  storage : up.node.storage =
    storagePutValue node.storage (uploadEntry file.fileHash (createOwnPeer own primary))

/-- What an upload of `file` works on: the result of the lookup, and the contents
of the file. -/
structure WorksOn (own : Option HashID) (net : UploadNetwork) (disk : Disk) (node : Node)
    (file : FileMagnet) (fuel : ℕ) (found : LookupResult) (contents : List UInt8) : Prop where
  lookup : (iterativeFindPeers ⟨own, file.fileHash, kValue, false⟩ net.lookup node.buckets
    (fun _ => none) fuel).val = some found
  contents_eq : disk (pathIn uploadDir file.nameText) = some contents

theorem WorksOn.unique {own : Option HashID} {net : UploadNetwork} {disk : Disk} {node : Node}
    {file : FileMagnet} {fuel : ℕ} {found found' : LookupResult} {contents contents' : List UInt8}
    (h : WorksOn own net disk node file fuel found contents)
    (h' : WorksOn own net disk node file fuel found' contents') :
    found = found' ∧ contents = contents' :=
  ⟨Option.some.inj (h.lookup.symm.trans h'.lookup),
    Option.some.inj (h.contents_eq.symm.trans h'.contents_eq)⟩

theorem replicate_key (net : UploadNetwork) (contents : List UInt8) (outPeers : ℕ → Option Peer)
    (kv : KeyValuePair) : (replicate net contents outPeers kv).key = kv.key := by
  unfold replicate
  generalize List.range (kValue - 1) = is
  induction is generalizing kv with
  | nil => rfl
  | cons i is ih =>
      rw [List.foldl_cons, ih]
      split
      · rfl
      · split <;> rfl

variable {own : Option HashID} {primary : Option SockAddrIn} {disk : Disk} {node : Node}
  {file : FileMagnet} {fuel : ℕ} {up : Uploaded}

theorem handleRpcUpload_cases
    (h : (handleRpcUpload own primary net disk node file fuel).val = some up) :
    up.ret = -1 ∧ up.published = none ∨
      up.ret = 0 ∧ ∃ kv contents, Publishes own primary net disk node file fuel up kv contents := by
  unfold handleRpcUpload at h
  simp only [val_bind] at h
  split at h
  · cases h
  · next found hfound =>
      split_ifs at h with hfails
      · cases h
        exact Or.inl ⟨rfl, rfl⟩
      · split at h
        · cases h
          exact Or.inl ⟨rfl, rfl⟩
        · next contents hcontents =>
            cases h
            refine Or.inr ⟨rfl, _, contents, ⟨found, hfound, rfl⟩, hcontents, rfl, ?_, ?_, rfl⟩
            · exact owners_replicate _ _ _ _ _ _
            · exact replicate_key _ _ _ _

theorem Publishes.worksOn {kv : KeyValuePair} {contents : List UInt8}
    (h : Publishes own primary net disk node file fuel up kv contents) :
    ∃ found, WorksOn own net disk node file fuel found contents ∧ found.outPeers = up.outPeers := by
  obtain ⟨found, hfound, hout⟩ := h.lookup
  exact ⟨found, ⟨hfound, h.contents_eq⟩, hout⟩

theorem publishes_of_published {kv : KeyValuePair}
    (h : (handleRpcUpload own primary net disk node file fuel).val = some up)
    (hkv : up.published = some kv) :
    ∃ contents, Publishes own primary net disk node file fuel up kv contents := by
  rcases handleRpcUpload_cases h with ⟨-, hnone⟩ | ⟨-, kv', contents, hpub⟩
  · rw [hkv] at hnone
    cases hnone
  · have hsame := hpub.published
    rw [hkv] at hsame
    exact ⟨contents, Option.some.inj hsame ▸ hpub⟩

end Kademlia.Upload
