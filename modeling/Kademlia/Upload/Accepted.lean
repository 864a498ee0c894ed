import Kademlia.Lookup.Uniqueness
import Kademlia.Upload.Entry

/-!
Replicas that refused the file.

`upload_http_file` reads the status of the response, and logs it. What it
returns does not depend on it, so a peer that answers with an error is
published as an owner.
-/

namespace Kademlia.Upload

open Foundations CString Source Model Framing Buckets Lookup

/-- The PUT was answered with a status code in 200..299. -/
structure Answered2xx (session : HttpSession) : Prop where
  response : GotResponse session
  status : ∃ code, statusOf session.reply = some code ∧ 200 ≤ code ∧ code < 300

/-- Each published owner other than ourselves answered its PUT with a status code
in 200..299. -/
def ListedAccepted (own : Option HashID) (primary : Option SockAddrIn) (net : UploadNetwork)
    (up : Uploaded) (kv : KeyValuePair) : Prop :=
  ∀ peer ∈ owners kv, peer.peerId ≠ (createOwnPeer own primary).peerId →
    ∃ i < kValue - 1, up.outPeers i = some peer ∧ Answered2xx (net.put i peer)

variable {own : Option HashID} {primary : Option SockAddrIn} {net : UploadNetwork} {disk : Disk}
  {node : Node} {file : FileMagnet} {fuel : ℕ} {up : Uploaded} {kv : KeyValuePair}

/-- The published owners answered with a status code in 200..299 exactly when no
peer sends another response to each of its PUTs. -/
theorem listedAccepted_iff
    (h : (handleRpcUpload own primary net disk node file fuel).val = some up)
    (hkv : up.published = some kv) :
    ListedAccepted own primary net up kv ↔
      ∀ found contents, WorksOn own net disk node file fuel found contents →
        ∀ i peer, Replicated net contents found.outPeers i peer →
          peer.peerId ≠ (createOwnPeer own primary).peerId →
          ∃ j < kValue - 1, found.outPeers j = some peer ∧ Answered2xx (net.put j peer) := by
  obtain ⟨contents, hpub⟩ := publishes_of_published h hkv
  obtain ⟨found, hworks, hout⟩ := hpub.worksOn
  unfold ListedAccepted
  rw [hpub.owners_eq, ← hout]
  constructor
  · intro hlisted found' contents' hworks' i peer hreplicated hother
    obtain ⟨rfl, rfl⟩ := hworks.unique hworks'
    have hmem := mem_replicas_iff.mpr ⟨i, hreplicated⟩
    exact hlisted peer (List.mem_cons_of_mem _ hmem) hother
  · intro haccepted peer hpeer hother
    rcases List.mem_cons.mp hpeer with rfl | hpeer
    · exact absurd rfl hother
    · obtain ⟨i, hreplicated⟩ := mem_replicas_iff.mp hpeer
      exact haccepted found contents hworks i peer hreplicated hother

/-- A peer that takes the request and answers with `text`. -/
def answeredWith (text : List UInt8) : HttpSession :=
  ⟨true, true, true, Source.unread text [], FileOps.ordinary, false⟩

/-- No peer can be asked for others, and each one answers its PUT with `text`. -/
def answeringNetwork (text : List UInt8) : UploadNetwork where
  lookup _ _ := none
  put _ _ := answeredWith text
  storeConnects _ _ := true

/-- The node with id zero, which knows `peers`, uploads a file of one byte. -/
def oneByteUpload (text : List UInt8) (peers : List Peer) : Option Uploaded :=
  (handleRpcUpload (some (sparseID 0 0)) none (answeringNetwork text) ⟨[], fun _ => some [1]⟩
    ⟨Storage.empty, tableOf peers⟩ ⟨sparseID 1 0, some (ascii "a"), 1⟩ 20).val

/-- One peer, which stores the file. -/
theorem listedAccepted_iff_created :
    ∃ up kv, oneByteUpload fileCreated [sparsePeer 1 1] = some up ∧ up.published = some kv ∧
      (ListedAccepted (some (sparseID 0 0)) none (answeringNetwork fileCreated) up kv ↔
        ∀ found contents, WorksOn (some (sparseID 0 0)) (answeringNetwork fileCreated)
            ⟨[], fun _ => some [1]⟩ ⟨Storage.empty, tableOf [sparsePeer 1 1]⟩
            ⟨sparseID 1 0, some (ascii "a"), 1⟩ 20 found contents →
          ∀ i peer, Replicated (answeringNetwork fileCreated) contents found.outPeers i peer →
            peer.peerId ≠ (createOwnPeer (some (sparseID 0 0)) none).peerId →
            ∃ j < kValue - 1, found.outPeers j = some peer ∧
              Answered2xx ((answeringNetwork fileCreated).put j peer)) := by
  have hsome : ((oneByteUpload fileCreated [sparsePeer 1 1]).bind Uploaded.published).isSome := by
    decide
  obtain ⟨kv, hkv⟩ := Option.isSome_iff_exists.mp hsome
  obtain ⟨up, hup, hkv⟩ := Option.bind_eq_some_iff.mp hkv
  exact ⟨up, kv, hup, hkv, listedAccepted_iff hup hkv⟩

/-- One peer, which answers with an error and is listed. -/
theorem serverError_not_listedAccepted :
    ∃ up kv, oneByteUpload internalServerError [sparsePeer 1 1] = some up ∧
      up.published = some kv ∧
      ¬ ListedAccepted (some (sparseID 0 0)) none (answeringNetwork internalServerError) up kv := by
  have howners : ((oneByteUpload internalServerError [sparsePeer 1 1]).bind
      Uploaded.published).map owners =
        some [ownEntry (some (sparseID 0 0)) none, sparsePeer 1 1] := by
    decide +kernel
  obtain ⟨kv, hkv, howners⟩ := Option.map_eq_some_iff.mp howners
  obtain ⟨up, hup, hkv⟩ := Option.bind_eq_some_iff.mp hkv
  refine ⟨up, kv, hup, hkv, fun hlisted => ?_⟩
  obtain ⟨i, -, -, hanswered⟩ := hlisted (sparsePeer 1 1) (by simp [howners]) (by decide)
  obtain ⟨code, hcode, -, hlt⟩ := hanswered.status
  have hstatus : statusOf (answeredWith internalServerError).reply = some 500 := by
    decide +kernel
  change statusOf (answeredWith internalServerError).reply = some code at hcode
  rw [hstatus] at hcode
  obtain rfl := Option.some.inj hcode
  exact absurd hlt (by decide)

end Kademlia.Upload
