import Kademlia.Lookup.FindNode
import Kademlia.Lookup.Termination
import Kademlia.Upload.Entry

/-!
What an upload leaves behind when it fails, and what a download makes of it.

The key is put into the storage in front of everything that can fail, and no exit
takes it out again. A download asks the owners in the order of the entry until it
is at our own, so only what stands in front of that decides whether it connects.
-/

namespace Kademlia.Upload

open Foundations Foundations.Traced CString Model Lookup

/-! ### Uploads that fail -/

/-- The upload returns, and a negative result leaves the storage as it was. -/
def FailsCleanly (own : Option HashID) (primary : Option SockAddrIn) (net : UploadNetwork)
    (disk : Disk) (node : Node) (file : FileMagnet) : Prop :=
  ∃ bound, ∀ fuel, bound ≤ fuel → ∃ up,
    (handleRpcUpload own primary net disk node file fuel).val = some up ∧
      (up.ret < 0 → up.node.storage = node.storage)

variable {own : Option HashID} {primary : Option SockAddrIn} {net : UploadNetwork} {disk : Disk}
  {node : Node} {file : FileMagnet}

variable (own primary net disk node file) in
/-- Every upload comes to its end, with the key in the storage. It fails only where the file
cannot be opened: the lookup may find nothing, but it does not fail. -/
theorem exists_uploaded :
    ∃ bound, ∀ fuel, bound ≤ fuel → ∃ up,
      (handleRpcUpload own primary net disk node file fuel).val = some up ∧
        up.node.storage =
          storagePutValue node.storage (uploadEntry file.fileHash (createOwnPeer own primary)) ∧
        up.ret = if disk (pathIn uploadDir file.nameText) = none then -1 else 0 := by
  obtain ⟨bound, hbound⟩ := iterativeFindPeers_isSome ⟨own, file.fileHash, kValue, false⟩
    net.lookup node.buckets fun _ => none
  refine ⟨bound, fun fuel hfuel => ?_⟩
  obtain ⟨found, hfound⟩ := Option.isSome_iff_exists.mp (hbound fuel hfuel)
  have hret : ¬ found.ret ≠ 0 := not_not.mpr (findNodeResult_of_some (by decide) hfound).ret
  rw [handleRpcUpload]
  simp only [val_bind, hfound, if_neg hret]
  cases disk (pathIn uploadDir file.nameText) with
  | none => exact ⟨_, rfl, rfl, rfl⟩
  | some contents => exact ⟨_, rfl, rfl, rfl⟩

theorem storagePutValue_uploadEntry {storage : Storage} {fileHash : HashID}
    (h : storage fileHash = none) (self : Peer) :
    storagePutValue storage (uploadEntry fileHash self) fileHash =
      some (uploadEntry fileHash self) := by
  have hkey : (uploadEntry fileHash self).key = fileHash := rfl
  rw [storagePutValue_apply, h, Option.none_or, if_pos hkey]

theorem storagePutValue_uploadEntry_eq_iff (storage : Storage) (fileHash : HashID) (self : Peer) :
    storagePutValue storage (uploadEntry fileHash self) = storage ↔ storage fileHash ≠ none := by
  cases hentry : storage fileHash with
  | some kvp => exact iff_of_true (storagePutValue_of_some hentry) (Option.some_ne_none kvp)
  | none =>
      refine iff_of_false (fun h => ?_) (not_not.mpr rfl)
      have hput := congrFun h fileHash
      rw [storagePutValue_uploadEntry hentry, hentry] at hput
      cases hput

/-- Where the file cannot be opened, the storage is kept only if the put does nothing. -/
theorem FailsCleanly.storage_eq (h : FailsCleanly own primary net disk node file)
    (hfile : disk (pathIn uploadDir file.nameText) = none) :
    storagePutValue node.storage (uploadEntry file.fileHash (createOwnPeer own primary)) =
      node.storage := by
  obtain ⟨bound, hclean⟩ := h
  obtain ⟨bound', hbound'⟩ := exists_uploaded own primary net disk node file
  obtain ⟨up, hup, hkept⟩ := hclean _ (le_max_left bound bound')
  obtain ⟨up', hup', hstorage, hret⟩ := hbound' _ (le_max_right bound bound')
  rw [hup, Option.some.injEq] at hup'
  subst hup'
  rw [if_pos hfile] at hret
  exact hstorage.symm.trans (hkept (hret ▸ by decide))

/-- The storage is kept by a failing upload where it has the key already, and an upload fails
only where the file cannot be opened. -/
theorem failsCleanly_iff (own : Option HashID) (primary : Option SockAddrIn) (net : UploadNetwork)
    (disk : Disk) (node : Node) (file : FileMagnet) :
    FailsCleanly own primary net disk node file ↔
      node.storage file.fileHash ≠ none ∨ disk (pathIn uploadDir file.nameText) ≠ none := by
  rw [← storagePutValue_uploadEntry_eq_iff _ _ (createOwnPeer own primary)]
  constructor
  · intro h
    by_cases hfile : disk (pathIn uploadDir file.nameText) = none
    · exact Or.inl (h.storage_eq hfile)
    · exact Or.inr hfile
  · intro h
    obtain ⟨bound, hbound⟩ := exists_uploaded own primary net disk node file
    refine ⟨bound, fun fuel hfuel => ?_⟩
    obtain ⟨up, hup, hstorage, hret⟩ := hbound fuel hfuel
    refine ⟨up, hup, fun hneg => hstorage.trans (h.resolve_right fun hfile => ?_)⟩
    rw [hret, if_neg hfile] at hneg
    exact absurd hneg (by decide)

/-- The upload of a file that is not there, by a node that knows nobody. -/
theorem not_failsCleanly_noFile :
    ¬ FailsCleanly (some (List.Vector.replicate 32 1)) none
      ⟨fun _ _ => none, fun _ _ => ⟨false, false, false, [], .ordinary, false⟩, fun _ _ => false⟩
      .empty ⟨Storage.empty, Buckets.empty⟩ ⟨zeroBytes 32, some (ascii "a"), 1⟩ := by
  intro h
  exact (storagePutValue_uploadEntry_eq_iff _ _ _).mp (h.storage_eq rfl) rfl

/-! ### Downloads -/

/-- Our own id is in one of the slots that the entry counts. -/
def ListsOwn (ownId : HashID) (kvp : KeyValuePair) : Prop :=
  ∃ i : Fin kValue, i.val < kvp.numValues ∧ (kvp.values i).peerId = ownId

/-- None of the peers that are tried one after the other, from the attempt `n` on, is
connected to. -/
def Refused (http : ℕ → Peer → HttpSession) (n : ℕ) (peers : List Peer) : Prop :=
  ∀ i peer, peers[i]? = some peer → (http (n + i) peer).connected = false

/-- The download returns 0, and no connection to a peer comes about on the way. -/
def NoRedownload (own : Option HashID) (lookup : Network) (http : ℕ → Peer → HttpSession)
    (disk : Disk) (node : Node) (file : FileMagnet) (fuel : ℕ) : Prop :=
  ∃ tried, (handleRpcDownload own lookup http disk node file fuel).val = some tried ∧
    tried.ret = 0 ∧ Refused http 0 tried.contacted

/-- The owners in front of our first entry. -/
def ownersBefore (ownId : HashID) (peers : List Peer) : List Peer :=
  peers.takeWhile fun peer => peer.peerId ≠ ownId

theorem refused_cons {http : ℕ → Peer → HttpSession} {n : ℕ} {peer : Peer} {peers : List Peer} :
    Refused http n (peer :: peers) ↔
      (http n peer).connected = false ∧ Refused http (n + 1) peers := by
  constructor
  · intro h
    refine ⟨h 0 peer rfl, fun i p hp => ?_⟩
    rw [Nat.add_assoc, Nat.add_comm 1]
    exact h (i + 1) p hp
  · rintro ⟨hfirst, hrest⟩ i p hp
    cases i with
    | zero =>
        rw [List.getElem?_cons_zero, Option.some.injEq] at hp
        exact hp ▸ hfirst
    | succ i =>
        rw [List.getElem?_cons_succ] at hp
        rw [Nat.add_comm i, ← Nat.add_assoc]
        exact hrest i p hp

theorem connected_of_downloadHttpFile {session : HttpSession}
    (h : (downloadHttpFile session disk file).ret = 0) : session.connected = true := by
  by_contra hnot
  rw [Bool.not_eq_true] at hnot
  rw [downloadHttpFile, if_pos hnot] at h
  cases h

theorem connected_of_not_returns {session : HttpSession}
    (h : (downloadHttpFile session disk file).returns = false) : session.connected = true := by
  by_contra hnot
  rw [Bool.not_eq_true] at hnot
  rw [downloadHttpFile, if_pos hnot] at h
  cases h

/-- The loop ends with success at our entry at the latest, and connects in front of it unless
all refuse. -/
theorem tryOwners_own_iff {ownId : HashID} (http : ℕ → Peer → HttpSession) (file : FileMagnet)
    {peers : List Peer} (hown : ∃ peer ∈ peers, peer.peerId = ownId) (n : ℕ) (disk : Disk) :
    ((tryOwners http file (some ownId) n peers disk).ret = 0 ∧
        Refused http n (tryOwners http file (some ownId) n peers disk).contacted) ↔
      Refused http n (ownersBefore ownId peers) := by
  induction peers generalizing n disk with
  | nil => exact absurd hown (by simp)
  | cons peer peers ih =>
      by_cases hpeer : peer.peerId = ownId
      · have hbefore : ownersBefore ownId (peer :: peers) = [] :=
          List.takeWhile_cons_of_neg (by simpa using hpeer)
        rw [tryOwners, if_pos (congrArg some hpeer.symm), hbefore]
        exact and_iff_right rfl
      · have hbefore : ownersBefore ownId (peer :: peers) = peer :: ownersBefore ownId peers :=
          List.takeWhile_cons_of_pos (by simpa using hpeer)
        rw [tryOwners, if_neg fun heq => hpeer (Option.some.inj heq).symm, hbefore, refused_cons]
        dsimp only
        by_cases hgot : (downloadHttpFile (http n peer) disk file).ret = 0
        · have hconnected := connected_of_downloadHttpFile hgot
          rw [if_pos hgot, and_iff_right rfl, refused_cons, hconnected]
          refine iff_of_false (fun h => ?_) fun h => ?_
          · cases h.1
          · cases h.1
        · have hrest : ∃ peer ∈ peers, peer.peerId = ownId := by
            obtain ⟨found, hmem, hid⟩ := hown
            rcases List.mem_cons.mp hmem with rfl | hmem
            · exact absurd hid hpeer
            · exact ⟨found, hmem, hid⟩
          rw [if_neg hgot]
          split
          · next hsilent =>
              rw [connected_of_not_returns hsilent]
              refine iff_of_false (fun h => ?_) fun h => ?_
              · cases h.1
              · cases h.1
          · rw [refused_cons, and_left_comm, ih hrest]

theorem tryOwners_ended {http : ℕ → Peer → HttpSession} {stopAt : Option HashID} {n : ℕ}
    {peers : List Peer} (h : (tryOwners http file stopAt n peers disk).ret = 0) :
    (tryOwners http file stopAt n peers disk).ended =
      some (tryOwners http file stopAt n peers disk) := by
  rw [TriedOwners.ended, if_pos]
  induction peers generalizing n disk with
  | nil => rfl
  | cons peer peers ih =>
      rw [tryOwners] at h ⊢
      dsimp only at h ⊢
      split_ifs at h ⊢ with hstop hgot hsilent
      · rfl
      · rfl
      · cases h
      · exact ih h

variable {own : Option HashID} {kvp : KeyValuePair}

theorem ListsOwn.mem {ownId : HashID} (h : ListsOwn ownId kvp) :
    ∃ peer ∈ owners kvp, peer.peerId = ownId := by
  obtain ⟨i, hi, hid⟩ := h
  refine ⟨_, List.mem_map_of_mem (List.mem_range.mpr hi), ?_⟩
  rw [readSlot, dif_pos i.isLt]
  exact hid

/-- Our own files are left alone exactly where nobody in front of us can be connected to. -/
theorem noRedownload_iff {ownId : HashID} (hkvp : node.storage file.fileHash = some kvp)
    (hown : ListsOwn ownId kvp) (lookup : Network) (http : ℕ → Peer → HttpSession) (disk : Disk)
    (fuel : ℕ) :
    NoRedownload (some ownId) lookup http disk node file fuel ↔
      Refused http 0 (ownersBefore ownId (owners kvp)) := by
  rw [← tryOwners_own_iff http file hown.mem 0 disk]
  have hget : storageGetValue node.storage file.fileHash = some kvp := hkvp
  rw [NoRedownload, handleRpcDownload]
  simp only [hget]
  constructor
  · rintro ⟨tried, htried, hret, hrefused⟩
    obtain rfl := TriedOwners.eq_of_ended htried
    exact ⟨hret, hrefused⟩
  · intro h
    exact ⟨_, tryOwners_ended h.1, h⟩

/-- An entry with another owner in front of us, as a replica is given it. -/
def replicaEntry : KeyValuePair where
  key := zeroBytes 32
  numValues := 2
  values := writeSlot (fun _ => zeroPeer) 1 ⟨List.Vector.replicate 32 1, zeroAddr⟩

def replicaNode : Node :=
  ⟨Function.update Storage.empty (zeroBytes 32) (some replicaEntry), Buckets.empty⟩

theorem storage_replicaNode : replicaNode.storage (zeroBytes 32) = some replicaEntry := by
  simp [replicaNode]

/-- Everybody accepts connections and closes them. -/
def closingPeers (_ : ℕ) (_ : Peer) : HttpSession := ⟨true, true, true, [], .ordinary, false⟩

theorem listsOwn_replicaEntry : ListsOwn (List.Vector.replicate 32 1) replicaEntry :=
  ⟨⟨1, by decide⟩, by decide, rfl⟩

theorem noRedownload_iff_replicaEntry :
    NoRedownload (some (List.Vector.replicate 32 1)) (fun _ _ => none) closingPeers
        .empty replicaNode ⟨zeroBytes 32, some (ascii "a"), 1⟩ 0 ↔
      Refused closingPeers 0 (ownersBefore (List.Vector.replicate 32 1) (owners replicaEntry)) :=
  noRedownload_iff storage_replicaNode listsOwn_replicaEntry _ _ _ _

/-- The owner in front of us is connected to. -/
theorem not_noRedownload_replicaEntry :
    ¬ NoRedownload (some (List.Vector.replicate 32 1)) (fun _ _ => none) closingPeers
      .empty replicaNode ⟨zeroBytes 32, some (ascii "a"), 1⟩ 0 := by
  rintro ⟨tried, htried, -, hrefused⟩
  have hfirst : tried.contacted[0]? = some zeroPeer := by
    cases htried
    rfl
  cases hrefused 0 zeroPeer hfirst

/-! ### One behind the other -/

/-- After a failed upload of a new key every download of it takes the file for ours. -/
theorem download_after_failed_upload {ownId : HashID} {primary : Option SockAddrIn}
    {net : UploadNetwork} (hkey : node.storage file.fileHash = none)
    (hfile : disk (pathIn uploadDir file.nameText) = none) :
    ∃ bound, ∀ fuel, bound ≤ fuel → ∃ up,
      (handleRpcUpload (some ownId) primary net disk node file fuel).val = some up ∧ up.ret = -1 ∧
        ∀ lookup http saved fuel', ∃ tried,
          (handleRpcDownload (some ownId) lookup http saved up.node file fuel').val = some tried ∧
            tried.ret = 0 ∧ tried.contacted = [] ∧ tried.disk = saved := by
  obtain ⟨bound, hbound⟩ := exists_uploaded (some ownId) primary net disk node file
  refine ⟨bound, fun fuel hfuel => ?_⟩
  obtain ⟨up, hup, hstorage, hret⟩ := hbound fuel hfuel
  rw [if_pos hfile] at hret
  refine ⟨up, hup, hret, fun lookup http saved fuel' => ?_⟩
  have hget : storageGetValue up.node.storage file.fileHash =
      some (uploadEntry file.fileHash (createOwnPeer (some ownId) primary)) := by
    rw [hstorage]
    exact storagePutValue_uploadEntry hkey _
  have hstop : some ownId = some (ownEntry (some ownId) primary).peerId := rfl
  rw [handleRpcDownload]
  simp only [hget]
  rw [← owners, owners_uploadEntry, tryOwners, if_pos hstop]
  exact ⟨_, rfl, rfl, rfl, rfl⟩

end Kademlia.Upload
