import Kademlia.Lookup.Ownership
import Kademlia.Protocol.Calls

/-!
The memory, the sockets and the files of uploads and downloads.

An exchange with a peer closes what it opens. So what a command leaks is what
its lookup leaks, and the peers of an upload whose file cannot be opened. Over
any number of commands nothing is released twice, and the leaks add up.
-/

namespace Kademlia.Commands

open Foundations Foundations.Traced Model Lookup Buckets

variable {held : Multiset (Handle Resource)}

/-! ### Exchanges -/

/-- Whatever it returns, the socket is closed, and the file is. -/
theorem downloadHttpFile_owns (session : HttpSession) (disk : Disk) (file : FileMagnet) :
    Owns (downloadHttpFileIn session disk file) held fun got held' =>
      got = downloadHttpFile session disk file ∧ (got.returns = true → held' = held) := by
  rw [downloadHttpFileIn, downloadHttpFile]
  split
  · exact Owns.pure ⟨rfl, fun _ => rfl⟩
  refine Owns.bind_acquire fun peerFd _ => ?_
  have hclose : ∀ got : GetResult, Owns (do
      Owning.release peerFd
      pure got) ({peerFd} + held) fun got' held' =>
        got' = got ∧ (got'.returns = true → held' = held) :=
    fun got => Owns.bind_release _ rfl (Owns.pure ⟨rfl, fun _ => rfl⟩)
  split
  · exact hclose _
  dsimp only
  split
  · exact hclose _
  split
  · exact hclose _
  generalize strcasestrPortable _ contentLengthName = field
  cases field with
  | none => exact hclose _
  | some field =>
      dsimp only
      split
      · exact hclose _
      split
      · exact hclose _
      refine Owns.bind_acquire fun newFile _ => ?_
      split
      · next hsilent =>
          refine Owns.pure ⟨rfl, fun hreturns => ?_⟩
          rw [hsilent] at hreturns
          cases hreturns
      · exact Owns.bind_release _ rfl (hclose _)

theorem downloadHttpFile_cases (session : HttpSession) (disk : Disk) (file : FileMagnet) :
    downloadHttpFile session disk file = ⟨-1, disk, true⟩ ∨
      ∃ received, downloadHttpFile session disk file = session.saved disk file received := by
  rw [downloadHttpFile]
  split
  · exact Or.inl rfl
  split
  · exact Or.inl rfl
  dsimp only
  split
  · exact Or.inl rfl
  split
  · exact Or.inl rfl
  generalize strcasestrPortable _ contentLengthName = field
  cases field with
  | none => exact Or.inl rfl
  | some field =>
      dsimp only
      split
      · exact Or.inl rfl
      split
      · exact Or.inl rfl
      · exact Or.inr ⟨_, rfl⟩

theorem downloadHttpFile_returns_of_ret {session : HttpSession} {disk : Disk}
    {file : FileMagnet} (h : (downloadHttpFile session disk file).ret = 0) :
    (downloadHttpFile session disk file).returns = true := by
  obtain hfailed | ⟨received, hsaved⟩ := downloadHttpFile_cases session disk file
  · rw [hfailed]
  · rw [hsaved, HttpSession.saved] at h ⊢
    have hstop : received.stop ≠ .failed := fun hstop => by
      rw [if_pos hstop] at h
      cases h
    rw [decide_eq_false hstop, Bool.and_false, Bool.not_false]

theorem downloadHttpFile_returns {session : HttpSession} (h : session.silent = false)
    (disk : Disk) (file : FileMagnet) :
    (downloadHttpFile session disk file).returns = true := by
  obtain hfailed | ⟨received, hsaved⟩ := downloadHttpFile_cases session disk file
  · rw [hfailed]
  · rw [hsaved, HttpSession.saved, h, Bool.false_and, Bool.not_false]

theorem uploadHttpFile_owns {peer : Option (Handle Resource)} {block : Handle Resource}
    (hpeer : ∀ a ∈ peer.toList, a ∈ held) (hblock : block ∈ held) (session : HttpSession)
    (contents : List UInt8) :
    Owns (uploadHttpFileIn session contents peer block) held fun put held' =>
      put = uploadHttpFile session contents ∧ held' = held := by
  rw [uploadHttpFileIn, uploadHttpFile]
  split
  · exact Owns.pure ⟨rfl, rfl⟩
  refine Owns.bind_useAll hpeer ?_
  split
  · exact Owns.pure ⟨rfl, rfl⟩
  refine Owns.bind_acquire fun sock _ => ?_
  have hclose : ∀ put : PutResult, Owns (do
      Owning.release sock
      pure put) ({sock} + held) fun put' held' => put' = put ∧ held' = held :=
    fun put => Owns.bind_release _ rfl (Owns.pure ⟨rfl, rfl⟩)
  split
  · exact hclose _
  refine Owns.bind_use (Multiset.mem_add.mpr (Or.inr hblock)) ?_
  split
  · exact hclose _
  dsimp only
  split
  · exact hclose _
  · exact hclose _

/-! ### Downloads -/

theorem tryOwners_owns {pointers : List (Handle Resource)} (hheld : ∀ a ∈ pointers, a ∈ held)
    (http : ℕ → Peer → HttpSession) (file : FileMagnet) (stopAt : Option HashID) (n : ℕ)
    (peers : List Peer) (disk : Disk) :
    Owns (tryOwnersIn http file stopAt n peers pointers disk) held fun tried held' =>
      tried = tryOwners http file stopAt n peers disk ∧
        (tried.returns = true → held' = held) := by
  induction peers generalizing n pointers disk with
  | nil => exact Owns.pure ⟨rfl, fun _ => rfl⟩
  | cons peer peers ih =>
      rw [tryOwnersIn, tryOwners]
      refine Owns.bind_useAll (fun a ha => hheld a (List.mem_of_mem_take ha)) ?_
      split
      · exact Owns.pure ⟨rfl, fun _ => rfl⟩
      refine Owns.bind (downloadHttpFile_owns _ _ _) ?_
      rintro _ held' ⟨rfl, hclosed⟩
      dsimp only
      split
      · next hret => exact Owns.pure ⟨rfl, fun _ => hclosed (downloadHttpFile_returns_of_ret hret)⟩
      split
      · exact Owns.pure ⟨rfl, fun hreturns => by cases hreturns⟩
      · next hreturns =>
          obtain rfl := hclosed (Bool.not_eq_false _ ▸ hreturns)
          refine Owns.bind (ih (fun a ha => hheld a (List.mem_of_mem_drop ha)) _ _) ?_
          rintro _ _ ⟨rfl, hover⟩
          exact Owns.pure ⟨rfl, hover⟩

theorem tryOwners_returns {http : ℕ → Peer → HttpSession}
    (h : ∀ n p, (http n p).silent = false) (file : FileMagnet) (stopAt : Option HashID) (n : ℕ)
    (peers : List Peer) (disk : Disk) :
    (tryOwners http file stopAt n peers disk).returns = true := by
  induction peers generalizing n disk with
  | nil => rfl
  | cons peer peers ih =>
      rw [tryOwners]
      dsimp only
      split
      · rfl
      · split
        · rfl
        · rw [if_neg (by rw [downloadHttpFile_returns (h n peer)]; exact Bool.noConfusion)]
          exact ih _ _

theorem returns_of_ended {tried : TriedOwners} (h : tried.ended.isSome = true) :
    tried.returns = true := by
  unfold TriedOwners.ended at h
  split at h
  · next hreturns => exact hreturns
  · cases h

theorem kValue_ne_zero : kValue ≠ 0 := by decide

def downloadLeaks (own : Option HashID) (lookup : Network) (node : Node) (file : FileMagnet)
    (fuel : ℕ) : Multiset Resource :=
  match own, storageGetValue node.storage file.fileHash with
  | some ownId, none =>
      let q : Search := ⟨some ownId, file.fileHash, kValue, true⟩
      (iterativeFindPeers q lookup node.buckets (fun _ => none) fuel).val.elim 0 (lookupLeaks q)
  | _, _ => 0

def LeavesOnly (held : Multiset (Handle Resource)) (leaks : Multiset Resource)
    (held' : Multiset (Handle Resource)) : Prop :=
  ∃ leaked : Multiset (Handle Resource), leaked.map Prod.fst = leaks ∧ held' = leaked + held

theorem LeavesOnly.refl : LeavesOnly held 0 held := ⟨0, rfl, (Multiset.zero_add _).symm⟩

theorem handleRpcDownload_owns (own : Option HashID) (lookup : Network)
    (http : ℕ → Peer → HttpSession) (disk : Disk) (node : Node) (file : FileMagnet)
    (fuel : ℕ) :
    Owns (handleRpcDownloadIn own lookup http disk node file fuel) held fun tried held' =>
      tried = (handleRpcDownload own lookup http disk node file fuel).val ∧
        (tried.isSome → LeavesOnly held (downloadLeaks own lookup node file fuel) held') := by
  cases own with
  | none => exact Owns.pure ⟨rfl, fun _ => LeavesOnly.refl⟩
  | some ownId =>
      rw [handleRpcDownloadIn, handleRpcDownload]
      unfold downloadLeaks
      cases hstored : storageGetValue node.storage file.fileHash with
      | some kvp =>
          dsimp only
          refine Owns.bind (tryOwners_owns (fun _ ha => absurd ha List.not_mem_nil) _ _ _ _ _ _) ?_
          rintro tried held' ⟨rfl, hclosed⟩
          refine Owns.pure ⟨rfl, fun hover => ?_⟩
          rw [hclosed (returns_of_ended hover)]
          exact LeavesOnly.refl
      | none =>
          dsimp only
          refine Owns.bind (iterativeFindPeers_owns ?_ _ _ _ _) ?_
          · exact kValue_ne_zero
          rintro found _ ⟨hval, hover⟩
          rw [val_bind, ← hval]
          cases found with
          | none => exact Owns.pure ⟨rfl, fun hsome => by cases hsome⟩
          | some found =>
              obtain ⟨result, pointers⟩ := found
              obtain ⟨⟨leaked, hkinds, rfl⟩, hgives⟩ := hover result pointers rfl
              dsimp only [Option.map_some, Option.elim_some]
              split
              · next hret =>
                  rw [hgives.none hret.ne]
                  refine Owns.pure ⟨rfl, fun _ => ⟨leaked, hkinds, ?_⟩⟩
                  rw [Multiset.coe_nil, Multiset.zero_add]
              · refine Owns.bind (tryOwners_owns (fun a ha => ?_) _ _ _ _ _ _) ?_
                · rw [Multiset.add_assoc]
                  exact Multiset.mem_add.mpr (Or.inl ha)
                rintro tried _ ⟨rfl, hclosed⟩
                rw [val_pure, TriedOwners.ended]
                split
                · next hsilent =>
                    rw [if_neg (by rw [hsilent]; exact Bool.false_ne_true)]
                    exact Owns.pure ⟨rfl, fun hsome => by cases hsome⟩
                · next hreturns =>
                    have hover := Bool.not_eq_false _ ▸ hreturns
                    obtain rfl := hclosed hover
                    rw [if_pos hover]
                    refine Owns.bind_releaseAll (leaked + held) (Multiset.add_assoc _ _ _) ?_
                    exact Owns.pure ⟨rfl, fun _ => ⟨leaked, hkinds, rfl⟩⟩

/-! ### Uploads -/

theorem foldl_append_toList {α : Type} (f : ℕ → Option α) (is : List ℕ) (front : List α) :
    is.foldl (fun front i => front ++ (f i).toList) front = front ++ is.filterMap f := by
  induction is generalizing front with
  | nil => rw [List.foldl_nil, List.filterMap_nil, List.append_nil]
  | cons i is ih =>
      rw [List.foldl_cons, ih, List.append_assoc]
      cases hi : f i with
      | none => rw [List.filterMap_cons_none hi, Option.toList_none, List.nil_append]
      | some a => rw [List.filterMap_cons_some hi, Option.toList_some, List.singleton_append]

section Upload

variable {pointers : List (Handle Resource)} (hpointers : ∀ a ∈ pointers, a ∈ held)
  (net : UploadNetwork) (outPeers : ℕ → Option Peer)
include hpointers

theorem mem_getElem?_toList {i : ℕ} : ∀ a ∈ pointers[i]?.toList, a ∈ held := fun a ha =>
  hpointers a (List.mem_of_getElem? (Option.mem_toList.mp ha))

theorem replicate_owns {block : Handle Resource} (hblock : block ∈ held)
    (contents : List UInt8) (kv : KeyValuePair) :
    Owns (replicateIn net contents outPeers pointers block kv) held fun kv' held' =>
      kv' = replicate net contents outPeers kv ∧ held' = held := by
  refine Owns.foldlM _ (fun kv kv' held' => kv' = kv ∧ held' = held) _ ⟨rfl, rfl⟩ ?_
  rintro kv _ _ i ⟨rfl, rfl⟩
  cases outPeers i with
  | none => exact Owns.pure ⟨rfl, rfl⟩
  | some peer =>
      refine Owns.bind (uploadHttpFile_owns (mem_getElem?_toList hpointers) hblock _ _) ?_
      rintro _ _ ⟨rfl, rfl⟩
      dsimp only
      split
      · exact Owns.pure ⟨rfl, rfl⟩
      · exact Owns.bind_useAll (mem_getElem?_toList hpointers) (Owns.pure ⟨rfl, rfl⟩)

theorem publish_owns :
    Owns (publishIn net outPeers pointers) held fun stored held' =>
      stored = ((List.range kValue).filterMap fun i =>
        (outPeers i).filter (net.storeConnects i)) ∧ held' = held := by
  rw [← List.nil_append (List.filterMap _ _), ← foldl_append_toList]
  refine Owns.foldlM _ (fun stored stored' held' => stored' = stored ∧ held' = held) _
    ⟨rfl, rfl⟩ ?_
  rintro stored _ _ i ⟨rfl, rfl⟩
  cases outPeers i with
  | none => exact Owns.pure ⟨(List.append_nil _).symm, rfl⟩
  | some peer =>
      refine Owns.bind_useAll (mem_getElem?_toList hpointers) ?_
      cases hconnects : net.storeConnects i peer with
      | false =>
          refine Owns.pure ⟨?_, rfl⟩
          rw [Option.filter_some, if_neg (by rw [hconnects]; exact Bool.false_ne_true)]
          exact (List.append_nil _).symm
      | true =>
          refine Owns.bind_acquire fun sock _ => Owns.bind_release _ rfl (Owns.pure ⟨?_, rfl⟩)
          rw [Option.filter_some, if_pos hconnects, Option.toList_some]

end Upload

/-- What an upload leaks for good: what its lookup leaks, and the peers that were found when the
file cannot be opened. -/
def uploadLeaks (own : Option HashID) (net : UploadNetwork) (disk : Disk) (node : Node)
    (file : FileMagnet) (fuel : ℕ) : Multiset Resource :=
  let q : Search := ⟨own, file.fileHash, kValue, false⟩
  (iterativeFindPeers q net.lookup node.buckets (fun _ => none) fuel).val.elim 0 fun found =>
    lookupLeaks q found + if (disk (pathIn uploadDir file.nameText)).isSome then 0
      else Multiset.replicate (min kValue found.last.pending.size) .block

theorem handleRpcUpload_owns (own : Option HashID) (primary : Option SockAddrIn)
    (net : UploadNetwork) (disk : Disk) (node : Node) (file : FileMagnet) (fuel : ℕ) :
    Owns (handleRpcUploadIn own primary net disk node file fuel) held fun uploaded held' =>
      uploaded = (handleRpcUpload own primary net disk node file fuel).val ∧
        (uploaded.isSome → LeavesOnly held (uploadLeaks own net disk node file fuel) held') := by
  rw [handleRpcUploadIn, handleRpcUpload, uploadLeaks]
  refine Owns.bind (iterativeFindPeers_owns ?_ _ _ _ _) ?_
  · exact kValue_ne_zero
  rintro found _ ⟨hval, hover⟩
  rw [val_bind, ← hval]
  cases found with
  | none => exact Owns.pure ⟨rfl, fun hsome => by cases hsome⟩
  | some found =>
      obtain ⟨result, pointers⟩ := found
      obtain ⟨⟨leaked, hkinds, rfl⟩, hgives⟩ := hover result pointers rfl
      dsimp only [Option.map_some, Option.elim_some]
      rw [if_neg (not_not.mpr (hgives.ret rfl))]
      cases hfile : disk (pathIn uploadDir file.nameText) with
      | none =>
          -- the peers are lost with what the lookup leaked
          refine Owns.pure ⟨?_, fun _ => ⟨pointers + leaked, ?_, rfl⟩⟩
          · rw [if_neg (not_not.mpr (hgives.ret rfl))]
            rfl
          · rw [Multiset.map_add, Multiset.map_coe, hgives.kinds rfl, hkinds, Multiset.add_comm]
            rfl
      | some contents =>
          dsimp only
          refine Owns.bind_acquire fun fileHandle _ => Owns.bind_acquire fun fileContents _ => ?_
          refine Owns.bind_release ({fileContents} + (pointers + leaked + held)) ?_ ?_
          · abel
          have hpointers : ∀ a ∈ pointers, a ∈ {fileContents} + (pointers + leaked + held) := by
            intro a ha
            simp [ha]
          have hblock : fileContents ∈ {fileContents} + (pointers + leaked + held) := by simp
          refine Owns.bind (replicate_owns hpointers net _ hblock contents _) ?_
          rintro _ _ ⟨rfl, rfl⟩
          refine Owns.bind (publish_owns hpointers net _) ?_
          rintro _ _ ⟨rfl, rfl⟩
          refine Owns.bind_releaseAll ({fileContents} + (leaked + held)) ?_ ?_
          · abel
          refine Owns.bind_release _ rfl (Owns.pure ⟨?_, fun _ => ⟨leaked, ?_, rfl⟩⟩)
          · rw [if_neg (not_not.mpr (hgives.ret rfl))]
            rfl
          · rw [hkinds]
            exact (Multiset.add_zero _).symm

/-! ### One command after the other -/

def callOver (fuel : ℕ) : ClientCall → Bool
  | .upload own primary net disk node file =>
      (handleRpcUpload own primary net disk node file fuel).val.isSome
  | .download own lookup http disk node file =>
      (handleRpcDownload own lookup http disk node file fuel).val.isSome

def callLeaks (fuel : ℕ) : ClientCall → Multiset Resource
  | .upload own _ net disk node file => uploadLeaks own net disk node file fuel
  | .download own lookup _ _ node file => downloadLeaks own lookup node file fuel

theorem serve_owns (fuel : ℕ) (call : ClientCall) :
    Owns (call.serve fuel) held fun finished held' =>
      finished = callOver fuel call ∧
        (finished = true → LeavesOnly held (callLeaks fuel call) held') := by
  cases call with
  | upload own primary net disk node file =>
      refine Owns.bind (handleRpcUpload_owns own primary net disk node file fuel) ?_
      rintro uploaded held' ⟨rfl, hleaves⟩
      exact Owns.pure ⟨rfl, hleaves⟩
  | download own lookup http disk node file =>
      refine Owns.bind (handleRpcDownload_owns own lookup http disk node file fuel) ?_
      rintro tried held' ⟨rfl, hleaves⟩
      exact Owns.pure ⟨rfl, hleaves⟩

theorem serveAll_owns (fuel : ℕ) (calls : List ClientCall) :
    Owns (serveAll fuel calls) held fun finished held' =>
      finished = calls.all (callOver fuel) ∧
        (finished = true → LeavesOnly held ((calls.map (callLeaks fuel)).sum) held') := by
  induction calls generalizing held with
  | nil => exact Owns.pure ⟨rfl, fun _ => LeavesOnly.refl⟩
  | cons call calls ih =>
      refine Owns.bind (serve_owns fuel call) ?_
      rintro finished held' ⟨hover, hleaves⟩
      cases finished with
      | false =>
          refine Owns.pure ⟨?_, fun hfalse => by cases hfalse⟩
          rw [List.all_cons, ← hover, Bool.false_and]
      | true =>
          obtain ⟨leaked, hkinds, rfl⟩ := hleaves rfl
          refine Owns.mono ih ?_
          rintro finished _ ⟨rfl, hrest⟩
          refine ⟨by rw [List.all_cons, ← hover, Bool.true_and], fun hfinished => ?_⟩
          obtain ⟨leaked', hkinds', rfl⟩ := hrest hfinished
          refine ⟨leaked' + leaked, ?_, (Multiset.add_assoc _ _ _).symm⟩
          rw [Multiset.map_add, hkinds, hkinds', List.map_cons, List.sum_cons, Multiset.add_comm]

/-- No peer stays silent for ever in the midst of a file that it sends. -/
def Ends : ClientCall → Prop
  | .upload .. => True
  | .download _ _ http _ _ _ => ∀ n p, (http n p).silent = false

theorem tryOwners_ended {http : ℕ → Peer → HttpSession} (h : ∀ n p, (http n p).silent = false)
    (file : FileMagnet) (stopAt : Option HashID) (n : ℕ) (peers : List Peer) (disk : Disk) :
    (tryOwners http file stopAt n peers disk).ended.isSome = true := by
  rw [TriedOwners.ended, if_pos (tryOwners_returns h file stopAt n peers disk)]
  rfl

theorem exists_callOver {call : ClientCall} (h : Ends call) :
    ∃ bound, ∀ fuel, bound ≤ fuel → callOver fuel call = true := by
  cases call with
  | upload own primary net disk node file =>
      obtain ⟨bound, hbound⟩ := iterativeFindPeers_isSome ⟨own, file.fileHash, kValue, false⟩
        net.lookup node.buckets (fun _ => none)
      refine ⟨bound, fun fuel hfuel => ?_⟩
      obtain ⟨found, hfound⟩ := Option.isSome_iff_exists.mp (hbound fuel hfuel)
      rw [callOver, handleRpcUpload, val_bind, hfound]
      dsimp only
      split
      · rfl
      · split <;> rfl
  | download own lookup http disk node file =>
      obtain ⟨bound, hbound⟩ := iterativeFindPeers_isSome ⟨own, file.fileHash, kValue, true⟩
        lookup node.buckets (fun _ => none)
      refine ⟨bound, fun fuel hfuel => ?_⟩
      obtain ⟨found, hfound⟩ := Option.isSome_iff_exists.mp (hbound fuel hfuel)
      rw [callOver]
      cases own with
      | none => rfl
      | some ownId =>
          rw [handleRpcDownload]
          split
          · exact tryOwners_ended h _ _ _ _ _
          · rw [val_bind, hfound]
            dsimp only
            split
            · rfl
            · exact tryOwners_ended h _ _ _ _ _

theorem exists_all_callOver {calls : List ClientCall} (h : ∀ call ∈ calls, Ends call) :
    ∃ bound, ∀ fuel, bound ≤ fuel → calls.all (callOver fuel) = true := by
  induction calls with
  | nil => exact ⟨0, fun _ _ => rfl⟩
  | cons call calls ih =>
      obtain ⟨bound, hbound⟩ := exists_callOver (h call List.mem_cons_self)
      obtain ⟨bounds, hbounds⟩ := ih fun c hc => h c (List.mem_cons_of_mem _ hc)
      refine ⟨max bound bounds, fun fuel hfuel => ?_⟩
      rw [List.all_cons, hbound fuel ((le_max_left _ _).trans hfuel),
        hbounds fuel ((le_max_right _ _).trans hfuel)]
      rfl

theorem live_sdiff {ledger : Ledger Resource} {base : Finset (Handle Resource)}
    (h : Holds ledger base held) : (ledger.live \ base).val = held := by
  refine (Multiset.Nodup.ext (ledger.live \ base).nodup h.nodup).mpr fun a => ?_
  rw [Finset.mem_val, Finset.mem_sdiff, h.live_iff]
  constructor
  · rintro ⟨hbase | hheld, hnot⟩
    · exact absurd hbase hnot
    · exact hheld
  · exact fun hheld => ⟨Or.inr hheld, h.apart a hheld⟩

def onePeerNode : Node :=
  ⟨Storage.empty, (updateBucketPeers (some (sparseID 1 0)) Model.Buckets.empty
    ⟨sparseID 2 0, zeroAddr⟩).val⟩

def lostCalls : List ClientCall :=
  [.download (some (sparseID 1 0)) (fun _ _ => none) Protocol.noNetwork.put Disk.empty
      onePeerNode Protocol.namedFile,
    .upload (some (sparseID 1 0)) none Protocol.noNetwork Disk.empty onePeerNode
      Protocol.namedFile]

theorem lostCalls_end : ∀ call ∈ lostCalls, Ends call := by
  intro call hcall
  fin_cases hcall
  · exact fun _ _ => rfl
  · exact trivial

def noLedger : Ledger Resource := ⟨∅, 0, true⟩

example : (serveAll 8 lostCalls noLedger).2.live.val.map Prod.fst =
    {Resource.block, Resource.block} := by decide +kernel

end Kademlia.Commands
