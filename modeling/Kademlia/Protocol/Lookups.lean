import Kademlia.Lookup.FindNode
import Kademlia.Protocol.Sincerity

/-!
What a lookup learns from sincere packets.

A reply is read as the response that its call type names. The peers of a closest
list go into the table and the worklist, the owners of a value into `out_peers`;
the loops move peers between these, and add none.
-/

namespace Kademlia.Protocol

open Foundations Foundations.Source Foundations.Traced Foundations.Worklist Model Framing Buckets
  Lookup

variable {G : Peer → Prop} {uploads uploads' : List KeyValuePair} {packet : Packet}
  {s : LookupState} {q : Search}

/-! ### Replies -/

theorem RPCCallType.code_injective {kind kind' : RPCCallType} (h : kind.code = kind'.code) :
    kind = kind' := by
  have hsame := congrArg RPCCallType.ofCode h
  rw [RPCCallType.ofCode_code, RPCCallType.ofCode_code] at hsame
  exact Option.some.inj hsame

theorem Formed.mem_callTypes (h : Formed packet) {kind : RPCCallType}
    (hcode : (packetHeader packet).callType = kind.code) : kind ∈ callTypes packet := by
  obtain ⟨kind', hkind', hheader⟩ := h.header
  have hsame : kind.code = kind'.code := by
    rw [← hcode, hheader]
    rfl
  exact RPCCallType.code_injective hsame ▸ hkind'

theorem exists_of_findNodeResponse (h : RPCCallType.findNodeResponse ∈ callTypes packet) :
    ∃ r, packet = .response (.findNode r) := by
  rcases packet with packet | packet | packet | packet | packet | packet
  case response.findNode => exact ⟨packet, rfl⟩
  all_goals simp [callTypes] at h

theorem exists_of_findValueResponse (h : RPCCallType.findValueResponse ∈ callTypes packet) :
    ∃ r, packet = .response (.findValue r) := by
  rcases packet with packet | packet | packet | packet | packet | packet
  case response.findValue => exact ⟨packet, rfl⟩
  all_goals simp [callTypes] at h

/-! ### One reply -/

theorem SincereVars.hearPeer (h : SincereVars G s) {peer : Peer} (hpeer : G peer)
    (own : Option HashID) : SincereVars G (hearPeer own s peer).val := by
  have htable := genuine_update h.table hpeer own
  unfold Model.hearPeer
  simp only [val_bind]
  split
  · exact ⟨h.pending, htable, h.outPeers⟩
  · refine ⟨fun p hp => ?_, htable, h.outPeers⟩
    rcases List.mem_append.mp hp with hp | hp
    · exact h.pending p hp
    · obtain rfl := List.mem_singleton.mp hp
      exact hpeer

theorem SincereVars.hearPeers (h : SincereVars G s) {closest : ℕ → RPCPeer} {n : ℕ}
    (hheard : ∀ p ∈ heardPeers closest n, G p) (own : Option HashID) :
    SincereVars G (hearPeers own closest n s).val := by
  simp only [Model.hearPeers, val_bind, val_foldlM]
  induction n with
  | zero => exact h
  | succ n ih =>
      rw [heardPeers, List.range_succ, List.map_append] at hheard
      rw [List.range_succ, List.foldl_append]
      have hfront := ih fun p hp => hheard p (List.mem_append_left _ hp)
      exact hfront.hearPeer (hheard _ (List.mem_append_right _ (List.mem_singleton_self _))) own

theorem SincereVars.takeValue (h : SincereVars G s) {values : RPCKeyValue}
    (howners : ∀ p ∈ sentOwners values, G p) (maxPeers : ℕ) (kvp : KeyValuePair) :
    SincereVars G (takeValue maxPeers values kvp s).val := by
  rw [takeValue_val]
  refine ⟨h.pending, h.table, fun i p hp => ?_⟩
  change withOwners values maxPeers s.outPeers i = some p at hp
  unfold withOwners at hp
  split at hp
  · next hi =>
      obtain rfl := Option.some.inj hp
      exact howners _ (List.mem_map.mpr ⟨i, List.mem_range.mpr (by omega), rfl⟩)
  · exact h.outPeers i p hp

theorem SincereVars.handleReply (h : SincereVars G s) (hp : SincerePacket G uploads packet)
    (q : Search) (kvp : KeyValuePair) (m : Memory) :
    SincereVars G (handleReply q kvp (m.write 0 packet.bytes) s).val := by
  have hheader := hp.formed.header_write m
  have hgenuine := hp.genuine
  have hfits := hp.formed.fits
  have hcounts := hp.formed.counts
  cases hfind : q.findValue with
  | false =>
      rw [handleReply_findNode hfind, hheader]
      split
      · next hcode =>
          obtain ⟨r, rfl⟩ := exists_of_findNodeResponse (hp.formed.mem_callTypes hcode)
          have hsame : (m.write 0 (Packet.response (.findNode r)).bytes).rpcFindNodeResponse = r :=
            rpcFindNodeResponse_write m hfits (lt_of_le_kValue hcounts)
          have hheard := heardPeers_slot (m.write 0 (Packet.response (.findNode r)).bytes) 22 hcounts
          have hclosest := congrArg RPCFindNodeResponse.closest hsame
          change (m.write 0 (Packet.response (.findNode r)).bytes).peers 22 = r.closest at hclosest
          rw [hsame]
          refine h.hearPeers (fun p hp => hgenuine p ?_) q.own
          rw [carriedPeers, ← hclosest, ← hheard]
          exact hp
      · exact h
  | true =>
      rw [handleReply_findValue hfind, hheader]
      split
      · next hcode =>
          obtain ⟨r, rfl⟩ := exists_of_findValueResponse (hp.formed.mem_callTypes hcode)
          have hsame :
              (m.write 0 (Packet.response (.findValue r)).bytes).rpcFindValueResponse = r :=
            rpcFindValueResponse_write m hfits (lt_of_le_kValue hcounts.1)
              (lt_of_le_kValue hcounts.2)
          have hheard := heardPeers_slot (m.write 0 (Packet.response (.findValue r)).bytes)
            (14 + sizeofKeyValue + 8) hcounts.2
          have hclosest := congrArg RPCFindValueResponse.closest hsame
          change (m.write 0 (Packet.response (.findValue r)).bytes).peers
            (14 + sizeofKeyValue + 8) = r.closest at hclosest
          rw [hclosest] at hheard
          rw [hsame]
          rw [carriedPeers] at hgenuine
          split
          · next hfound =>
              rw [if_pos hfound] at hgenuine
              exact h.takeValue hgenuine q.maxPeers kvp
          · next hfound =>
              rw [if_neg hfound] at hgenuine
              exact h.hearPeers (fun p hp => hgenuine p (hheard ▸ hp)) q.own
      · exact h

/-! ### The loops -/

/-- Nothing but a sincere packet comes over a connection as one. -/
def SincereConn (G : Peer → Prop) (conn : Conn) : Prop :=
  rpcMagic.toList <+: delivered conn →
    ∃ uploads packet, SincerePacket G uploads packet ∧ packet.bytes <+: delivered conn

theorem SincereVars.contactPeer (h : SincereVars G s) {session : Option Session}
    (hsession : ∀ reached ∈ session, SincereConn G reached.conn) (q : Search) (p : Peer) :
    SincereVars G (contactPeer q session p s).val := by
  cases session with
  | none => exact h
  | some session =>
      have hsent : SincereVars G { s with requests := s.requests ++ [p] } :=
        ⟨h.pending, h.table, h.outPeers⟩
      simp only [Model.contactPeer, val_bind]
      cases hreply : (receiveReply session).val with
      | none => exact hsent
      | some buf =>
          by_cases hmagic : rpcMagic.toList <+: delivered session.conn
          · obtain ⟨uploads, packet, hpacket, hbytes⟩ := hsession session rfl hmagic
            obtain rfl := receiveReply_packet hpacket.formed hbytes hreply
            exact hsent.handleReply hpacket q session.kvp session.buf
          · rw [receiveReply_other hmagic] at hreply
            cases hreply

theorem SincereVars.step (h : SincereVars G s) {net : Network}
    (hnet : ∀ n peer, ∀ reached ∈ net n peer, SincereConn G reached.conn)
    (q : Search) :
    SincereVars G (s.step q net).val := by
  unfold LookupState.step
  cases s.position with
  | outer =>
      dsimp only
      split <;> exact ⟨h.pending, h.table, h.outPeers⟩
  | inner i =>
      dsimp only
      split
      · split
        · next p hp hnew =>
            have hmark : SincereVars G (s.mark i) := ⟨h.pending, h.table, h.outPeers⟩
            have ht := hmark.contactPeer (hnet s.contacts.length p) q p
            rw [val_bind]
            split <;> exact ⟨ht.pending, ht.table, ht.outPeers⟩
        · exact ⟨h.pending, h.table, h.outPeers⟩
      · exact ⟨h.pending, h.table, h.outPeers⟩
  | exit => exact h

theorem SincereVars.run (h : SincereVars G s) {net : Network}
    (hnet : ∀ n peer, ∀ reached ∈ net n peer, SincereConn G reached.conn)
    (q : Search) (fuel : ℕ) : SincereVars G (s.run q net fuel).val := by
  induction fuel generalizing s with
  | zero => exact h
  | succ fuel ih => exact ih (h.step hnet q)

theorem SincereVars.start {buckets : Model.Buckets} (h : ∀ p ∈ tablePeers buckets, G p)
    (q : Search) :
    SincereVars G (LookupState.start (initialPeers q buckets).val (fun _ => none) buckets) where
  pending p hp := by
    rw [start_pending, initialPeers, val_bind, findClosestPeers_val] at hp
    exact h p (closestPeers_subset _ _ _ _ p (List.mem_of_mem_take hp))
  table := by
    rw [start_frame]
    exact h
  outPeers i p hp := by
    rw [start_frame] at hp
    cases hp

/-- The peers that a lookup returns are pending ones, or owners of the value. -/
theorem SincereVars.finish (h : SincereVars G s) (q : Search) :
    ∀ i p, (s.finish q).outPeers i = some p → G p := by
  intro i p hp
  cases hfind : q.findValue with
  | false =>
      rw [finish_findNode hfind rfl] at hp
      dsimp only at hp
      split at hp
      · refine h.pending p ?_
        have hmem := List.mem_of_mem_take (List.mem_of_getElem? hp)
        exact (BubbleSort.sort_perm (peerDistanceCmp q.targetKey) s.pending.data).mem_iff.mp hmem
      · exact h.outPeers i p hp
  | true =>
      rw [LookupState.finish, if_pos hfind] at hp
      exact h.outPeers i p hp

/-! ### Running lookups -/

section

variable (G uploads)

/-- A running lookup; the entry is that of the upload that waits for it. -/
structure SincereLookup (l : RunningLookup) : Prop where
  vars : SincereVars G l.vars
  entry : ∀ kv, l.entry = some kv →
    kv ∈ uploads ∧ kv.numValues = 1 ∧ ∀ p ∈ Upload.owners kv, G p

end

variable {l : RunningLookup}

theorem SincereLookup.mono (h : SincereLookup G uploads l) (hsub : uploads ⊆ uploads') :
    SincereLookup G uploads' l where
  vars := h.vars
  entry kv hkv := by
    obtain ⟨hmem, hrest⟩ := h.entry kv hkv
    exact ⟨hsub hmem, hrest⟩

theorem SincereLookup.node (h : SincereLookup G uploads l) {node : Node}
    (hnode : SincereNode G uploads node) :
    SincereNode G uploads { node with buckets := l.vars.buckets } :=
  ⟨h.vars.table, hnode.entries⟩

theorem numValues_replicate_le {kv : KeyValuePair} (h : kv.numValues = 1) (net : UploadNetwork)
    (contents : List UInt8) (outPeers : ℕ → Option Peer) :
    (replicate net contents outPeers kv).numValues ≤ kValue := by
  have hroom : kv.numValues + (List.range (kValue - 1)).length ≤ kValue := by
    rw [h]
    decide
  have howners := congrArg List.length
    (@Upload.owners_foldl net contents outPeers (List.range (kValue - 1)) kv hroom)
  rw [Upload.owners, List.length_map, List.length_range] at howners
  change (replicate net contents outPeers kv).numValues = _ at howners
  rw [howners, List.length_append, Upload.owners, List.length_map, List.length_range, h]
  have hreplicas : (Upload.replicas net contents outPeers (List.range (kValue - 1))).length ≤
      kValue - 1 := (List.length_filterMap_le _ _).trans List.length_range.le
  have hk : kValue = 4 := rfl
  omega

/-- The STORE of an upload names the uploader first, and then peers of the lookup. -/
theorem SincereLookup.publishes (h : SincereLookup G uploads l) (net : UploadNetwork)
    (contents : Option (List UInt8)) :
    ∀ packet ∈ (l.publishes net contents).val, SincerePacket G uploads packet := by
  intro packet hpacket
  unfold RunningLookup.publishes at hpacket
  split at hpacket
  · next kv contents hentry =>
      dsimp only at hpacket
      split at hpacket
      · cases hpacket
      · obtain rfl := List.mem_singleton.mp hpacket
        obtain ⟨hupload, hone, hown⟩ := h.entry kv hentry
        set kv' := replicate net contents (l.vars.finish l.q).outPeers kv with hkv'
        have howners : Upload.owners kv' = Upload.owners kv ++
            Upload.replicas net contents (l.vars.finish l.q).outPeers (List.range (kValue - 1)) :=
          Upload.owners_foldl (by rw [hone]; decide)
        have hsent : sentOwners (storeRequest kv').val.keyValue = Upload.owners kv' :=
          sentOwners_serializeRpcValue kv' _
        refine ⟨⟨⟨.store, List.mem_singleton_self _, rfl⟩, ?_⟩, fun p hp => ?_, fun value hv => ?_⟩
        · show (storeRequest kv').val.keyValue.numValues ≤ kValue
          rw [storeRequest, val_bind]
          show (serializeRpcValue kv' _).val.numValues ≤ kValue
          rw [serializeRpcValue_numValues]
          exact numValues_replicate_le hone _ _ _
        · rw [carriedPeers, hsent, howners] at hp
          rcases List.mem_append.mp hp with hp | hp
          · exact hown p hp
          · obtain ⟨i, hi⟩ := Upload.mem_replicas_iff.mp hp
            exact h.vars.finish l.q i p hi.found
        · obtain rfl := Option.some.inj hv
          have hkey : (storeRequest kv').val.keyValue.key = kv.key :=
            (serializeRpcValue_key kv' _).trans (Upload.replicate_key _ _ _ _)
          refine ⟨kv, hupload, hkey.symm, ?_⟩
          rw [hsent, howners, Upload.owners, hone]
          rfl
  · cases hpacket

end Kademlia.Protocol
