import Kademlia.Buckets.Indexing
import Kademlia.Lookup.Responses
import Kademlia.Lookup.Sweeps

/-!
Lookups that index no array outside its bounds.

A peer that is heard of is stored to the bucket of its index, and the table has
only the buckets of ids that differ from the own one in the first byte. So a
lookup is defined exactly when all peers that it reads from closest lists have
a place in the table, and the key has one. Which peers these are is told by the
record of the contacts.
-/

namespace Kademlia.Lookup

open Foundations Foundations.Traced Foundations.Worklist Model Buckets

/-! ### A contact -/

/-- The counts in the response that a contact gets stay within its arrays. -/
def SlotsFit (findValue : Bool) (session : Option Session) : Prop :=
  if findValue then
    ∀ answer ∈ session.bind findValueAnswer,
      answer.values.numValues ≤ kValue ∧ answer.numClosest ≤ kValue
  else ∀ answer ∈ session.bind findNodeAnswer, answer.numClosest ≤ kValue

theorem slotsFit_of_no_reply {findValue : Bool} {session : Option Session}
    (h : ∀ session', session = some session' → (receiveReply session').val = none) :
    SlotsFit findValue session := by
  cases session with
  | none => cases findValue <;> simp [SlotsFit]
  | some session => cases findValue <;> simp [SlotsFit, findValueAnswer, findNodeAnswer, h session]

theorem hearPeer_defined_iff {own : Option HashID} {s : LookupState} {newPeer : Peer} :
    Defined (hearPeer own s newPeer) ↔ InTable own newPeer.peerId := by
  rw [hearPeer, defined_bind, updateBucketPeers_defined_iff]
  refine and_iff_left ?_
  dsimp only
  split <;> exact defined_pure _

theorem hearPeers_defined_iff {own : Option HashID} {closest : ℕ → RPCPeer} {numClosest : ℕ}
    (hcount : numClosest ≤ kValue) (s : LookupState) :
    Defined (hearPeers own closest numClosest s) ↔
      ∀ r ∈ heardPeers closest numClosest, InTable own r.peerId := by
  rw [hearPeers, defined_bind, and_iff_right (defined_touch (by decide) (by simp)),
    defined_foldlM fun j => InTable own (deserializeRpcPeer (closest j)).peerId]
  · simp [heardPeers]
  · intro s j hj
    have hlt := List.mem_range.mp hj
    rw [defined_bind, and_iff_right (defined_touch (by decide) fun _ => by omega),
      hearPeer_defined_iff]

theorem takeValue_defined {values : RPCKeyValue} (hcount : values.numValues ≤ kValue)
    (maxPeers : ℕ) (kvp : KeyValuePair) (s : LookupState) :
    Defined (takeValue maxPeers values kvp s) := by
  rw [takeValue, deserializeRpcValue, defined_bind, defined_bind, defined_bind]
  refine ⟨⟨defined_touch (by decide) (by simp), defined_touch (by decide) (by simp), ?_⟩,
    defined_pure _⟩
  rw [defined_foldlM fun _ => True]
  · exact fun _ _ => trivial
  · intro kvp i hi
    have hlt := List.mem_range.mp hi
    rw [defined_bind, and_iff_right (defined_touch (by decide) fun _ => by omega)]
    exact iff_of_true (defined_pure _) trivial

theorem getRpcRequest_defined (sock : Socket) (buf : Memory) (outSize : ℕ) :
    Defined (getRpcRequest sock buf outSize) := by
  have hsize : Defined (touch Field.packetSize 0) := defined_touch (by decide) (by simp)
  cases sock with
  | stream conn =>
      have hlog := getStreamRequest_log conn buf outSize
      split at hlog
      · exact .of_log_nil hlog
      · have hother : ∀ {array size}, array ≠ Field.packetSize →
            (getRpcRequest (.stream conn) buf outSize).Stays array size := by
          intro array size hne a ha harray
          rw [getRpcRequest, hlog] at ha
          obtain rfl := List.mem_singleton.mp ha
          exact absurd harray.symm hne
        exact ⟨hother (by decide), hother (by decide), hother (by decide)⟩
  | dgram queue =>
      cases queue with
      | nil => exact defined_pure _
      | cons datagram queue =>
          rw [getRpcRequest, getDatagramRequest]
          dsimp only
          split
          · exact defined_pure _
          · refine defined_bind.mpr ⟨hsize, ?_⟩
            split <;> exact defined_pure _
  | otherType => exact defined_pure _
  | badDescriptor => exact defined_pure _

theorem receiveReply_defined (session : Session) : Defined (receiveReply session) := by
  rw [receiveReply]
  split
  · exact defined_bind.mpr ⟨getRpcRequest_defined _ _ _, defined_pure _⟩
  · exact defined_pure _

/-- A reply is handled within bounds exactly when the peers that it lists have a
place in the table. -/
theorem handleReply_defined_iff (q : Search) {session : Session} {buf : Memory}
    (hreply : (receiveReply session).val = some buf)
    (hfit : SlotsFit q.findValue (some session)) (s : LookupState) :
    Defined (handleReply q session.kvp buf s) ↔
      ∀ r ∈ closestIn q.findValue buf, InTable q.own r.peerId := by
  have hcallType : Defined (touch Field.callType 0) := defined_touch (by decide) (by simp)
  rw [handleReply, defined_bind, and_iff_right hcallType]
  cases hfind : q.findValue with
  | false =>
      rw [if_neg fun hboth => Bool.false_ne_true hboth.1, closestIn, if_neg Bool.false_ne_true]
      by_cases htype : buf.header.callType = RPCCallType.findNodeResponse.code
      · have hanswer : findNodeAnswer session = some buf.rpcFindNodeResponse := by
          simp [findNodeAnswer, hreply, htype]
        rw [SlotsFit, hfind, if_neg Bool.false_ne_true, Option.bind_some] at hfit
        rw [if_pos ⟨rfl, htype⟩, if_pos htype]
        exact hearPeers_defined_iff (hfit _ hanswer) s
      · rw [if_neg fun hboth => htype hboth.2, if_neg htype]
        simp
  | true =>
      rw [closestIn, if_pos rfl]
      by_cases htype : buf.header.callType = RPCCallType.findValueResponse.code
      · have hanswer : findValueAnswer session = some buf.rpcFindValueResponse := by
          simp [findValueAnswer, hreply, htype]
        have hfoundKey : Defined (touch Field.foundKey 0) := defined_touch (by decide) (by simp)
        rw [SlotsFit, hfind, if_pos rfl, Option.bind_some] at hfit
        obtain ⟨hvalues, hclosest⟩ := hfit _ hanswer
        rw [if_pos ⟨rfl, htype⟩]
        dsimp only
        rw [defined_bind, and_iff_right hfoundKey]
        by_cases hkey : buf.rpcFindValueResponse.foundKey = 0
        · rw [if_neg (not_not.mpr hkey), if_pos ⟨htype, hkey⟩]
          exact hearPeers_defined_iff hclosest s
        · rw [if_pos hkey, if_neg fun hboth => hkey hboth.2]
          exact iff_of_true (takeValue_defined hvalues _ _ _) (by simp)
      · rw [if_neg fun hboth => htype hboth.2, if_neg fun hboth => Bool.false_ne_true hboth.1.symm,
          if_neg fun hboth => htype hboth.1]
        simp

theorem contactPeer_defined_iff (q : Search) {session : Option Session}
    (hfit : SlotsFit q.findValue session) (p : Peer) (s : LookupState) :
    Defined (contactPeer q session p s) ↔
      ∀ r ∈ closestSent q.findValue session, InTable q.own r.peerId := by
  cases session with
  | none => simp [contactPeer, closestSent]
  | some session =>
      rw [contactPeer, defined_bind, and_iff_right (receiveReply_defined session)]
      cases hreply : (receiveReply session).val with
      | none => simp [closestSent, hreply]
      | some buf => rw [closestSent_of_reply hreply, handleReply_defined_iff q hreply hfit]

/-! ### A run -/

variable {q : Search} {net : Network}

/-- A step is defined exactly when the peers that it hears of have a place in
the table. -/
theorem step_defined_iff (hfit : ∀ i p, SlotsFit q.findValue (net i p)) (s : LookupState) :
    ∃ heard, (s.step q net).val.advertised = s.advertised ++ heard ∧
      (Defined (s.step q net) ↔ ∀ r ∈ heard, InTable q.own r.peerId) := by
  unfold LookupState.step
  cases hpos : s.position with
  | outer =>
      refine ⟨[], ?_, ?_⟩ <;> dsimp only <;> split <;> simp
  | inner i =>
      dsimp only
      split
      · split
        · next p hp hnew =>
            have ht := contactPeer_contacted q (net s.contacts.length p) p (s.mark i)
            refine ⟨closestSent q.findValue (net s.contacts.length p), ?_, ?_⟩
            · rw [val_bind, ← ht.advertised]
              split <;> rfl
            · rw [defined_bind, contactPeer_defined_iff q (hfit _ _)]
              refine and_iff_left ?_
              split <;> exact defined_pure _
        · exact ⟨[], by simp, by simp⟩
      · exact ⟨[], by simp [endSweep], by simp⟩
  | exit => exact ⟨[], by simp, by simp⟩

theorem run_defined_iff (hfit : ∀ i p, SlotsFit q.findValue (net i p)) (n : ℕ)
    (s : LookupState) :
    ∃ heard, (after q net n s).advertised = s.advertised ++ heard ∧
      (Defined (s.run q net n) ↔ ∀ r ∈ heard, InTable q.own r.peerId) := by
  induction n generalizing s with
  | zero => exact ⟨[], by simp, by simp [LookupState.run]⟩
  | succ n ih =>
      obtain ⟨heard, hstep, hdefined⟩ := step_defined_iff hfit s
      obtain ⟨heard', hrun, hdefined'⟩ := ih (s.step q net).val
      refine ⟨heard ++ heard', ?_, ?_⟩
      · rw [after_succ, hrun, hstep, List.append_assoc]
      · rw [LookupState.run, defined_bind, hdefined, hdefined', List.forall_mem_append]

/-- The peers heard of are those that the contacts sent, in their order. -/
def Recorded (q : Search) (net : Network) (s : LookupState) : Prop :=
  ∀ r, r ∈ s.advertised ↔ ∃ (k i : ℕ) (p : Peer), s.contacts[k]? = some i ∧
    s.pending.data[i]? = some p ∧ r ∈ expand q net k p

theorem Recorded.contact {p : Peer} {i : ℕ} {s t : LookupState} (h : Recorded q net s)
    (hs : Consistent s) (hp : s.pending.data[i]? = some p)
    (ht : Contacted q (net s.contacts.length p) p (s.mark i) t) : Recorded q net t := by
  intro r
  rw [ht.advertised, List.mem_append, h r, ht.contacts]
  constructor
  · rintro (⟨k, j, peer, hk, hj, hr⟩ | hr)
    · have hlt := (List.getElem?_eq_some_iff.mp hk).1
      exact ⟨k, j, peer, by rw [List.getElem?_append_left hlt, hk],
        getElem?_of_isPrefix_of ht.grows hj, hr⟩
    · exact ⟨s.contacts.length, i, p, by simp, getElem?_of_isPrefix_of ht.grows hp, hr⟩
  · rintro ⟨k, j, peer, hk, hj, hr⟩
    rcases Nat.lt_or_ge k s.contacts.length with hlt | hge
    · rw [List.getElem?_append_left hlt] at hk
      obtain ⟨rest, hrest⟩ := ht.grows
      rw [← hrest, List.getElem?_append_left (hs.lt_length (List.mem_of_getElem? hk))] at hj
      exact Or.inl ⟨k, j, peer, hk, hj, hr⟩
    · have hlast : k = s.contacts.length ∧ i = j := by
        rw [List.getElem?_append_right hge, List.getElem?_singleton] at hk
        split at hk
        · exact ⟨by omega, Option.some.inj hk⟩
        · cases hk
      obtain ⟨rfl, rfl⟩ := hlast
      rw [getElem?_of_isPrefix_of ht.grows hp] at hj
      cases hj
      exact Or.inr hr

theorem Step.recorded {s s' : LookupState} (h : Step q net s s') (hs : Consistent s)
    (hrecorded : Recorded q net s) : Recorded q net s' := by
  cases h with
  | begin _ _ _ => exact hrecorded
  | leave _ _ => exact hrecorded
  | contact _ hp _ ht =>
      have hcontact := hrecorded.contact hs hp ht
      split <;> exact hcontact
  | skip _ _ _ => exact hrecorded
  | finish _ _ => exact hrecorded
  | stay _ => exact hrecorded

theorem recorded_after (q : Search) (net : Network) (initial : List Peer)
    (outPeers : ℕ → Option Peer) (buckets : Model.Buckets) (n : ℕ) :
    Recorded q net (after q net n (LookupState.start initial outPeers buckets)) := by
  have hstart : Recorded q net (LookupState.start initial outPeers buckets) := by
    intro r
    rw [start_frame]
    simp [LookupState.empty]
  exact (after_invariant (motive := fun s => Consistent s ∧ Recorded q net s)
    (fun s s' hstep hs => ⟨hstep.consistent hs.1, hstep.recorded hs.1 hs.2⟩)
    ⟨start_consistent initial outPeers buckets, hstart⟩ n).2

/-! ### The whole lookup -/

theorem iterativeFindPeers_defined_iff (hmax : q.maxPeers ≠ 0)
    (hfit : ∀ i p, SlotsFit q.findValue (net i p)) (buckets : Model.Buckets)
    (outPeers : ℕ → Option Peer) (fuel : ℕ) :
    Defined (iterativeFindPeers q net buckets outPeers fuel) ↔
      InTable q.own q.targetKey ∧
        ∀ r ∈ (after q net fuel (LookupState.start (initialPeers q buckets).val outPeers
          buckets)).advertised, InTable q.own r.peerId := by
  have hinitial : Defined (initialPeers q buckets) ↔ InTable q.own q.targetKey := by
    rw [initialPeers, defined_bind, findClosestPeers_defined_iff]
    exact and_iff_left (defined_pure _)
  obtain ⟨heard, hheard, hrun⟩ := run_defined_iff hfit fuel
    (LookupState.start (initialPeers q buckets).val outPeers buckets)
  have hstart : (LookupState.start (initialPeers q buckets).val outPeers buckets).advertised =
      [] := by
    rw [start_frame]
    rfl
  rw [hstart, List.nil_append] at hheard
  rw [iterativeFindPeers, if_neg hmax, defined_bind, defined_bind, hinitial, hrun, hheard]
  exact and_congr_right fun _ => and_iff_left (defined_pure _)

/-- The contacts were made along `order`, from its first peer to the one before
`m`. -/
theorem defined_along_iff (hmax : q.maxPeers ≠ 0)
    (hfit : ∀ i p, SlotsFit q.findValue (net i p)) {buckets : Model.Buckets}
    {outPeers : ℕ → Option Peer} {order : List Peer} {n m fuel : ℕ}
    (hpending : (after q net n (LookupState.start (initialPeers q buckets).val outPeers
      buckets)).pending.data = order)
    (hcontacts : (after q net n (LookupState.start (initialPeers q buckets).val outPeers
      buckets)).contacts = List.range m)
    (hexit : (after q net n (LookupState.start (initialPeers q buckets).val outPeers
      buckets)).position = .exit) (hfuel : n ≤ fuel) :
    Defined (iterativeFindPeers q net buckets outPeers fuel) ↔
      InTable q.own q.targetKey ∧ ∀ i p, i < m → order[i]? = some p →
        ∀ r ∈ expand q net i p, InTable q.own r.peerId := by
  have hrecorded := recorded_after q net (initialPeers q buckets).val outPeers buckets n
  rw [iterativeFindPeers_defined_iff hmax hfit, after_of_le hexit hfuel]
  refine and_congr_right fun _ => ⟨fun h i p hi hp r hr => ?_, fun h r hr => ?_⟩
  · refine h r ((hrecorded r).mpr ⟨i, i, p, ?_, hpending ▸ hp, hr⟩)
    rw [hcontacts, List.getElem?_range hi]
  · obtain ⟨k, i, p, hk, hp, hexpand⟩ := (hrecorded r).mp hr
    rw [hcontacts] at hk
    have hlt := (List.getElem?_eq_some_iff.mp hk).1
    rw [List.length_range] at hlt
    rw [List.getElem?_range hlt] at hk
    cases hk
    exact h k p hlt (hpending ▸ hp) r hexpand

/-- The pending peers grow by what the pending ones select, so the initial ones lead to them. -/
theorem pending_leads {next : Peer → List Peer} (hnext : expand q net = fun _ => next)
    (initial : List Peer) (outPeers : ℕ → Option Peer) (buckets : Model.Buckets) (n : ℕ) :
    ∀ p ∈ (after q net n (LookupState.start initial outPeers buckets)).pending.data,
      Leads next initial p := by
  refine leads_of_grown (after_invariant (motive := fun s =>
    Relation.ReflTransGen (Adds Peer.peerId fun _ => next) initial s.pending.data)
    (fun s s' hstep hs => ?_) ?_ n)
  · cases hstep with
    | @contact i p t _ hp _ ht =>
        have hsent : closestSent q.findValue (net s.contacts.length p) = next p :=
          congrFun (congrFun hnext _) p
        have hcontacted : Relation.ReflTransGen (Adds Peer.peerId fun _ => next) initial
            t.pending.data := by
          rw [ht.pending, hsent]
          exact hs.trans (adds_pushAll Peer.peerId _ hp fun x hx => hx)
        split <;> exact hcontacted
    | _ => exact hs
  · rw [start_pending]

/-- A lookup is defined when all that it can reach has a place in the table. -/
theorem defined_of_leads (hmax : q.maxPeers ≠ 0)
    (hfit : ∀ i p, SlotsFit q.findValue (net i p)) {next : Peer → List Peer}
    (hnext : expand q net = fun _ => next) {buckets : Model.Buckets}
    (htarget : InTable q.own q.targetKey)
    (hplaced : ∀ p, Leads next (initialPeers q buckets).val p → InTable q.own p.peerId)
    (outPeers : ℕ → Option Peer) (fuel : ℕ) :
    Defined (iterativeFindPeers q net buckets outPeers fuel) := by
  rw [iterativeFindPeers_defined_iff hmax hfit]
  refine ⟨htarget, fun r hr => ?_⟩
  obtain ⟨k, i, p, -, hp, hexpand⟩ := (recorded_after q net _ outPeers buckets fuel r).mp hr
  rw [hnext] at hexpand
  exact hplaced r (.next (pending_leads hnext _ _ _ _ p (List.mem_of_getElem? hp)) hexpand)

end Kademlia.Lookup
