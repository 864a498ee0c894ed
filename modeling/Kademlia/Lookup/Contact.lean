import Kademlia.Foundations.Worklist
import Kademlia.Model.Lookup

/-!
What one contact of a lookup does to its variables.

The peers of a closest list are pushed to the worklist `pending` one by one,
and `contacted` grows along with it. A contact is described by the reply it
gets: the closest list to push, or the value found.
-/

namespace Kademlia.Lookup

open Foundations Foundations.Traced Foundations.Worklist Model

/-! ### Replies -/

def findValueAnswer (session : Session) : Option RPCFindValueResponse := do
  let buf ← (receiveReply session).val
  if buf.header.callType = RPCCallType.findValueResponse.code then
    some buf.rpcFindValueResponse
  else none

def findNodeAnswer (session : Session) : Option RPCFindNodeResponse := do
  let buf ← (receiveReply session).val
  if buf.header.callType = RPCCallType.findNodeResponse.code then
    some buf.rpcFindNodeResponse
  else none

def heardPeers (closest : ℕ → RPCPeer) (numClosest : ℕ) : List Peer :=
  (List.range numClosest).map fun j => deserializeRpcPeer (closest j)

def listedPeers (closest : Fin kValue → RPCPeer) (numClosest : ℕ) : List Peer :=
  (List.range numClosest).map fun j => deserializeRpcPeer (readSlot closest zeroRPCPeer j)

def valueOf (answer : RPCFindValueResponse) : Option RPCKeyValue :=
  if answer.foundKey ≠ 0 then some answer.values else none

/-- The closest list in a FIND_VALUE_RESPONSE without a value. -/
def closestOf (answer : RPCFindValueResponse) : List Peer :=
  if answer.foundKey ≠ 0 then [] else listedPeers answer.closest answer.numClosest

def valueSent (findValue : Bool) (session : Option Session) : Option RPCKeyValue :=
  if findValue then (session.bind findValueAnswer).bind valueOf else none

/-- The closest list that a lookup reads from a reply. -/
def closestIn (findValue : Bool) (buf : Memory) : List Peer :=
  if findValue then
    if buf.header.callType = RPCCallType.findValueResponse.code ∧
        buf.rpcFindValueResponse.foundKey = 0 then
      heardPeers (buf.slot (14 + sizeofKeyValue + 8)) buf.rpcFindValueResponse.numClosest
    else []
  else if buf.header.callType = RPCCallType.findNodeResponse.code then
    heardPeers (buf.slot 22) buf.rpcFindNodeResponse.numClosest
  else []

def closestSent (findValue : Bool) (session : Option Session) : List Peer :=
  (session.bind fun session => (receiveReply session).val).elim [] (closestIn findValue)

/-- `out_peers` with the first owners of a value. -/
def withOwners (values : RPCKeyValue) (maxPeers : ℕ) (outPeers : ℕ → Option Peer) :
    ℕ → Option Peer := fun i =>
  if i < min values.numValues maxPeers then
    some (deserializeRpcPeer (readSlot values.values zeroRPCPeer i))
  else outPeers i

theorem heardPeers_of_slots {sent : ℕ → RPCPeer} {closest : Fin kValue → RPCPeer}
    (hsent : ∀ j : Fin kValue, sent j = closest j) {n : ℕ} (h : n ≤ kValue) :
    heardPeers sent n = listedPeers closest n := by
  refine List.map_congr_left fun j hj => ?_
  have hslot : j < kValue := (List.mem_range.mp hj).trans_le h
  rw [readSlot, dif_pos hslot, ← hsent ⟨j, hslot⟩]

theorem heardPeers_slot (buf : Memory) (offset : ℕ) {n : ℕ} (h : n ≤ kValue) :
    heardPeers (buf.slot offset) n = listedPeers (buf.peers offset) n :=
  heardPeers_of_slots (fun _ => rfl) h

theorem closestSent_findValue {session : Option Session}
    (h : ∀ answer ∈ session.bind findValueAnswer, answer.numClosest ≤ kValue) :
    closestSent true session = (session.bind findValueAnswer).elim [] closestOf := by
  cases session with
  | none => rfl
  | some session =>
      rw [closestSent, Option.bind_some, Option.bind_some]
      rw [Option.bind_some] at h
      cases hreply : (receiveReply session).val with
      | none => simp [findValueAnswer, hreply]
      | some buf =>
          by_cases htype : buf.header.callType = RPCCallType.findValueResponse.code
          · have hanswer : findValueAnswer session = some buf.rpcFindValueResponse := by
              simp [findValueAnswer, hreply, htype]
            have hslots := heardPeers_slot buf (14 + sizeofKeyValue + 8) (h _ hanswer)
            rw [hanswer, Option.elim_some, Option.elim_some, closestIn, if_pos rfl, closestOf,
              hslots]
            by_cases hkey : buf.rpcFindValueResponse.foundKey = 0
            · rw [if_pos ⟨htype, hkey⟩, if_neg (not_not.mpr hkey)]
              rfl
            · rw [if_neg fun hboth => hkey hboth.2, if_pos hkey]
          · simp [findValueAnswer, hreply, htype, closestIn]

theorem closestSent_findNode {session : Option Session}
    (h : ∀ answer ∈ session.bind findNodeAnswer, answer.numClosest ≤ kValue) :
    closestSent false session =
      (session.bind findNodeAnswer).elim [] fun resp =>
        listedPeers resp.closest resp.numClosest := by
  cases session with
  | none => rfl
  | some session =>
      rw [closestSent, Option.bind_some, Option.bind_some]
      rw [Option.bind_some] at h
      cases hreply : (receiveReply session).val with
      | none => simp [findNodeAnswer, hreply]
      | some buf =>
          by_cases htype : buf.header.callType = RPCCallType.findNodeResponse.code
          · have hanswer : findNodeAnswer session = some buf.rpcFindNodeResponse := by
              simp [findNodeAnswer, hreply, htype]
            have hslots := heardPeers_slot buf 22 (h _ hanswer)
            rw [hanswer, Option.elim_some, Option.elim_some, closestIn,
              if_neg Bool.false_ne_true, if_pos htype, hslots]
            rfl
          · simp [findNodeAnswer, hreply, htype, closestIn]

/-! ### Closest lists -/

/-- `s'` is `s` after `peers` were read from closest lists. -/
structure Heard (peers : List Peer) (s s' : LookupState) : Prop where
  pending : s'.pending.data = pushAll Peer.peerId s.pending.data peers
  contacted : s'.contacted.data =
    s.contacted.data ++ List.replicate (s'.pending.size - s.pending.size) false
  advertised : s'.advertised = s.advertised ++ peers
  frame : s' = { s with
    pending := s'.pending, contacted := s'.contacted, buckets := s'.buckets
    advertised := s'.advertised }

theorem Heard.nil (s : LookupState) : Heard [] s s :=
  ⟨rfl, by simp, by simp, rfl⟩

theorem Heard.size_le {peers : List Peer} {s s' : LookupState} (h : Heard peers s s') :
    s.pending.size ≤ s'.pending.size := by
  rw [VectorPtr.size, VectorPtr.size, h.pending]
  exact (prefix_pushAll _ _ _).length_le

theorem Heard.append {peers peers' : List Peer} {s t u : LookupState} (h : Heard peers s t)
    (h' : Heard peers' t u) : Heard (peers ++ peers') s u where
  pending := by rw [h'.pending, h.pending, pushAll, pushAll, pushAll, List.foldl_append]
  contacted := by
    have hle := h.size_le
    have hle' := h'.size_le
    rw [h'.contacted, h.contacted, List.append_assoc, List.replicate_append_replicate]
    congr 2
    omega
  advertised := by rw [h'.advertised, h.advertised, List.append_assoc]
  frame := by
    have hframe := h'.frame
    rw [h.frame] at hframe
    exact hframe

theorem hearPeer_heard (own : Option HashID) (s : LookupState) (peer : Peer) :
    Heard [peer] s (hearPeer own s peer).val := by
  by_cases hexists : peer.peerId ∈ s.pending.data.map Peer.peerId
  · have hany : s.pending.data.any (fun q => q.peerId = peer.peerId) = true := by
      simpa using hexists
    simp only [hearPeer, val_bind, hany, if_true, val_pure]
    refine ⟨?_, ?_, rfl, rfl⟩
    · simp [push, hexists]
    · simp
  · have hany : s.pending.data.any (fun q => q.peerId = peer.peerId) = false := by
      simpa using hexists
    simp only [hearPeer, val_bind, hany, Bool.false_eq_true, if_false, val_pure]
    refine ⟨?_, ?_, rfl, rfl⟩
    · simp [push, hexists, LookupState.addPending]
    · simp [LookupState.addPending, VectorPtr.size]

theorem hearPeers_heard (own : Option HashID) (closest : ℕ → RPCPeer)
    (numClosest : ℕ) (s : LookupState) :
    Heard (heardPeers closest numClosest) s (hearPeers own closest numClosest s).val := by
  simp only [hearPeers, val_bind, val_foldlM, heardPeers]
  induction numClosest with
  | zero => exact Heard.nil s
  | succ n ih =>
      rw [List.range_succ, List.foldl_append, List.map_append]
      exact ih.append (hearPeer_heard own _ _)

/-! ### Values -/

theorem foldl_update_eq (f : ℕ → Option Peer) (n : ℕ) (outPeers : ℕ → Option Peer) :
    (List.range n).foldl (fun outPeers j => Function.update outPeers j (f j)) outPeers =
      fun i => if i < n then f i else outPeers i := by
  induction n with
  | zero => simp
  | succ n ih =>
      rw [List.range_succ, List.foldl_append, ih]
      ext1 i
      simp only [List.foldl_cons, List.foldl_nil, Function.update_apply]
      grind

theorem takeValue_val (maxPeers : ℕ) (values : RPCKeyValue) (kvp : KeyValuePair)
    (s : LookupState) :
    (takeValue maxPeers values kvp s).val =
      { s with outPeers := withOwners values maxPeers s.outPeers, valueFound := true } := by
  simp only [takeValue, val_bind, val_pure, deserializeRpcValue_numValues]
  congr 1
  rw [foldl_update_eq]
  ext1 i
  unfold withOwners
  split
  · next hi => rw [readSlot_deserializeRpcValue values kvp (by omega)]
  · rfl

/-! ### A contact -/

/-- `s'` is `s` after the peer `p` was contacted. -/
structure Contacted (q : Search) (session : Option Session) (p : Peer) (s s' : LookupState) :
    Prop where
  heard : Heard (closestSent q.findValue session) s
    { s' with outPeers := s.outPeers, valueFound := s.valueFound, requests := s.requests }
  valueFound : s'.valueFound = (s.valueFound || (valueSent q.findValue session).isSome)
  outPeers : s'.outPeers = (valueSent q.findValue session).elim s.outPeers
    fun values => withOwners values q.maxPeers s.outPeers
  requests : s'.requests = s.requests ++ if session.isSome then [p] else []

theorem handleReply_findValue {q : Search} (h : q.findValue = true) (kvp : KeyValuePair)
    (buf : Memory) (s : LookupState) :
    (handleReply q kvp buf s).val =
      if buf.header.callType = RPCCallType.findValueResponse.code then
        if buf.rpcFindValueResponse.foundKey ≠ 0 then
          (takeValue q.maxPeers buf.rpcFindValueResponse.values kvp s).val
        else
          (hearPeers q.own (buf.slot (14 + sizeofKeyValue + 8))
            buf.rpcFindValueResponse.numClosest s).val
      else s := by
  simp only [handleReply, h, val_bind, true_and, Bool.true_eq_false, false_and, if_false]
  split
  · simp only [val_bind]
    split <;> rfl
  · rfl

theorem handleReply_findNode {q : Search} (h : q.findValue = false) (kvp : KeyValuePair)
    (buf : Memory) (s : LookupState) :
    (handleReply q kvp buf s).val =
      if buf.header.callType = RPCCallType.findNodeResponse.code then
        (hearPeers q.own (buf.slot 22) buf.rpcFindNodeResponse.numClosest s).val
      else s := by
  simp only [handleReply, h, val_bind, true_and, Bool.false_eq_true, false_and, if_false]
  split <;> rfl

/-- A request that brings a closest list, or nothing, and no value. -/
theorem Heard.toContacted {q : Search} {session : Session} {p : Peer} {s s' : LookupState}
    {peers : List Peer} (h : Heard peers { s with requests := s.requests ++ [p] } s')
    (hclosest : closestSent q.findValue (some session) = peers)
    (hvalue : valueSent q.findValue (some session) = none) :
    Contacted q (some session) p s s' where
  heard := by
    rw [hclosest]
    refine ⟨h.pending, h.contacted, h.advertised, ?_⟩
    rw [h.frame]
  valueFound := by
    rw [h.frame, hvalue]
    simp
  outPeers := by
    rw [h.frame, hvalue]
    rfl
  requests := by
    rw [h.frame]
    rfl

theorem closestSent_of_reply {session : Session} {buf : Memory}
    (hreply : (receiveReply session).val = some buf) (findValue : Bool) :
    closestSent findValue (some session) = closestIn findValue buf := by
  rw [closestSent, Option.bind_some, hreply, Option.elim_some]

theorem handleReply_contacted (q : Search) {session : Session} {buf : Memory}
    (hreply : (receiveReply session).val = some buf) (p : Peer) (s : LookupState) :
    Contacted q (some session) p s
      (handleReply q session.kvp buf { s with requests := s.requests ++ [p] }).val := by
  have hclosest := closestSent_of_reply hreply q.findValue
  cases hfind : q.findValue with
  | false =>
      have hvalue : valueSent q.findValue (some session) = none := by simp [valueSent, hfind]
      rw [hfind, closestIn, if_neg Bool.false_ne_true] at hclosest
      rw [handleReply_findNode hfind]
      by_cases htype : buf.header.callType = RPCCallType.findNodeResponse.code
      · rw [if_pos htype] at hclosest ⊢
        exact (hearPeers_heard _ _ _ _).toContacted (hfind ▸ hclosest) hvalue
      · rw [if_neg htype] at hclosest ⊢
        exact (Heard.nil _).toContacted (hfind ▸ hclosest) hvalue
  | true =>
      rw [hfind, closestIn, if_pos rfl] at hclosest
      rw [handleReply_findValue hfind]
      by_cases htype : buf.header.callType = RPCCallType.findValueResponse.code
      · have hanswer : findValueAnswer session = some buf.rpcFindValueResponse := by
          simp [findValueAnswer, hreply, htype]
        rw [if_pos htype]
        by_cases hkey : buf.rpcFindValueResponse.foundKey = 0
        · rw [if_pos ⟨htype, hkey⟩] at hclosest
          rw [if_neg (not_not.mpr hkey)]
          exact (hearPeers_heard _ _ _ _).toContacted (hfind ▸ hclosest)
            (by simp [valueSent, hfind, hanswer, valueOf, hkey])
        · have hvalue : valueSent q.findValue (some session) =
              some buf.rpcFindValueResponse.values := by
            simp [valueSent, hfind, hanswer, valueOf, hkey]
          rw [if_neg fun hboth => hkey hboth.2] at hclosest
          rw [if_pos hkey, takeValue_val]
          refine ⟨?_, by simp [hvalue], by simp [hvalue], by simp⟩
          rw [hfind, hclosest]
          exact Heard.nil s
      · have hanswer : findValueAnswer session = none := by
          simp [findValueAnswer, hreply, htype]
        rw [if_neg fun hboth => htype hboth.1] at hclosest
        rw [if_neg htype]
        exact (Heard.nil _).toContacted (hfind ▸ hclosest) (by simp [valueSent, hanswer])

theorem contactPeer_contacted (q : Search) (session : Option Session) (p : Peer)
    (s : LookupState) : Contacted q session p s (contactPeer q session p s).val := by
  cases session with
  | none =>
      have hvalue : valueSent q.findValue none = none := by cases q.findValue <;> rfl
      exact ⟨Heard.nil s, by simp [contactPeer, hvalue], by rw [hvalue]; rfl,
        by simp [contactPeer]⟩
  | some session =>
      simp only [contactPeer, val_bind]
      cases hreply : (receiveReply session).val with
      | none =>
          exact (Heard.nil _).toContacted (by simp [closestSent, hreply])
            (by simp [valueSent, findValueAnswer, hreply])
      | some buf => exact handleReply_contacted q hreply p s

end Kademlia.Lookup
