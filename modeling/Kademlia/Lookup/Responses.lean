import Kademlia.Framing.Truncation
import Kademlia.Lookup.Contact

/-!
What a lookup reads from the responses of other peers.

A server compares `packet_size` with the size of the struct it is about to
read; the client does not, and it takes `num_closest` and `num_values` as they
come. A contact reads only what was received exactly when the packet reaches to
the end of the last field that its own contents make the client read.
-/

namespace Kademlia.Lookup

open Foundations Foundations.Source Foundations.Traced Model Framing

/-- The bytes of a response that the use of a field reads: where they start, and
how many they are. Of a peer, the id and the address are read. -/
def extent (findValue : Bool) (a : Access Field) : ℕ × ℕ :=
  match a.array with
  | .packetSize => (4, 4)
  | .callType => (8, 4)
  | .foundKey => (13, 1)
  | .key => (14, 32)
  | .numValues => (46, 8)
  | .values => (54 + sizeofPeer * a.index.toNat, 48)
  | .numClosest => (if findValue then 374 else 14, 8)
  | .closest => ((if findValue then 382 else 22) + sizeofPeer * a.index.toNat, 48)
  | .buckets => (0, 0)

/-- The use reads received bytes only, and does not index behind an array. -/
structure Sound (findValue : Bool) (received : ℕ → Prop) (a : Access Field) : Prop where
  received : ∀ offset, (extent findValue a).1 ≤ offset →
    offset < (extent findValue a).1 + (extent findValue a).2 → received offset
  within : a.array = .values ∨ a.array = .closest → a.Within kValue

/-- The offsets of the receive buffer that `get_rpc_request` stored to. -/
def Received (request : RpcRequest) (offset : ℕ) : Prop :=
  offset < request.headerLen ∨
    sizeofHeader ≤ offset ∧ offset < sizeofHeader + request.bodyLen

/-- A contact uses the response soundly. -/
def ReadsReceived (q : Search) (session : Session) (p : Peer) (s : LookupState) : Prop :=
  ∀ a ∈ (contactPeer q (some session) p s).log,
    Sound q.findValue (Received (getRpcRequest (.stream session.conn) session.buf 0).val) a

/-! ### Responses that are long enough -/

/-- `count` peers from `offset` on, in an array of `K_VALUE`. -/
def SlotsCovered (offset count received : ℕ) : Prop :=
  count ≤ kValue ∧ ∀ i < count, offset + sizeofPeer * i + 48 ≤ received

/-- The first `received` bytes of the buffer have all that is read of it. -/
def ReplyCovered (findValue : Bool) (buf : Memory) (received : ℕ) : Prop :=
  if findValue then
    buf.header.callType = RPCCallType.findValueResponse.code →
      14 ≤ received ∧
        if buf.rpcFindValueResponse.foundKey ≠ 0 then
          54 ≤ received ∧ SlotsCovered 54 buf.rpcFindValueResponse.values.numValues received
        else 382 ≤ received ∧ SlotsCovered 382 buf.rpcFindValueResponse.numClosest received
  else
    buf.header.callType = RPCCallType.findNodeResponse.code →
      22 ≤ received ∧ SlotsCovered 22 buf.rpcFindNodeResponse.numClosest received

section Sound

variable {findValue : Bool} {received : ℕ → Prop}

theorem forall_offset_lt_iff {start length n : ℕ} (h : 0 < length) :
    (∀ offset, start ≤ offset → offset < start + length → offset < n) ↔
      start + length ≤ n := by
  constructor
  · intro hall
    have hlast := hall (start + length - 1) (by omega) (by omega)
    omega
  · intro hle offset _ hlt
    omega

theorem sound_buckets (index : ℤ) : Sound findValue received ⟨.buckets, index⟩ := by
  refine ⟨fun offset _ hlt => ?_, by simp⟩
  simp [extent] at hlt

theorem sound_field_iff (field : Field) (hvalues : field ≠ .values) (hclosest : field ≠ .closest)
    {n : ℕ} (hlen : 0 < (extent findValue ⟨field, 0⟩).2) :
    Sound findValue (· < n) ⟨field, 0⟩ ↔
      (extent findValue ⟨field, 0⟩).1 + (extent findValue ⟨field, 0⟩).2 ≤ n := by
  rw [← forall_offset_lt_iff hlen]
  constructor
  · intro h
    exact h.received
  · intro h
    refine ⟨h, ?_⟩
    rintro (heq | heq)
    · exact absurd heq hvalues
    · exact absurd heq hclosest

/-- The peers of an array are used soundly exactly when they are covered. -/
theorem sound_slots_iff {field : Field} (hfield : field = .values ∨ field = .closest)
    {start : ℕ} (n count : ℕ)
    (hextent : ∀ i : ℕ, extent findValue ⟨field, i⟩ = (start + sizeofPeer * i, 48)) :
    (∀ i ∈ List.range count, Sound findValue (· < n) ⟨field, (i : ℕ)⟩) ↔
      SlotsCovered start count n := by
  constructor
  · intro h
    refine ⟨?_, fun i hi => ?_⟩
    · by_contra hlt
      have hlast := (h kValue (List.mem_range.mpr (by omega))).within hfield
      exact absurd hlast.2 (lt_irrefl _)
    · have hreceived := (h i (List.mem_range.mpr hi)).received
      rw [hextent] at hreceived
      exact (forall_offset_lt_iff (show 0 < 48 by decide)).mp hreceived
  · rintro ⟨hcount, hcovered⟩ i hi
    rw [List.mem_range] at hi
    refine ⟨?_, fun _ => ⟨Int.natCast_nonneg i, ?_⟩⟩
    · rw [hextent]
      exact (forall_offset_lt_iff (show 0 < 48 by decide)).mpr (hcovered i hi)
    · show (i : ℤ) < kValue
      omega

/-! ### The accesses of a contact -/

theorem updateBucketPeers_sound (own : Option HashID) (buckets : Buckets) (peer : Peer) :
    ∀ a ∈ (updateBucketPeers own buckets peer).log, Sound findValue received a := by
  rintro ⟨array, index⟩ ha
  by_cases harray : array = .buckets
  · subst harray
    exact sound_buckets index
  · -- an access to another array would be one of its first 0 elements
    have hstays : (updateBucketPeers own buckets peer).Stays array 0 :=
      updateBucketPeers_stays_of_ne harray own buckets peer
    have hwithin := hstays _ ha rfl
    have hneg := hwithin.1
    have hpos := hwithin.2
    dsimp only at hneg hpos
    omega

theorem hearPeers_sound_iff (own : Option HashID) (closest : ℕ → RPCPeer)
    (numClosest : ℕ) (s : LookupState) :
    (∀ a ∈ (hearPeers own closest numClosest s).log, Sound findValue received a) ↔
      Sound findValue received ⟨.numClosest, 0⟩ ∧
        ∀ j ∈ List.range numClosest, Sound findValue received ⟨.closest, (j : ℕ)⟩ := by
  have hpeer : ∀ (s : LookupState) (peer : Peer),
      ∀ a ∈ (hearPeer own s peer).log, Sound findValue received a := by
    intro s peer a ha
    refine updateBucketPeers_sound own s.buckets peer a ?_
    have hlog : (hearPeer own s peer).log = (updateBucketPeers own s.buckets peer).log := by
      simp only [hearPeer, log_bind]
      split <;> simp
    rwa [← hlog]
  simp only [hearPeers, log_bind, log_touch, List.forall_mem_append, List.forall_mem_singleton]
  rw [forall_mem_log_foldlM fun j => Sound findValue received ⟨.closest, (j : ℕ)⟩]
  intro s j _
  simp only [log_bind, log_touch, List.forall_mem_append, List.forall_mem_singleton]
  exact and_iff_left (hpeer _ _)

theorem takeValue_sound_iff (maxPeers : ℕ) (values : RPCKeyValue) (kvp : KeyValuePair)
    (s : LookupState) :
    (∀ a ∈ (takeValue maxPeers values kvp s).log, Sound findValue received a) ↔
      Sound findValue received ⟨.key, 0⟩ ∧ Sound findValue received ⟨.numValues, 0⟩ ∧
        ∀ i ∈ List.range values.numValues, Sound findValue received ⟨.values, (i : ℕ)⟩ := by
  simp only [takeValue, deserializeRpcValue, log_bind, log_touch, log_pure, List.append_nil,
    List.forall_mem_append, List.forall_mem_singleton]
  rw [forall_mem_log_foldlM fun i => Sound findValue received ⟨.values, (i : ℕ)⟩]
  intro s i _
  simp

theorem hearPeers_covered_iff (own : Option HashID) (closest : ℕ → RPCPeer)
    (numClosest n : ℕ) (s : LookupState) {start : ℕ}
    (hstart : start = if findValue then 382 else 22) :
    (∀ a ∈ (hearPeers own closest numClosest s).log, Sound findValue (· < n) a) ↔
      start ≤ n ∧ SlotsCovered start numClosest n := by
  subst hstart
  have hnumClosest : Sound findValue (· < n) ⟨.numClosest, 0⟩ ↔
      (if findValue then 382 else 22) ≤ n := by
    rw [sound_field_iff .numClosest (by decide) (by decide) (Nat.succ_pos 7)]
    cases findValue <;> rfl
  have hslots : (∀ j ∈ List.range numClosest, Sound findValue (· < n) ⟨.closest, (j : ℕ)⟩) ↔
      SlotsCovered (if findValue then 382 else 22) numClosest n :=
    sound_slots_iff (Or.inr rfl) n _ fun _ => rfl
  rw [hearPeers_sound_iff, hnumClosest, hslots]

theorem takeValue_covered_iff (maxPeers : ℕ) (values : RPCKeyValue) (kvp : KeyValuePair)
    (s : LookupState) (n : ℕ) :
    (∀ a ∈ (takeValue maxPeers values kvp s).log, Sound findValue (· < n) a) ↔
      54 ≤ n ∧ SlotsCovered 54 values.numValues n := by
  have hid : Sound findValue (· < n) ⟨.key, 0⟩ ↔ 46 ≤ n :=
    sound_field_iff .key (by decide) (by decide) (Nat.succ_pos 31)
  have hnumValues : Sound findValue (· < n) ⟨.numValues, 0⟩ ↔ 54 ≤ n :=
    sound_field_iff .numValues (by decide) (by decide) (Nat.succ_pos 7)
  have hslots : (∀ i ∈ List.range values.numValues,
      Sound findValue (· < n) ⟨.values, (i : ℕ)⟩) ↔ SlotsCovered 54 values.numValues n :=
    sound_slots_iff (Or.inl rfl) n _ fun _ => rfl
  rw [takeValue_sound_iff, hid, hnumValues, hslots]
  constructor
  · rintro ⟨-, hcovered⟩
    exact hcovered
  · rintro ⟨hcount, hcovered⟩
    exact ⟨by omega, hcount, hcovered⟩

end Sound

theorem handleReply_sound_iff (q : Search) (kvp : KeyValuePair) (buf : Memory)
    (s : LookupState) {n : ℕ} (hn : sizeofHeader ≤ n) :
    (∀ a ∈ (handleReply q kvp buf s).log, Sound q.findValue (· < n) a) ↔
      ReplyCovered q.findValue buf n := by
  have hcallType : Sound q.findValue (· < n) ⟨.callType, 0⟩ := by
    rw [sound_field_iff .callType (by decide) (by decide) (Nat.succ_pos 3)]
    exact hn
  unfold handleReply ReplyCovered
  simp only [log_bind, log_touch, List.forall_mem_append, List.forall_mem_singleton, hcallType,
    true_and]
  cases hfind : q.findValue with
  | true =>
      by_cases htype : buf.header.callType = RPCCallType.findValueResponse.code
      · have hfoundKey : Sound true (· < n) ⟨.foundKey, 0⟩ ↔ 14 ≤ n :=
          sound_field_iff .foundKey (by decide) (by decide) (by decide)
        simp only [htype, and_self, if_true, log_bind, log_touch, List.forall_mem_append,
          List.forall_mem_singleton, hfoundKey, forall_const]
        by_cases hkey : buf.rpcFindValueResponse.foundKey ≠ 0
        · rw [if_pos hkey, if_pos hkey, takeValue_covered_iff]
        · rw [if_neg hkey, if_neg hkey, hearPeers_covered_iff _ _ _ _ _ (if_pos rfl).symm]
      · simp [htype]
  | false =>
      by_cases htype : buf.header.callType = RPCCallType.findNodeResponse.code
      · simp only [htype, Bool.false_eq_true, false_and, if_false, and_self, if_true,
          forall_const]
        rw [hearPeers_covered_iff _ _ _ _ _ (if_neg Bool.false_ne_true).symm]
      · simp [htype]

/-! ### What is received -/

def packetOf (conn : Conn) : List UInt8 :=
  (delivered conn).take
    (sizeofHeader + toSizeT (packetSizeOf (delivered conn) - sizeofHeader))

/-- What a session has to be like for a sound contact. A header that a failed
read cuts off must reach to the end of `packet_size`, and be discarded. -/
def SafeSession (findValue : Bool) (session : Session) : Prop :=
  isRpcReply (recvAllPeek (delivered session.conn) session.peeks 4) = true →
    if (delivered session.conn).length < sizeofHeader then
      fails session.conn = true →
        8 ≤ (delivered session.conn).length ∧ HeaderStopReported session.conn session.buf
    else
      Accepted session.conn →
        ReplyCovered findValue (session.buf.write 0 (packetOf session.conn))
          (packetOf session.conn).length

/-! ### `get_rpc_request` -/

theorem getStreamRequest_log (conn : Conn) (buf : Memory) (outSize : ℕ) :
    (getStreamRequest conn buf outSize).log =
      if toSizeT (recvAll conn sizeofHeader).ret < sizeofHeader then []
      else [⟨.packetSize, 0⟩] := by
  unfold getStreamRequest
  dsimp only
  split
  · rfl
  · rw [log_bind, log_touch]
    split
    · rfl
    · split <;> rfl

theorem getStreamRequest_headerLen (conn : Conn) (buf : Memory) (outSize : ℕ) :
    (getStreamRequest conn buf outSize).val.headerLen =
      ((delivered conn).take sizeofHeader).length := by
  rw [← recvAll_stored]
  unfold getStreamRequest
  dsimp only
  split
  · rfl
  · rw [val_bind]
    split
    · rfl
    · split <;> rfl

/-- Behind a whole header the packet is stored as far as it is delivered. -/
theorem getStreamRequest_stored {conn : Conn} (h : sizeofHeader ≤ (firstChunk conn).length)
    (hmax : toSizeT (packetSizeOf (delivered conn)) ≤ maxRpcPacketSize) (buf : Memory)
    (outSize : ℕ) :
    (getStreamRequest conn buf outSize).val.buf = buf.write 0 (packetOf conn) ∧
      sizeofHeader + (getStreamRequest conn buf outSize).val.bodyLen =
        (packetOf conn).length := by
  have hlen : sizeofHeader ≤ (delivered conn).length :=
    h.trans (firstChunk_isPrefix_of conn).length_le
  have hheader : ¬ toSizeT (recvAll conn sizeofHeader).ret < sizeofHeader := by
    rw [headerFails_iff_of_long hlen]
    omega
  have hrest : (recvAll conn sizeofHeader).rest = skip sizeofHeader conn :=
    (recvAll_complete conn (by decide) hlen).1
  have hjoin : (delivered conn).take sizeofHeader ++ ((delivered conn).drop sizeofHeader).take
      (toSizeT (packetSizeOf (delivered conn) - sizeofHeader)) = packetOf conn :=
    (List.take_add ..).symm
  have hlength : sizeofHeader + (((delivered conn).drop sizeofHeader).take
      (toSizeT (packetSizeOf (delivered conn) - sizeofHeader))).length =
        (packetOf conn).length := by
    rw [← hjoin, List.length_append, List.length_take_of_le hlen]
  have hwrite := write_header hlen buf (((delivered conn).drop sizeofHeader).take
    (toSizeT (packetSizeOf (delivered conn) - sizeofHeader)))
  rw [hjoin] at hwrite
  unfold getStreamRequest
  simp only [recvAll_stored, hheader, if_false, val_bind, packetSize_header hlen, gt_iff_lt,
    not_lt.mpr hmax, hrest, delivered_skip]
  split <;> exact ⟨hwrite, hlength⟩

/-! ### A session -/

theorem readsReceived_of_not_rpc {session : Session}
    (h : isRpcReply (recvAllPeek (delivered session.conn) session.peeks 4) = false)
    (q : Search) (p : Peer) (s : LookupState) : ReadsReceived q session p s := by
  simp [ReadsReceived, contactPeer, receiveReply, h]

theorem readsReceived_iff_of_rpc {session : Session}
    (h : isRpcReply (recvAllPeek (delivered session.conn) session.peeks 4) = true)
    {request : Traced Field RpcRequest}
    (hrequest : getRpcRequest (.stream session.conn) session.buf 0 = request)
    (q : Search) (p : Peer) (s : LookupState) :
    ReadsReceived q session p s ↔
      (∀ a ∈ request.log, Sound q.findValue (Received request.val) a) ∧
        (request.val.ret = 0 → ∀ a ∈ (handleReply q session.kvp request.val.buf
          { s with requests := s.requests ++ [p] }).log,
            Sound q.findValue (Received request.val) a) := by
  simp only [ReadsReceived, contactPeer, receiveReply, h, if_true, hrequest, log_bind, val_bind,
    log_pure, val_pure, List.append_nil, List.forall_mem_append]
  by_cases hret : request.val.ret = 0 <;> simp [hret]

theorem sound_packetSize_iff {findValue : Bool} {request : RpcRequest} :
    Sound findValue (Received request) ⟨.packetSize, 0⟩ ↔ 8 ≤ request.headerLen := by
  constructor
  · intro h
    rcases h.received 7 (show 4 ≤ 7 by decide) (show 7 < 4 + 4 by decide) with hlt | ⟨hle, -⟩
    · omega
    · exact absurd hle (by decide)
  · intro h
    refine ⟨fun offset _ hlt => Or.inl ?_, by simp⟩
    have hlt' : offset < 8 := hlt
    omega

/-- A header cut off by the end of the stream is discarded unread; cut off by a
failed read, it counts as read. -/
theorem readsReceived_iff_of_short {session : Session}
    (h : isRpcReply (recvAllPeek (delivered session.conn) session.peeks 4) = true)
    (hlen : (delivered session.conn).length < sizeofHeader) (q : Search) (p : Peer)
    (s : LookupState) :
    ReadsReceived q session p s ↔
      (fails session.conn = true →
        8 ≤ (delivered session.conn).length ∧ HeaderStopReported session.conn session.buf) := by
  have hreported := getRpcRequest_headerStop hlen session.buf
  have hlog := getStreamRequest_log session.conn session.buf 0
  have hheader := getStreamRequest_headerLen session.conn session.buf 0
  simp only [headerFails_iff_of_short hlen] at hlog
  rw [List.take_of_length_le hlen.le] at hheader
  rw [readsReceived_iff_of_rpc h rfl]
  rw [getRpcRequest] at hreported ⊢
  generalize getStreamRequest session.conn session.buf 0 = request at *
  cases hfails : fails session.conn with
  | false =>
      have hret : request.val.ret ≠ 0 := hreported.mpr (Or.inl hfails)
      rw [hlog, hfails]
      simp [hret]
  | true =>
      have hcallType : ¬ Sound q.findValue (Received request.val) ⟨.callType, 0⟩ := by
        intro hsound
        rcases hsound.received 11 (show 8 ≤ 11 by decide) (show 11 < 8 + 4 by decide)
          with hlt | ⟨hle, -⟩
        · rw [hheader] at hlt
          rw [sizeofHeader_eq] at hlen
          omega
        · exact absurd hle (by decide)
      have hpacketSize : Sound q.findValue (Received request.val) ⟨.packetSize, 0⟩ ↔
          8 ≤ (delivered session.conn).length := by
        rw [sound_packetSize_iff, hheader]
      rw [hlog, hfails]
      simp only [Bool.true_eq_false, if_false, List.forall_mem_singleton, hpacketSize,
        forall_const, and_congr_right_iff]
      intro _
      rw [← hreported]
      constructor
      · intro hreads hret
        have hmem : (⟨.callType, 0⟩ : Access Field) ∈ (handleReply q session.kvp request.val.buf
            { s with requests := s.requests ++ [p] }).log := by
          simp [handleReply]
        exact hcallType (hreads hret _ hmem)
      · intro hret hzero
        exact absurd hzero hret

theorem readsReceived_iff_of_long {session : Session}
    (h : isRpcReply (recvAllPeek (delivered session.conn) session.peeks 4) = true)
    (hlen : sizeofHeader ≤ (delivered session.conn).length) (q : Search) (p : Peer)
    (s : LookupState) :
    ReadsReceived q session p s ↔
      (Accepted session.conn →
        ReplyCovered q.findValue (session.buf.write 0 (packetOf session.conn))
          (packetOf session.conn).length) := by
  have haccepted := getRpcRequest_eq_zero_iff hlen session.buf
  have hlog := getStreamRequest_log session.conn session.buf 0
  have hheader := getStreamRequest_headerLen session.conn session.buf 0
  simp only [headerFails_iff_of_long hlen] at hlog
  rw [List.length_take, Nat.min_eq_left hlen] at hheader
  rw [readsReceived_iff_of_rpc h rfl, getRpcRequest]
  rw [getRpcRequest] at haccepted
  have hpacketSize : ∀ a ∈ (getStreamRequest session.conn session.buf 0).log,
      Sound q.findValue (Received (getStreamRequest session.conn session.buf 0).val) a := by
    intro a ha
    rw [hlog] at ha
    split at ha
    · cases ha
    · rw [List.mem_singleton.mp ha, sound_packetSize_iff, hheader]
      decide
  rw [and_iff_right hpacketSize, haccepted]
  refine forall_congr' fun hconn => ?_
  obtain ⟨hbuf, hbody⟩ := getStreamRequest_stored hconn.1 hconn.2.1 session.buf 0
  have hreceived : Received (getStreamRequest session.conn session.buf 0).val =
      (· < (packetOf session.conn).length) := by
    ext offset
    rw [Received, hheader, hbody]
    omega
  rw [hbuf, hreceived]
  exact handleReply_sound_iff q session.kvp _ _ (by omega)

/-- A contact reads only received bytes, and no slot behind an array, exactly
when its session is safe. -/
theorem readsReceived_iff (q : Search) (session : Session) (p : Peer) (s : LookupState) :
    ReadsReceived q session p s ↔ SafeSession q.findValue session := by
  cases hrpc : isRpcReply (recvAllPeek (delivered session.conn) session.peeks 4) with
  | false => simp [SafeSession, hrpc, readsReceived_of_not_rpc hrpc q p s]
  | true =>
      rw [SafeSession, hrpc]
      split
      · next hlen => simpa using readsReceived_iff_of_short hrpc hlen q p s
      · next hlen => simpa using readsReceived_iff_of_long hrpc (not_lt.mp hlen) q p s

def headerOnlySession : Session where
  peeks := [.ready 3]
  conn := [.chunk 75 [68, 77, 84, 12, 0, 0, 0, 64, 0, 0, 0]]
  buf := fun _ => 0
  kvp := ⟨zeroBytes 32, 0, fun _ => zeroPeer⟩

theorem headerOnly_not_readsReceived :
    ¬ ReadsReceived ⟨none, zeroBytes 32, kValue, false⟩ headerOnlySession zeroPeer
      (LookupState.empty (fun _ => none) Buckets.empty) := by
  intro h
  have hsound := h ⟨.numClosest, 0⟩ (by decide)
  have hreceived := hsound.received 14 (by decide) (by decide)
  revert hreceived
  show ¬ (_ ∨ _)
  decide

end Kademlia.Lookup
