import Kademlia.Storage.Indexing

/-!
Finding what was stored.

A put fills an empty place and nothing else, so what a node has under a key
after a run of requests is the entry of the first STORE with that key. A
FIND_VALUE answers with this entry, and reading the answer gives back what the
STORE carried: the conversion into the storage and the one out of it both keep
the slots that the count covers.
-/

namespace Kademlia.Storage

open Foundations Foundations.Traced Model Buckets

/-- A received packet; `stack` is what its handler finds in its local entry. -/
structure Request where
  stack : KeyValuePair
  contents : Memory

def Request.event (request : Request) : NodeEvent := .packet request.stack request.contents

def serve (own : Option HashID) (requests : List Request) : Node :=
  (Node.run own Node.initial (requests.map Request.event)).val

def answer (own : Option HashID) (node : Node) (request : Request) : Option Response :=
  (handleRpcRequest own request.stack node request.contents).val.sent

def Stores (key : HashID) (request : Request) : Prop :=
  passesSizeCheck request.contents = some .store ∧
    request.contents.rpcStore.keyValue.key = key

instance (key : HashID) : DecidablePred (Stores key) := fun request =>
  inferInstanceAs (Decidable (passesSizeCheck request.contents = some .store ∧
    request.contents.rpcStore.keyValue.key = key))

/-- The entry that `handle_store` makes of a STORE. -/
def Request.entry (request : Request) : KeyValuePair :=
  (deserializeRpcValue request.contents.rpcStore.keyValue request.stack).val

theorem Request.entry_key (request : Request) :
    request.entry.key = request.contents.rpcStore.keyValue.key := by
  rw [Request.entry, deserializeRpcValue_key]

/-- `kvp` has the key of `sent`, its count, which the slots can hold, and in
order its owners. -/
structure Carries (sent : RPCKeyValue) (kvp : KeyValuePair) : Prop where
  key_eq : kvp.key = sent.key
  numValues_eq : kvp.numValues = sent.numValues
  numValues_le : kvp.numValues ≤ kValue
  values_eq : ∀ i : Fin kValue, (i : ℕ) < kvp.numValues →
    kvp.values i = deserializeRpcPeer (sent.values i)

/-- The answer `response` to a FIND_VALUE for `key` after `requests`. -/
structure AnswersFirst (requests : List Request) (key : HashID)
    (response : RPCFindValueResponse) : Prop where
  foundKey_iff : response.foundKey = 1 ↔ ∃ request ∈ requests, Stores key request
  values_eq : ∀ before store after, requests = before ++ store :: after → Stores key store →
    (∀ request ∈ before, ¬ Stores key request) →
    ∀ blank, Carries store.contents.rpcStore.keyValue
      (deserializeRpcValue response.values blank).val

/-! ### What is in the storage -/

theorem step_storage (own : Option HashID) (node : Node) (request : Request) (key : HashID) :
    (Node.step own node request.event).val.storage key =
      (node.storage key).or (if Stores key request then some request.entry else none) := by
  have hstep : (Node.step own node request.event).val.storage =
      (handleRpcRequest own request.stack node request.contents).val.node.storage := rfl
  rw [hstep]
  by_cases hstore : passesSizeCheck request.contents = some .store
  · have hstorage : (handleRpcRequest own request.stack node request.contents).val.node.storage =
        storagePutValue node.storage request.entry := by
      unfold handleRpcRequest
      rw [hstore]
      exact handleStore_storage _ _ _
    rw [hstorage, storagePutValue_apply, request.entry_key]
    by_cases hkey : request.contents.rpcStore.keyValue.key = key
    · rw [if_pos hkey, if_pos (show Stores key request from ⟨hstore, hkey⟩)]
    · rw [if_neg hkey, if_neg (show ¬ Stores key request from fun h => hkey h.2)]
  · rw [handleRpcRequest_storage hstore,
      if_neg (show ¬ Stores key request from fun h => hstore h.1), Option.or_none]

theorem run_storage (own : Option HashID) (node : Node) (requests : List Request)
    (key : HashID) :
    (Node.run own node (requests.map Request.event)).val.storage key =
      (node.storage key).or ((requests.find? (Stores key ·)).map Request.entry) := by
  induction requests generalizing node with
  | nil => exact (Option.or_none).symm
  | cons request requests ih =>
      have hrun : (Node.run own node ((request :: requests).map Request.event)).val =
          (Node.run own (Node.step own node request.event).val
            (requests.map Request.event)).val := rfl
      rw [hrun, ih, step_storage, Option.or_assoc, List.find?_cons]
      by_cases hstores : Stores key request
      · simp [hstores]
      · simp [hstores]

/-- Under each key a node has the entry of the first STORE with that key. -/
theorem serve_storage (own : Option HashID) (requests : List Request) (key : HashID) :
    (serve own requests).storage key =
      (requests.find? (Stores key ·)).map Request.entry := by
  have hinitial : Node.initial.storage key = none := rfl
  rw [serve, run_storage, hinitial, Option.none_or]

/-! ### What is answered -/

/-- What was converted into the storage, out of it and back once more. -/
theorem carries_of_serialize {sent : RPCKeyValue} (hcount : sent.numValues ≤ kValue)
    (stack : KeyValuePair) (serialized : RPCKeyValue) (blank : KeyValuePair) :
    Carries sent (deserializeRpcValue
      (serializeRpcValue (deserializeRpcValue sent stack).val serialized).val blank).val where
  key_eq := by simp
  numValues_eq := by simp
  numValues_le := by simpa using hcount
  values_eq i hi := by
    have hi : (i : ℕ) < sent.numValues := by simpa using hi
    have hslot := calc
      readSlot (deserializeRpcValue (serializeRpcValue (deserializeRpcValue sent stack).val
          serialized).val blank).val.values zeroPeer i
        = deserializeRpcPeer (readSlot (serializeRpcValue (deserializeRpcValue sent stack).val
            serialized).val.values zeroRPCPeer i) :=
          readSlot_deserializeRpcValue _ blank (by simpa using hi)
      _ = readSlot (deserializeRpcValue sent stack).val.values zeroPeer i := by
          rw [readSlot_serializeRpcValue _ serialized (by simpa using hi),
            deserialize_serializeRpcPeer]
      _ = deserializeRpcPeer (readSlot sent.values zeroRPCPeer i) :=
          readSlot_deserializeRpcValue sent stack hi
    simpa only [readSlot, i.isLt, dite_true] using hslot

theorem answer_findValue (own : Option HashID) (node : Node) {find : Request}
    (hfind : passesSizeCheck find.contents = some .findValue) :
    ∃ response : RPCFindValueResponse, answer own node find = some (.findValue response) ∧
      match node.storage find.contents.rpcFind.key with
      | some kvp => response.foundKey = 1 ∧
          ∃ blank, response.values = (serializeRpcValue kvp blank).val
      | none => response.foundKey = 0 := by
  have hanswer : answer own node find =
      (handleFindValue own node find.contents.rpcFind).val.sent := by
    unfold answer handleRpcRequest
    rw [hfind]
  rw [hanswer]
  unfold handleFindValue storageGetValue
  dsimp only
  cases hget : node.storage find.contents.rpcFind.key with
  | some kvp => exact ⟨_, rfl, rfl, _, rfl⟩
  | none =>
      simp only [val_bind]
      split
      · exact ⟨_, rfl, rfl⟩
      · exact ⟨_, rfl, rfl⟩

/-- After any requests whose STOREs keep within the slots, a FIND_VALUE is
answered with the first STORE of its key. -/
theorem exists_answersFirst (own : Option HashID) (requests : List Request)
    (hcount : ∀ request ∈ requests, ClaimsAtMost kValue request.event) (find : Request)
    (hfind : passesSizeCheck find.contents = some .findValue) :
    ∃ response : RPCFindValueResponse,
      answer own (serve own requests) find = some (.findValue response) ∧
        AnswersFirst requests find.contents.rpcFind.key response := by
  obtain ⟨response, hanswer, hresponse⟩ := answer_findValue own (serve own requests) hfind
  refine ⟨response, hanswer, ?_, ?_⟩
  · rw [serve_storage] at hresponse
    cases hfirst : requests.find? (Stores find.contents.rpcFind.key ·) with
    | some store =>
        rw [hfirst] at hresponse
        have hstores := List.find?_some hfirst
        exact ⟨fun _ => ⟨store, List.mem_of_find?_eq_some hfirst, by simpa using hstores⟩,
          fun _ => hresponse.1⟩
    | none =>
        rw [hfirst] at hresponse
        have hzero : response.foundKey = 0 := hresponse
        constructor
        · intro hone
          rw [hzero] at hone
          exact absurd hone (by decide)
        · rintro ⟨store, hmem, hstores⟩
          exact absurd hstores (by simpa using List.find?_eq_none.mp hfirst store hmem)
  · rintro before store after rfl hstores hbefore blank
    have hfirst : (before ++ store :: after).find? (Stores find.contents.rpcFind.key ·) =
        some store := by
      rw [List.find?_eq_some_iff_append]
      exact ⟨by simpa using hstores, before, after, rfl, by simpa using hbefore⟩
    rw [serve_storage, hfirst] at hresponse
    obtain ⟨-, serialized, hvalues⟩ := hresponse
    rw [hvalues]
    exact carries_of_serialize (hcount store (by simp) hstores.1) store.stack serialized blank

/-! ### A run within the table -/

/-- The id that `request` makes the node look up in its table, after the requests
`before`, has a place there. -/
def PlacedAfter (own : Option HashID) (before : List Request) (request : Request) : Prop :=
  match passesSizeCheck request.contents with
  | some .broadcast => InTable own request.contents.rpcBroadcast.peer.peerId
  | some .findNode => InTable own request.contents.rpcFind.key
  | some .findValue => (∃ store ∈ before, Stores request.contents.rpcFind.key store) ∨
      InTable own request.contents.rpcFind.key
  | _ => True

theorem placed_serve_iff {own : Option HashID} {before : List Request} {request : Request} :
    Placed own (serve own before).storage request.contents ↔ PlacedAfter own before request := by
  unfold Placed PlacedAfter
  cases passesSizeCheck request.contents with
  | none => exact Iff.rfl
  | some kind =>
      cases kind with
      | findValue =>
          rw [serve_storage]
          simp only [Option.map_eq_none_iff, List.find?_eq_none, decide_eq_true_eq]
          rw [or_iff_not_imp_left, not_exists]
          simp only [not_and]
      | _ => exact Iff.rfl

theorem forall_split_concat {α : Type} {P : List α → α → Prop} {xs : List α} {x : α} :
    (∀ before y after, xs ++ [x] = before ++ y :: after → P before y) ↔
      (∀ before y after, xs = before ++ y :: after → P before y) ∧ P xs x := by
  constructor
  · intro h
    refine ⟨fun before y after hxs => h before y (after ++ [x]) ?_, h xs x [] rfl⟩
    rw [hxs, List.append_assoc, List.cons_append]
  · rintro ⟨h, hlast⟩ before y after hsplit
    rcases List.eq_nil_or_concat after with rfl | ⟨after, z, rfl⟩
    · obtain ⟨rfl, hy⟩ := List.append_inj' hsplit rfl
      cases hy
      exact hlast
    · rw [List.concat_eq_append, ← List.cons_append, ← List.append_assoc] at hsplit
      exact h before y after (List.append_inj' hsplit rfl).1

theorem serve_bounded (own : Option HashID) {requests : List Request}
    (hcount : ∀ request ∈ requests, ClaimsAtMost kValue request.event) :
    Bounded (serve own requests).storage := by
  refine (run_bounded own bounded_empty fun event hevent => ?_).1
  obtain ⟨request, hrequest, rfl⟩ := List.mem_map.mp hevent
  exact hcount request hrequest

/-- A run is defined exactly when each request is placed when its turn comes. -/
theorem run_defined_iff (own : Option HashID) {requests : List Request}
    (hcount : ∀ request ∈ requests, ClaimsAtMost kValue request.event) :
    Defined (Node.run own Node.initial (requests.map Request.event)) ↔
      ∀ before request after, requests = before ++ request :: after →
        PlacedAfter own before request := by
  have hplaced : ∀ before request after, requests = before ++ request :: after →
      (Defined (Node.step own (serve own before) request.event) ↔
        PlacedAfter own before request) := by
    rintro before request after rfl
    obtain ⟨hbefore, hrest⟩ := List.forall_mem_append.mp hcount
    rw [Request.event, Node.step, defined_bind, and_iff_left (defined_pure _),
      handleRpcRequest_defined_iff (serve_bounded own hbefore)
        (hrest request List.mem_cons_self), placed_serve_iff]
  rw [Node.run, List.foldlM_map, defined_foldlM_iff]
  refine forall₄_congr fun before request after hsplit => ?_
  rw [← hplaced before request after hsplit, serve, Node.run, val_foldlM, List.foldl_map]

/-- After `requests`, `find` is answered with the first STORE of its key, and no
array is left on the way. -/
structure StoresThenFinds (own : Option HashID) (requests : List Request) (find : Request) :
    Prop where
  run : Defined (Node.run own Node.initial (requests.map Request.event))
  last : Defined (handleRpcRequest own find.stack (serve own requests) find.contents)
  answers : ∃ response : RPCFindValueResponse,
    answer own (serve own requests) find = some (.findValue response) ∧
      AnswersFirst requests find.contents.rpcFind.key response

/-- What was stored is found exactly when every id that the requests make the node
look up in its table has a place there. -/
theorem storesThenFinds_iff (own : Option HashID) (requests : List Request)
    (hcount : ∀ request ∈ requests, ClaimsAtMost kValue request.event) (find : Request)
    (hfind : passesSizeCheck find.contents = some .findValue) :
    StoresThenFinds own requests find ↔
      ∀ before request after, requests ++ [find] = before ++ request :: after →
        PlacedAfter own before request := by
  have hstore : passesSizeCheck find.contents = some .store →
      find.contents.rpcStore.keyValue.numValues ≤ kValue := by
    rw [hfind]
    exact fun h => by cases h
  have hdefined : Defined (handleRpcRequest own find.stack (serve own requests) find.contents) ↔
      PlacedAfter own requests find := by
    rw [handleRpcRequest_defined_iff (serve_bounded own hcount) hstore, placed_serve_iff]
  rw [forall_split_concat, ← run_defined_iff own hcount, ← hdefined]
  exact ⟨fun h => ⟨h.run, h.last⟩, fun h =>
    ⟨h.1, h.2, exists_answersFirst own requests hcount find hfind⟩⟩

def zeroStore (count : UInt8) : Request where
  stack := ⟨zeroBytes 32, 0, fun _ => zeroPeer⟩
  contents := Memory.write (fun _ => 0) 0
    ([75, 68, 77, 84, 116, 1, 0, 0, 2, 0, 0, 0] ++ List.replicate 32 0 ++ [count])

def zeroFind : Request where
  stack := ⟨zeroBytes 32, 0, fun _ => zeroPeer⟩
  contents := Memory.write (fun _ => 0) 0 [75, 68, 77, 84, 44, 0, 0, 0, 8, 0, 0, 0]

/-- A BROADCAST of the peer whose id begins with `first` and `second`. -/
def nearBroadcast (first second : UInt8) : Request where
  stack := ⟨zeroBytes 32, 0, fun _ => zeroPeer⟩
  contents := Memory.write (fun _ => 0) 0
    [75, 68, 77, 84, 92, 0, 0, 0, 0, 1, 0, 0, first, second]

theorem storesThenFinds_iff_twoStores :
    StoresThenFinds (some (sparseID 0 0)) [nearBroadcast 64 0, zeroStore 1, zeroStore 2]
      zeroFind := by
  refine (storesThenFinds_iff (some (sparseID 0 0))
    [nearBroadcast 64 0, zeroStore 1, zeroStore 2] ?_ zeroFind (by decide)).mpr ?_
  · intro request hrequest _
    simp only [List.mem_cons, List.not_mem_nil, or_false] at hrequest
    rcases hrequest with rfl | rfl | rfl <;> decide
  · intro before request after hsplit
    have hmem : request ∈ [nearBroadcast 64 0, zeroStore 1, zeroStore 2] ++ [zeroFind] := by
      rw [hsplit]
      simp
    simp only [List.cons_append, List.nil_append, List.mem_cons, List.not_mem_nil,
      or_false] at hmem
    rcases hmem with rfl | rfl | rfl | rfl
    · show InTable _ _
      decide
    · exact trivial
    · exact trivial
    · exact Or.inr (by decide)

/-- A BROADCAST of a peer that differs from the own id only behind the first byte,
and a STORE and a FIND_VALUE of the zero key. -/
theorem farBroadcast_not_storesThenFinds :
    (∀ request ∈ [nearBroadcast 0 128, zeroStore 1], ClaimsAtMost kValue request.event) ∧
      passesSizeCheck zeroFind.contents = some .findValue ∧
      ¬ StoresThenFinds (some (sparseID 0 0)) [nearBroadcast 0 128, zeroStore 1] zeroFind := by
  have hcount : ∀ request ∈ [nearBroadcast 0 128, zeroStore 1],
      ClaimsAtMost kValue request.event := by
    intro request hrequest _
    simp only [List.mem_cons, List.not_mem_nil, or_false] at hrequest
    rcases hrequest with rfl | rfl <;> decide
  refine ⟨hcount, by decide, fun h => ?_⟩
  have hplaced := (run_defined_iff _ hcount).mp h.run [] (nearBroadcast 0 128) [zeroStore 1] rfl
  have hindex : InTable (some (sparseID 0 0))
      (nearBroadcast 0 128).contents.rpcBroadcast.peer.peerId := hplaced
  exact absurd hindex (by decide)

end Kademlia.Storage
