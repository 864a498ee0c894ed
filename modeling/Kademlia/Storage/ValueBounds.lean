import Kademlia.Model.Requests

/-!
The slots of a stored owner list.

`values[]` has `K_VALUE` slots, and `num_values` comes from the network as it
is. A run of a node keeps within the slots exactly when none of its STORE
packets claims more of them: nothing else in the program puts an entry with
another count into the storage, and the loops over a stored entry read the
count that was checked nowhere.
-/

namespace Kademlia.Storage

open Foundations Foundations.Traced Model

/-- Every stored entry has at most `K_VALUE` owners. -/
def Bounded (storage : Model.Storage) : Prop :=
  ∀ key kvp, storage key = some kvp → kvp.numValues ≤ kValue

/-- A STORE packet that passes the size check claims at most `count` owners. -/
def ClaimsAtMost (count : ℕ) : NodeEvent → Prop
  | .packet _ contents =>
      passesSizeCheck contents = some .store → contents.rpcStore.keyValue.numValues ≤ count
  | .upload _ _ => True

theorem bounded_empty : Bounded Storage.empty := by
  intro key kvp h
  cases h

theorem Bounded.put {storage : Model.Storage} {value : KeyValuePair} (h : Bounded storage)
    (hvalue : value.numValues ≤ kValue) : Bounded (storagePutValue storage value) := by
  intro key kvp hget
  rcases storagePutValue_eq_some hget with hold | rfl
  · exact h key kvp hold
  · exact hvalue

/-! ### One request -/

theorem fillClosest_stays_of_ne {array : Field} {size : ℕ} (h : array ≠ .closest)
    (closest : List Peer) (count : ℕ) : (fillClosest closest count).Stays array size := by
  refine stays_foldlM (fun acc i _ => ?_) _
  split
  · exact stays_pure _ _ _
  · simp [h.symm]

theorem handleFindNode_stays (own : Option HashID) (node : Node) (data : RPCFind) :
    (handleFindNode own node data).Stays .values kValue := by
  simp only [handleFindNode, stays_bind]
  refine ⟨findClosestPeers_stays_of_ne (by decide) _ _ _ _, ?_⟩
  split
  · exact stays_pure _ _ _
  · simp only [stays_bind, stays_pure, and_true]
    exact fillClosest_stays_of_ne (by decide) _ _

theorem handleFindValue_stays {node : Node} (h : Bounded node.storage)
    (own : Option HashID) (data : RPCFind) :
    (handleFindValue own node data).Stays .values kValue := by
  unfold handleFindValue
  dsimp only
  split
  · rename_i kvp hget
    simp only [stays_bind, stays_pure, and_true]
    exact serializeRpcValue_stays.mpr (h data.key kvp hget)
  · simp only [stays_bind]
    refine ⟨findClosestPeers_stays_of_ne (by decide) _ _ _ _, ?_⟩
    split
    · exact stays_pure _ _ _
    · simp only [stays_bind, stays_pure, and_true]
      exact fillClosest_stays_of_ne (by decide) _ _

theorem handleStore_stays {stack : KeyValuePair} {node : Node} {data : RPCStore} :
    (handleStore stack node data).Stays .values kValue ↔
      data.keyValue.numValues ≤ kValue := by
  simp [handleStore, deserializeRpcValue_stays]

theorem handleStore_storage (stack : KeyValuePair) (node : Node) (data : RPCStore) :
    (handleStore stack node data).val.node.storage =
      storagePutValue node.storage (deserializeRpcValue data.keyValue stack).val := rfl

theorem handleRpcRequest_storage {contents : Memory}
    (h : passesSizeCheck contents ≠ some .store) (own : Option HashID)
    (stack : KeyValuePair) (node : Node) :
    (handleRpcRequest own stack node contents).val.node.storage = node.storage := by
  unfold handleRpcRequest
  split
  · rfl
  · contradiction
  · simp only [handleFindNode, val_bind]
    split <;> rfl
  · unfold handleFindValue
    dsimp only
    split
    · rfl
    · simp only [val_bind]
      split <;> rfl
  · rfl
  · rfl

/-! ### Steps and runs -/

theorem step_bounded (own : Option HashID) {node : Node} (h : Bounded node.storage)
    {event : NodeEvent} (hevent : ClaimsAtMost kValue event) :
    Bounded (Node.step own node event).val.storage ∧
      (Node.step own node event).Stays .values kValue := by
  cases event with
  | upload fileHash self =>
      exact ⟨h.put (by decide : 1 ≤ kValue), stays_pure _ _ _⟩
  | packet stack contents =>
      by_cases hstore : passesSizeCheck contents = some .store
      · have hcount := hevent hstore
        simp only [Node.step, handleRpcRequest, hstore, val_bind, val_pure, stays_bind,
          stays_pure, and_true, handleStore_storage]
        exact ⟨h.put (by simpa using hcount), handleStore_stays.mpr hcount⟩
      · constructor
        · have hsame := handleRpcRequest_storage hstore own stack node
          simpa [Node.step, hsame] using h
        · simp only [Node.step, stays_bind, stays_pure, and_true]
          unfold handleRpcRequest
          split
          · exact stays_pure _ _ _
          · contradiction
          · exact handleFindNode_stays own node _
          · exact handleFindValue_stays h own _
          · simp only [handleBroadcast, stays_bind, stays_pure, and_true]
            exact updateBucketPeers_stays_of_ne (by decide) _ _ _
          · exact stays_pure _ _ _

theorem step_stays_imp (own : Option HashID) (node : Node) {event : NodeEvent}
    (h : (Node.step own node event).Stays .values kValue) : ClaimsAtMost kValue event := by
  cases event with
  | upload fileHash self => trivial
  | packet stack contents =>
      intro hstore
      simp only [Node.step, handleRpcRequest, hstore, stays_bind] at h
      exact handleStore_stays.mp h.1

theorem run_bounded (own : Option HashID) {node : Node} (h : Bounded node.storage)
    {events : List NodeEvent} (hevents : ∀ event ∈ events, ClaimsAtMost kValue event) :
    Bounded (Node.run own node events).val.storage ∧
      (Node.run own node events).Stays .values kValue := by
  induction events generalizing node with
  | nil => exact ⟨h, stays_pure _ _ _⟩
  | cons event events ih =>
      obtain ⟨hstep, hstays⟩ := step_bounded own h (hevents event (by simp))
      obtain ⟨hrun, hrest⟩ := ih hstep fun e he => hevents e (by simp [he])
      rw [Node.run, List.foldlM_cons, val_bind, stays_bind]
      exact ⟨hrun, hstays, hrest⟩

/-- In every state of the run each stored entry has at most `K_VALUE` owners,
and every index the run uses into `values[]` is below `K_VALUE`. -/
def WithinSlots (own : Option HashID) (events : List NodeEvent) : Prop :=
  (∀ before after, events = before ++ after →
      Bounded (Node.run own Node.initial before).val.storage) ∧
    (Node.run own Node.initial events).Stays .values kValue

/-- A run keeps within the slots exactly when each of its STORE packets claims
at most `K_VALUE` owners. -/
theorem withinSlots_iff (own : Option HashID) (events : List NodeEvent) :
    WithinSlots own events ↔ ∀ event ∈ events, ClaimsAtMost kValue event := by
  constructor
  · rintro ⟨-, hstays⟩ event hevent
    obtain ⟨before, after, rfl⟩ := List.append_of_mem hevent
    refine step_stays_imp own (Node.run own Node.initial before).val ?_
    intro a ha
    refine hstays a (mem_log_foldlM.mpr ⟨before, event, after, rfl, ?_⟩)
    rwa [Node.run, val_foldlM] at ha
  · intro hevents
    refine ⟨?_, (run_bounded own bounded_empty hevents).2⟩
    rintro before after rfl
    exact (run_bounded own bounded_empty fun e he => hevents e (by simp [he])).1

def fiveOwnerStore : Memory :=
  Memory.write (fun _ => 0) 0
    ([75, 68, 77, 84, 116, 1, 0, 0, 2, 0, 0, 0] ++ List.replicate 32 0 ++ [5])

theorem fiveOwnerStore_not_withinSlots :
    ¬ WithinSlots none [.packet ⟨zeroBytes 32, 0, fun _ => zeroPeer⟩ fiveOwnerStore] := by
  rintro ⟨hbounded, -⟩
  have hcount : ((Node.run none Node.initial
      [.packet ⟨zeroBytes 32, 0, fun _ => zeroPeer⟩ fiveOwnerStore]).val.storage
        (zeroBytes 32)).map KeyValuePair.numValues = some 5 := by decide
  obtain ⟨kvp, hget, hfive⟩ := Option.map_eq_some_iff.mp hcount
  have hle := hbounded _ [] rfl _ kvp hget
  rw [hfive] at hle
  exact absurd hle (by decide)

end Kademlia.Storage
