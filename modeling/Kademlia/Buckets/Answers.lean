import Kademlia.Buckets.Closest
import Kademlia.Lookup.Contact
import Kademlia.Model.PeerArray
import Kademlia.Model.Requests

/-!
The peers of a FIND response.

The result array of `find_closest_peers` has no gap: each bucket puts its peers
behind those of the buckets before. So counting its entries and writing entry
`i` to slot `i` of the response, as the handlers do, fills the front of
`closest[]`, and that is what the other side reads.
-/

namespace Kademlia.Buckets

open Foundations Foundations.Traced Model

/-! ### The array without gaps -/

/-- The array holds `l`, from its start on, and nothing else. -/
def Holds (result : PeerArray) (l : List Peer) : Prop := ∀ i, result i = l[i]?

theorem Holds.concat {result : PeerArray} {l : List Peer} (h : Holds result l) (p : Peer) :
    Holds (Function.update result l.length (some p)) (l ++ [p]) := by
  intro i
  rcases Nat.lt_trichotomy i l.length with hlt | rfl | hgt
  · rw [Function.update_of_ne hlt.ne, h, List.getElem?_append_left hlt]
  · simp
  · rw [Function.update_of_ne hgt.ne', h, List.getElem?_eq_none hgt.le,
      List.getElem?_eq_none (by simp; omega)]

/-- The variables of `find_nearest` when `slots` are the neighbors so far, behind the
peers `l` of earlier calls. -/
structure Represents (l : List Peer) (slots : List (HashID × Peer)) (s : NearestLoop) : Prop where
  count : s.n = slots.length
  peers : Holds s.outPeers (l ++ slots.map Prod.snd)
  dists : ∀ i (h : i < slots.length), s.neighborsDist i = slots[i].1

/-- The loop over the neighbors replaces each one that is farther away. -/
theorem foldl_replaceFarther (start : ℕ) (current : Peer) (d : HashID) (s : NearestLoop) (k : ℕ) :
    ((List.range k).foldl (replaceFarther start current d) s).n = s.n ∧
      (∀ i, ((List.range k).foldl (replaceFarther start current d) s).neighborsDist i =
        if i < k ∧ compareHashes (s.neighborsDist i) d > 0 then d else s.neighborsDist i) ∧
      ∀ j, ((List.range k).foldl (replaceFarther start current d) s).outPeers j =
        if start ≤ j ∧ j < start + k ∧ compareHashes (s.neighborsDist (j - start)) d > 0 then
          some current
        else s.outPeers j := by
  induction k with
  | zero =>
      refine ⟨rfl, fun i => ?_, fun j => ?_⟩
      · rw [if_neg fun h => Nat.not_lt_zero i h.1]
        rfl
      · rw [if_neg fun h => absurd h.2.1 (by omega)]
        rfl
  | succ k ih =>
      rw [List.range_succ, List.foldl_append]
      generalize (List.range k).foldl (replaceFarther start current d) s = s' at ih
      obtain ⟨hn, hdist, hout⟩ := ih
      have hk : s'.neighborsDist k = s.neighborsDist k := by
        rw [hdist, if_neg fun h => Nat.lt_irrefl k h.1]
      rw [List.foldl_cons, List.foldl_nil, replaceFarther, hk]
      by_cases hfarther : compareHashes (s.neighborsDist k) d > 0
      · rw [if_pos hfarther]
        refine ⟨hn, fun i => ?_, fun j => ?_⟩
        · dsimp only
          by_cases hi : i = k
          · subst hi
            rw [Function.update_self, if_pos ⟨Nat.lt_succ_self i, hfarther⟩]
          · have hiff : i < k ↔ i < k + 1 := by omega
            simp only [Function.update_of_ne hi, hdist, hiff]
        · dsimp only
          by_cases hj : j = start + k
          · subst hj
            rw [Function.update_self, if_pos ⟨by omega, by omega, by rwa [Nat.add_sub_cancel_left]⟩]
          · have hiff : j < start + k ↔ j < start + (k + 1) := by omega
            simp only [Function.update_of_ne hj, hout, hiff]
      · rw [if_neg hfarther]
        refine ⟨hn, fun i => ?_, fun j => ?_⟩
        · rw [hdist]
          by_cases hi : i = k
          · subst hi
            rw [if_neg fun h => hfarther h.2, if_neg fun h => hfarther h.2]
          · have hiff : i < k ↔ i < k + 1 := by omega
            simp only [hiff]
        · rw [hout]
          by_cases hj : j = start + k
          · subst hj
            rw [Nat.add_sub_cancel_left, if_neg fun h => hfarther h.2.2,
              if_neg fun h => hfarther h.2.2]
          · have hiff : j < start + k ↔ j < start + (k + 1) := by omega
            simp only [hiff]

theorem Represents.step {l : List Peer} {slots : List (HashID × Peer)} {s : NearestLoop}
    (h : Represents l slots s) (id : HashID) (m : ℕ) (current : Peer) :
    Represents l (nearestStep id m slots current) (nearestStepAt id l.length m s current) := by
  rw [nearestStep, nearestStepAt, h.count]
  split_ifs with hroom
  · refine ⟨by simp, ?_, fun i hi => ?_⟩
    · rw [List.map_append, ← List.append_assoc]
      simpa using h.peers.concat current
    · dsimp only
      rcases Nat.lt_or_ge i slots.length with hlt | hge
      · rw [Function.update_of_ne hlt.ne, h.dists i hlt, List.getElem_append_left hlt]
      · have heq : i = slots.length := by
          rw [List.length_append, List.length_singleton] at hi
          omega
        subst heq
        simp
  · obtain ⟨hn, hdist, hout⟩ :=
      foldl_replaceFarther l.length current (distHash current.peerId id) s slots.length
    refine ⟨?_, fun j => ?_, fun i hi => ?_⟩
    · rw [hn, List.length_map, h.count]
    · rw [hout, List.map_map, List.getElem?_append]
      by_cases hj : j < l.length
      · rw [if_neg fun hall => absurd hall.1 (not_le.mpr hj), if_pos hj, h.peers,
          List.getElem?_append_left hj]
      · have hold := h.peers j
        rw [List.getElem?_append_right (not_lt.mp hj)] at hold
        rw [if_neg hj, hold, List.getElem?_map, List.getElem?_map]
        by_cases hi : j - l.length < slots.length
        · rw [h.dists _ hi, List.getElem?_eq_getElem hi, Option.map_some, Option.map_some,
            Function.comp_apply]
          split_ifs with hall hfarther hfarther
          · rfl
          · exact absurd hall.2.2 hfarther
          · exact absurd ⟨not_lt.mp hj, by omega, hfarther⟩ hall
          · rfl
        · rw [if_neg fun hall => hi (by omega), List.getElem?_eq_none (not_lt.mp hi)]
          rfl
    · rw [List.length_map] at hi
      rw [hdist, h.dists i hi, List.getElem_map]
      split_ifs with hall hfarther hfarther
      · rfl
      · exact absurd hall.2 hfarther
      · exact absurd ⟨hi, hfarther⟩ hall
      · rfl

/-- `find_nearest` stores its peers behind those that are there. -/
theorem findNearestAt_holds {result : PeerArray} {l : List Peer} (h : Holds result l)
    (list : DList) (id : HashID) (m : ℕ) :
    Holds (findNearestAt list id result l.length m).1 (l ++ findNearest list id m) ∧
      (findNearestAt list id result l.length m).2 = (findNearest list id m).length := by
  unfold findNearestAt findNearest
  split_ifs
  · exact ⟨by simpa using h, rfl⟩
  · have hloop : ∀ (ps : List Peer) (slots : List (HashID × Peer)) (s : NearestLoop),
        Represents l slots s → Represents l (ps.foldl (nearestStep id m) slots)
          (ps.foldl (nearestStepAt id l.length m) s) := by
      intro ps
      induction ps with
      | nil => exact fun _ _ hs => hs
      | cons p ps ih => exact fun slots s hs => ih _ _ (hs.step id m p)
    have hs := hloop list.peers [] ⟨result, fun _ => zeroBytes 32, 0⟩
      ⟨rfl, by simpa using h, fun i hi => absurd hi (Nat.not_lt_zero i)⟩
    exact ⟨hs.peers, by rw [List.length_map, ← hs.count]⟩

/-! ### The result of `find_closest_peers` -/

/-- `result` and `count` when the peers `l` have been found. -/
def Collects (result : PeerArray × ℕ) (l : List Peer) : Prop := Holds result.1 l ∧ result.2 = l.length

variable {buckets : Model.Buckets} {target : HashID} {n : ℕ}

theorem takeNearestAt_collects {result : PeerArray × ℕ} {l : List Peer} (h : Collects result l)
    (i : ℤ) :
    Collects (takeNearestAt buckets target n i result) (takeNearest buckets target n i l).val := by
  obtain ⟨hheld, hcount⟩ := findNearestAt_holds h.1 (buckets.get i) target (n - l.length)
  rw [takeNearestAt, h.2, takeNearest_val, appendNearest]
  exact ⟨hheld, by rw [hcount, List.length_append]⟩

theorem side_collects (inTable : Prop) [Decidable inTable] (i : ℤ) {result : PeerArray × ℕ}
    {l : List Peer} (h : Collects result l) :
    Collects (if inTable then takeNearestAt buckets target n i result else result)
      (if inTable then takeNearest buckets target n i l else pure l).val := by
  split_ifs
  · exact takeNearestAt_collects h i
  · exact h

theorem widenAt_collects (b : ℤ) (fuel offset : ℕ) {result : PeerArray × ℕ} {l : List Peer}
    (h : Collects result l) :
    Collects (widenAt buckets target n b fuel offset result)
      (widen buckets target n b fuel offset l).val := by
  induction fuel generalizing offset result l with
  | zero => exact h
  | succ fuel ih =>
      unfold widenAt widen
      rw [h.2]
      by_cases hguard : l.length < n ∧ (b - (offset : ℤ) ≥ 0 ∨ b + (offset : ℤ) < bucketCount)
      · rw [if_pos hguard, if_pos hguard, val_bind, val_bind]
        exact ih _ (side_collects _ _ (side_collects _ _ h))
      · rw [if_neg hguard, if_neg hguard]
        exact h

/-- The array of `find_closest_peers` holds the peers of the list, and no others. -/
theorem findClosestArray_eq (own : Option HashID) (buckets : Model.Buckets) (target : HashID)
    (n : ℕ) :
    findClosestArray own buckets target n =
      (findClosestPeers own buckets target n).val.map fun l i => l[i]? := by
  cases own with
  | none => rfl
  | some ownId =>
      unfold findClosestArray findClosestPeers
      dsimp only
      by_cases hself : getBucketIndex (distHash ownId target) = -1
      · rw [if_pos hself, if_pos hself]
        rfl
      · rw [if_neg hself, if_neg hself, val_bind, val_bind, val_pure]
        have hstart : Collects (fun _ => none, 0) ([] : List Peer) := ⟨fun _ => rfl, rfl⟩
        have hfirst : Collects (takeNearestAt buckets target n _ _) _ :=
          takeNearestAt_collects hstart (getBucketIndex (distHash ownId target))
        obtain ⟨hheld, hcount⟩ := widenAt_collects (getBucketIndex (distHash ownId target)) 256 1
          hfirst
        rw [hcount]
        generalize (widen buckets target n (getBucketIndex (distHash ownId target)) 256 1 _).val =
          l at hheld
        cases l with
        | nil => rfl
        | cons p l =>
            rw [if_neg (by simp), if_neg (by simp), Option.map_some]
            exact congrArg some (funext hheld)

/-! ### Responses -/

theorem findNearest_get_subset (i : ℤ) (m : ℕ) :
    ∀ p ∈ findNearest (buckets.get i) target m, p ∈ tablePeers buckets := by
  intro p hp
  have hmem := findNearest_subset _ _ _ p hp
  by_cases hi : 0 ≤ i ∧ i < bucketCount
  · exact mem_tablePeers.mpr ⟨i, hi, hmem⟩
  · rw [get_of_not_in_table buckets hi] at hmem
    cases hmem

theorem foldl_appendNearest_subset (order : List ℤ) {result : List Peer}
    (h : ∀ p ∈ result, p ∈ tablePeers buckets) :
    ∀ p ∈ order.foldl (appendNearest buckets target n) result, p ∈ tablePeers buckets := by
  induction order generalizing result with
  | nil => exact h
  | cons i order ih =>
      apply ih
      intro p hp
      rcases List.mem_append.mp hp with hp | hp
      · exact h p hp
      · exact findNearest_get_subset i _ p hp

theorem closestPeers_subset (own : Option HashID) (buckets : Model.Buckets) (target : HashID)
    (n : ℕ) : ∀ p ∈ closestPeers own buckets target n, p ∈ tablePeers buckets := by
  unfold closestPeers
  split
  · simp
  · split
    · simp
    · exact foldl_appendNearest_subset _ (by simp)

/-- The target has a bucket in the table. -/
def TargetInTable (own target : HashID) : Prop :=
  0 ≤ getBucketIndex (distHash own target) ∧ getBucketIndex (distHash own target) < bucketCount

theorem TargetInTable.ne {own target : HashID} (h : TargetInTable own target) : target ≠ own := by
  rintro rfl
  have hself := getBucketIndex_eq_neg_one_iff.mpr (rfl : target = target)
  rw [TargetInTable, hself] at h
  omega

theorem closestPeers_length {own target : HashID} (h : TargetInTable own target)
    (buckets : Model.Buckets) (n : ℕ) :
    (closestPeers (some own) buckets target n).length = min n (tablePeers buckets).length := by
  rw [closestPeers, if_neg h.ne, foldl_appendNearest_length _ (Nat.zero_le n), List.length_nil,
    Nat.zero_add, sum_visitOrder buckets h]

/-- The handlers put entry `i` of the array into slot `i` and count the entries. -/
theorem fillClosest_val {closest : List Peer} (hroom : closest.length ≤ kValue) (count : ℕ) :
    (fillClosest closest count).val.1 = min count closest.length ∧
      ∀ j (h : j < closest.length), j < count →
        readSlot (fillClosest closest count).val.2 zeroRPCPeer j = serializeRpcPeer closest[j] := by
  rw [fillClosest, val_foldlM]
  induction count with
  | zero => exact ⟨by simp, fun j _ hj => absurd hj (Nat.not_lt_zero j)⟩
  | succ k ih =>
      rw [List.range_succ, List.foldl_append, List.foldl_cons, List.foldl_nil]
      generalize List.foldl _ _ (List.range k) = acc at ih
      obtain ⟨hfound, hslots⟩ := ih
      rcases Nat.lt_or_ge k closest.length with hlt | hge
      · simp only [List.getElem?_eq_getElem hlt, val_bind, val_pure]
        refine ⟨by omega, fun j hj hjk => ?_⟩
        rw [readSlot_writeSlot]
        split_ifs with hlast
        · simp only [hlast.1]
        · exact hslots j hj (by omega)
      · simp only [List.getElem?_eq_none hge, val_pure]
        exact ⟨by omega, fun j hj _ => hslots j hj (by omega)⟩

theorem listedPeers_fillClosest {closest : List Peer} (hroom : closest.length ≤ kValue)
    {count : ℕ} (hlen : closest.length ≤ count) :
    Lookup.listedPeers (fillClosest closest count).val.2 (fillClosest closest count).val.1 =
      closest := by
  obtain ⟨hfound, hslots⟩ := fillClosest_val hroom count
  rw [hfound, Nat.min_eq_right hlen, Lookup.listedPeers]
  apply List.ext_getElem
  · simp
  · intro j hj hj'
    rw [List.getElem_map, List.getElem_range, hslots j hj' (by omega), deserialize_serializeRpcPeer]

theorem closestPeers_eq_nil {own : Option HashID} {buckets : Model.Buckets} {target : HashID}
    {n : ℕ} (hfound : (findClosestPeers own buckets target n).val = none) :
    closestPeers own buckets target n = [] := by
  have hval := findClosestPeers_val own buckets target n
  rw [hfound] at hval
  exact hval.symm

/-- The handlers count the peers that were selected, and list them in their order. -/
theorem fillClosest_selected {own : Option HashID} {buckets : Model.Buckets} {target : HashID}
    {closest : List Peer}
    (hfound : (findClosestPeers own buckets target bucketSize).val = some closest) :
    (fillClosest closest bucketSize).val.1 =
        (closestPeers own buckets target bucketSize).length ∧
      Lookup.listedPeers (fillClosest closest bucketSize).val.2
          (fillClosest closest bucketSize).val.1 =
        closestPeers own buckets target bucketSize := by
  have hval := findClosestPeers_val own buckets target bucketSize
  have hlen := closestPeers_length_le own buckets target bucketSize
  rw [hfound, Option.getD_some] at hval
  rw [← hval] at hlen ⊢
  refine ⟨?_, listedPeers_fillClosest hlen hlen⟩
  rw [(fillClosest_val hlen bucketSize).1, Nat.min_eq_right hlen]

/-- The non-`NULL` entries of the array that `find_closest_peers` returns to a handler. -/
def selectedPeers (own : Option HashID) (buckets : Model.Buckets) (target : HashID) : List Peer :=
  (findClosestArray own buckets target bucketSize).elim [] fun result =>
    (List.range bucketSize).filterMap result

theorem filterMap_getElem?_range {α : Type} {l : List α} {n : ℕ} (h : l.length ≤ n) :
    (List.range n).filterMap (fun i => l[i]?) = l := by
  induction n generalizing l with
  | zero => rw [List.eq_nil_of_length_eq_zero (Nat.le_zero.mp h)]; rfl
  | succ n ih =>
      cases l with
      | nil => simp
      | cons a l =>
          rw [List.range_succ_eq_map, List.filterMap_cons, List.filterMap_map]
          have hrest := ih (Nat.le_of_succ_le_succ h)
          simpa [Function.comp_def] using hrest

theorem selectedPeers_eq (own : Option HashID) (buckets : Model.Buckets) (target : HashID) :
    selectedPeers own buckets target = closestPeers own buckets target bucketSize := by
  have hlen := closestPeers_length_le own buckets target bucketSize
  rw [← findClosestPeers_val] at hlen ⊢
  rw [selectedPeers, findClosestArray_eq]
  cases h : (findClosestPeers own buckets target bucketSize).val with
  | none => rfl
  | some l =>
      rw [h] at hlen
      exact filterMap_getElem?_range hlen

/-- What the peer list of a FIND response owes the table: its length, what the other
side reads off it, and where that comes from. -/
structure Answers (own target : HashID) (buckets : Model.Buckets) (numClosest : ℕ)
    (closest : Fin kValue → RPCPeer) : Prop where
  count : numClosest = min kValue (tablePeers buckets).length
  decoded : (List.range numClosest).map (fun j =>
      deserializeRpcPeer (readSlot closest zeroRPCPeer j)) =
    selectedPeers (some own) buckets target
  /-- the loop of `iterative_find_peers` comes across these peers, whatever lies behind the
  array -/
  heard : ∀ reader (sent : ℕ → RPCPeer) s, (∀ j : Fin kValue, sent j = closest j) →
    (hearPeers reader sent numClosest s).val.advertised =
      s.advertised ++ selectedPeers (some own) buckets target
  known : ∀ p ∈ selectedPeers (some own) buckets target, p ∈ tablePeers buckets

theorem answers_of_eq {own target : HashID} {buckets : Model.Buckets}
    (h : TargetInTable own target) {numClosest : ℕ} {closest : Fin kValue → RPCPeer}
    (hcount : numClosest = (closestPeers (some own) buckets target bucketSize).length)
    (hlisted : Lookup.listedPeers closest numClosest =
      closestPeers (some own) buckets target bucketSize) :
    Answers own target buckets numClosest closest := by
  have hfits : numClosest ≤ kValue := hcount ▸ closestPeers_length_le _ _ _ _
  rw [← selectedPeers_eq] at hlisted
  refine ⟨by rw [hcount, closestPeers_length h]; rfl, hlisted, fun reader sent s hsent => ?_, ?_⟩
  · rw [(Lookup.hearPeers_heard reader sent numClosest s).advertised,
      Lookup.heardPeers_of_slots hsent hfits, hlisted]
  · rw [selectedPeers_eq]
    exact closestPeers_subset _ _ _ _

/-- Both FIND handlers answer with the peers selected by `find_closest_peers`. -/
theorem find_answers {own : HashID} {node : Node} {data : RPCFind}
    (hindex : TargetInTable own data.key) (hkey : storageGetValue node.storage data.key = none) :
    (∃ response, (handleFindNode (some own) node data).val.sent = some (.findNode response) ∧
        Answers own data.key node.buckets response.numClosest response.closest) ∧
      ∃ response, (handleFindValue (some own) node data).val.sent = some (.findValue response) ∧
        response.foundKey = 0 ∧
        Answers own data.key node.buckets response.numClosest response.closest := by
  unfold handleFindNode handleFindValue
  simp only [hkey, val_bind]
  cases hfound : (findClosestPeers (some own) node.buckets data.key bucketSize).val with
  | none =>
      have hnil := closestPeers_eq_nil hfound
      have hnone : Answers own data.key node.buckets 0 fun _ => zeroRPCPeer :=
        answers_of_eq hindex (by rw [hnil]; rfl) (by rw [hnil]; rfl)
      exact ⟨⟨_, rfl, hnone⟩, ⟨_, rfl, rfl, hnone⟩⟩
  | some closest =>
      obtain ⟨hcount, hlisted⟩ := fillClosest_selected hfound
      have hsome : Answers own data.key node.buckets (fillClosest closest bucketSize).val.1
          (fillClosest closest bucketSize).val.2 := answers_of_eq hindex hcount hlisted
      exact ⟨⟨_, rfl, hsome⟩, ⟨_, rfl, rfl, hsome⟩⟩

def idFrom (b : UInt8) : HashID := ⟨b :: List.replicate 31 0, rfl⟩

/-- A node that knows one peer, and a request for an id near it. -/
def oneNeighbor : Node :=
  { Node.initial with
    buckets := (updateBucketPeers (some (idFrom 0)) Buckets.empty ⟨idFrom 128, zeroAddr⟩).val }

def nearRequest : RPCFind := ⟨rpcHeader .findNode sizeofFind, idFrom 129⟩

theorem find_answers_oneNeighbor :
    (∃ response, (handleFindNode (some (idFrom 0)) oneNeighbor nearRequest).val.sent =
          some (.findNode response) ∧
        Answers (idFrom 0) nearRequest.key oneNeighbor.buckets response.numClosest
          response.closest) ∧
      ∃ response, (handleFindValue (some (idFrom 0)) oneNeighbor nearRequest).val.sent =
          some (.findValue response) ∧ response.foundKey = 0 ∧
        Answers (idFrom 0) nearRequest.key oneNeighbor.buckets response.numClosest
          response.closest :=
  find_answers (show TargetInTable (idFrom 0) (idFrom 129) from ⟨by decide, by decide⟩) rfl

end Kademlia.Buckets
