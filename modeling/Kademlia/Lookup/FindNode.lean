import Kademlia.Buckets.BucketOrder
import Kademlia.Buckets.Nearest
import Kademlia.Lookup.FindValue

/-!
FIND_NODE lookups.

Nothing ends such a lookup before its list is exhausted, so the pending list is
the closure of the initial one. It is then sorted by the distance to the key,
and its front is returned.
-/

namespace Kademlia.Lookup

open Foundations Foundations.Traced Foundations.Worklist Model Buckets

/-! ### Sorting by distance -/

theorem memcmp_lt_zero_iff {l l' : List UInt8} (hlen : l.length = l'.length) :
    memcmp l l' < 0 ↔ bigEndian l < bigEndian l' := by
  induction l generalizing l' with
  | nil =>
      rw [List.eq_nil_of_length_eq_zero hlen.symm]
      simp [memcmp]
  | cons a l ih =>
      obtain ⟨b, l', rfl⟩ := List.exists_cons_of_length_eq_add_one hlen.symm
      have htail : l.length = l'.length := by simpa using hlen
      rw [memcmp]
      rcases byte_trichotomy a b with hlt | rfl | hgt
      · have hbytes := UInt8.lt_iff_toNat_lt.mp hlt
        have hne : a ≠ b := fun h => by rw [h] at hbytes; exact lt_irrefl _ hbytes
        rw [if_neg hne]
        exact iff_of_true (by omega) (bigEndian_lt_of_head_lt htail hlt)
      · rw [if_pos rfl, ih htail, bigEndian, bigEndian, htail, Nat.add_lt_add_iff_left]
      · have hbytes := UInt8.lt_iff_toNat_lt.mp hgt
        have hne : a ≠ b := fun h => by rw [h] at hbytes; exact lt_irrefl _ hbytes
        rw [if_neg hne]
        exact iff_of_false (by omega) (bigEndian_lt_of_head_lt htail.symm hgt).asymm

theorem peerDistanceCmp_iff (target : HashID) (a b : Peer) :
    peerDistanceCmp target a b = true ↔ distance target a.peerId < distance target b.peerId := by
  rw [peerDistanceCmp, decide_eq_true_iff, memcmp_lt_zero_iff (by simp), distance, distance]

theorem peerDistanceCmp_eq_false_iff (target : HashID) (a b : Peer) :
    peerDistanceCmp target a b = false ↔
      distance target b.peerId ≤ distance target a.peerId := by
  rw [← Bool.not_eq_true, peerDistanceCmp_iff, not_lt]

theorem peerDistanceCmp_order (target : HashID) :
    BubbleSort.Order (peerDistanceCmp target) where
  asymm a b h := by
    rw [peerDistanceCmp_iff] at h
    rw [peerDistanceCmp_eq_false_iff]
    exact h.le
  trans_not a b c hab hbc := by
    rw [peerDistanceCmp_eq_false_iff] at *
    exact hab.trans hbc

/-- Ids are in a total order by `peer_distance_cmp`. -/
structure OrdersIds (target : HashID) : Prop where
  irrefl : ∀ a, peerDistanceCmp target a a = false
  trans : ∀ a b c, peerDistanceCmp target a b = true → peerDistanceCmp target b c = true →
    peerDistanceCmp target a c = true
  connected : ∀ a b, peerDistanceCmp target a b = false → peerDistanceCmp target b a = false →
    a.peerId = b.peerId

theorem ordersIds (target : HashID) : OrdersIds target where
  irrefl a := (peerDistanceCmp_eq_false_iff target a a).mpr le_rfl
  trans a b c hab hbc := by
    rw [peerDistanceCmp_iff] at *
    exact hab.trans hbc
  connected a b hab hba := by
    rw [peerDistanceCmp_eq_false_iff] at hab hba
    exact distance_injective target (le_antisymm hba hab)

/-- Both comparisons are the one of the exclusive ors of the ids as numbers. -/
theorem comparisons_agree (target : HashID) (a b : Peer) :
    (peerDistanceCmp target a b = true ↔
        compareHashes (distHash a.peerId target) (distHash b.peerId target) = -1) ∧
      (peerDistanceCmp target a b = true ↔
        bigEndian a.peerId.toList ^^^ bigEndian target.toList <
          bigEndian b.peerId.toList ^^^ bigEndian target.toList) ∧
      OrdersIds target := by
  refine ⟨?_, ?_, ordersIds target⟩
  · rw [peerDistanceCmp_iff, compareHashes_eq_neg_one_iff]
  · rw [peerDistanceCmp_iff, distance_eq_xor, distance_eq_xor]

/-! ### The result -/

/-- The peers `placed` are some nearest ones of `pending`, nearest first. -/
structure NearestFirst (target : HashID) (count : ℕ) (pending placed : List Peer) : Prop where
  length_eq : placed.length = min count pending.length
  sorted : placed.Pairwise fun a b => distance target a.peerId ≤ distance target b.peerId
  /-- as multisets, `pending` is `placed` and the peers that were left out -/
  nearest : ∃ others, (placed ++ others).Perm pending ∧
    ∀ p ∈ placed, ∀ r ∈ others, distance target p.peerId ≤ distance target r.peerId

/-- What a FIND_NODE lookup from `initial` returns. The `i`th contact is the
one to the `i`th pending peer, which sends the closest list `expand q net i`. -/
structure FindNodeResult (q : Search) (net : Network) (initial : List Peer)
    (outPeers : ℕ → Option Peer) (result : LookupResult) : Prop where
  ret : result.ret = 0
  contacts : result.last.contacts = List.range result.last.pending.size
  closure : Closure Peer.peerId (expand q net) initial result.last.pending.data
  nearest : ∃ placed, NearestFirst q.targetKey q.maxPeers result.last.pending.data placed ∧
    result.outPeers = fun i => if i < placed.length then placed[i]? else outPeers i

theorem nearestFirst_take_sort (target : HashID) (count : ℕ) (pending : List Peer) :
    NearestFirst target count pending
      ((BubbleSort.sort (peerDistanceCmp target) pending).take count) := by
  have hperm := BubbleSort.sort_perm (peerDistanceCmp target) pending
  have hsorted := BubbleSort.sort_sorted (peerDistanceCmp_order target) pending
  generalize BubbleSort.sort (peerDistanceCmp target) pending = sorted at hperm hsorted
  have hle : sorted.Pairwise fun a b => distance target a.peerId ≤ distance target b.peerId :=
    hsorted.imp fun h => (peerDistanceCmp_eq_false_iff target _ _).mp h
  rw [← List.take_append_drop count sorted, List.pairwise_append] at hle
  obtain ⟨hfront, -, hcross⟩ := hle
  refine ⟨?_, hfront, sorted.drop count, ?_, hcross⟩
  · rw [List.length_take, hperm.length_eq]
  · rwa [List.take_append_drop]

theorem finish_findNode {q : Search} (hfind : q.findValue = false) {s : LookupState}
    {placed : List Peer}
    (hplaced : (BubbleSort.sort (peerDistanceCmp q.targetKey) s.pending.data).take q.maxPeers =
      placed) :
    s.finish q =
      ⟨0, fun i => if i < placed.length then placed[i]? else s.outPeers i, s⟩ := by
  have hlen : min (vectorSort s.pending (peerDistanceCmp q.targetKey)).size q.maxPeers =
      placed.length := by
    rw [← hplaced, List.length_take, VectorPtr.size, data_vectorSort, Nat.min_comm]
  simp only [LookupState.finish, hfind, Bool.false_eq_true, if_false, hlen, foldl_update_eq]
  congr 1
  ext1 i
  split
  · next hi =>
      have hcount : i < q.maxPeers := by
        rw [← hplaced, List.length_take] at hi
        omega
      rw [vectorGet, data_vectorSort, ← hplaced, List.getElem?_take_of_lt hcount]
  · rfl

theorem FindNodeResult.of_exhausted {q : Search} (hfind : q.findValue = false) {net : Network}
    {initial order : List Peer} {outPeers : ℕ → Option Peer} {s : LookupState}
    (h : Exhausted outPeers order s)
    (hwalk : Reaches Peer.peerId (expand q net) 0 initial order.length order) :
    FindNodeResult q net initial outPeers (s.finish q) := by
  rw [finish_findNode hfind rfl, h.outPeers]
  refine ⟨rfl, ?_, ?_, _, nearestFirst_take_sort _ _ _, rfl⟩
  · rw [h.contacts, VectorPtr.size, h.pending]
  · rw [h.pending]
    exact hwalk.closure le_rfl

theorem exists_exhausted (q : Search) (hfind : q.findValue = false) (net : Network)
    (initial : List Peer) (outPeers : ℕ → Option Peer) (buckets : Buckets) :
    ∃ n order, Reaches Peer.peerId (expand q net) 0 initial order.length order ∧
      (after q net n (LookupState.start initial outPeers buckets)).pending.data = order ∧
      Exhausted outPeers order
        (after q net n (LookupState.start initial outPeers buckets)) := by
  obtain ⟨n, m, order, hwalk, -, hpending, hend⟩ := exists_end q net initial outPeers buckets
  rcases hend with ⟨rfl, h⟩ | ⟨p, values, -, hvalues, -⟩
  · exact ⟨n, order, hwalk, hpending, h⟩
  · rw [(closestSent_of_valueSent hvalues).2] at hfind
    cases hfind

theorem exists_findNodeResult (q : Search) (hfind : q.findValue = false) (net : Network)
    (initial : List Peer) (outPeers : ℕ → Option Peer) (buckets : Buckets) :
    ∃ n, (after q net n (LookupState.start initial outPeers buckets)).position = .exit ∧
      FindNodeResult q net initial outPeers
        ((after q net n (LookupState.start initial outPeers buckets)).finish q) := by
  obtain ⟨n, order, hwalk, -, h⟩ := exists_exhausted q hfind net initial outPeers buckets
  exact ⟨n, h.position, .of_exhausted hfind h hwalk⟩

theorem findNodeResult_of_some {own : Option HashID} {key : HashID} {maxPeers : ℕ}
    (hmax : 0 < maxPeers) {net : Network} {buckets : Buckets} {outPeers : ℕ → Option Peer}
    {fuel : ℕ} {result : LookupResult}
    (h : (iterativeFindPeers ⟨own, key, maxPeers, false⟩ net buckets outPeers fuel).val =
      some result) :
    FindNodeResult ⟨own, key, maxPeers, false⟩ net
      (initialPeers ⟨own, key, maxPeers, false⟩ buckets).val outPeers result := by
  obtain ⟨n, hexit, hresult⟩ := exists_findNodeResult ⟨own, key, maxPeers, false⟩ rfl net
    (initialPeers ⟨own, key, maxPeers, false⟩ buckets).val outPeers buckets
  have hlonger := iterativeFindPeers_of_le h (le_max_right n fuel)
  rw [iterativeFindPeers_of_exit hmax.ne' hexit (le_max_left n fuel)] at hlonger
  exact Option.some.inj hlonger ▸ hresult

/-- `iterative_find_peers(key, out_peers, max_peers, false)` stays within its arrays,
contacts the closure of the initial list and returns the peers of it that are
nearest to the key. -/
def FindsNodes (own : Option HashID) (key : HashID) (maxPeers : ℕ) (net : Network)
    (buckets : Model.Buckets) (outPeers : ℕ → Option Peer) (fuel : ℕ) : Prop :=
  Defined (iterativeFindPeers ⟨own, key, maxPeers, false⟩ net buckets outPeers fuel) ∧
    ∃ result, (iterativeFindPeers ⟨own, key, maxPeers, false⟩ net buckets outPeers fuel).val =
        some result ∧
      FindNodeResult ⟨own, key, maxPeers, false⟩ net
        (initialPeers ⟨own, key, maxPeers, false⟩ buckets).val outPeers result

/-- The key has a place in the table, and so has every peer that the peers of
`order` list. -/
def ClosureInTable (q : Search) (net : Network) (order : List Peer) : Prop :=
  InTable q.own q.targetKey ∧ ∀ (i : ℕ) p, order[i]? = some p →
    ∀ r ∈ expand q net i p, InTable q.own r.peerId

theorem exists_closure (own : Option HashID) (key : HashID) {maxPeers : ℕ} (hmax : 0 < maxPeers)
    {net : Network}
    (hnet : ∀ n p, ∀ answer ∈ (net n p).bind findNodeAnswer, answer.numClosest ≤ kValue)
    (buckets : Model.Buckets) (outPeers : ℕ → Option Peer) :
    ∃ order bound,
      Reaches Peer.peerId (expand ⟨own, key, maxPeers, false⟩ net) 0
        (initialPeers ⟨own, key, maxPeers, false⟩ buckets).val order.length order ∧
      ∀ fuel, bound ≤ fuel →
        (Defined (iterativeFindPeers ⟨own, key, maxPeers, false⟩ net buckets outPeers fuel) ↔
          ClosureInTable ⟨own, key, maxPeers, false⟩ net order) ∧
        ∃ result, (iterativeFindPeers ⟨own, key, maxPeers, false⟩ net buckets outPeers
            fuel).val = some result ∧
          FindNodeResult ⟨own, key, maxPeers, false⟩ net
            (initialPeers ⟨own, key, maxPeers, false⟩ buckets).val outPeers result := by
  have hfit : ∀ n p, SlotsFit false (net n p) := fun n p => by
    rw [SlotsFit, if_neg Bool.false_ne_true]
    exact hnet n p
  obtain ⟨n, order, hwalk, hpending, hexhausted⟩ := exists_exhausted
    ⟨own, key, maxPeers, false⟩ rfl net (initialPeers ⟨own, key, maxPeers, false⟩ buckets).val
    outPeers buckets
  refine ⟨order, n, hwalk, fun fuel hfuel => ⟨?_, _,
    iterativeFindPeers_of_exit hmax.ne' hexhausted.position hfuel,
    .of_exhausted rfl hexhausted hwalk⟩⟩
  rw [defined_along_iff hmax.ne' hfit hpending hexhausted.contacts hexhausted.position hfuel,
    ClosureInTable]
  refine and_congr_right fun _ => ⟨fun h i p hp => ?_, fun h i p _ hp => h i p hp⟩
  exact h i p (List.getElem?_eq_some_iff.mp hp).1 hp

/-- A FIND_NODE lookup does what it is for exactly when the key and all peers that
are listed to it have a place in the table. -/
theorem findsNodes_iff (own : Option HashID) (key : HashID) {maxPeers : ℕ} (hmax : 0 < maxPeers)
    {net : Network}
    (hnet : ∀ n p, ∀ answer ∈ (net n p).bind findNodeAnswer, answer.numClosest ≤ kValue)
    (buckets : Model.Buckets) (outPeers : ℕ → Option Peer) :
    ∃ order bound,
      Reaches Peer.peerId (expand ⟨own, key, maxPeers, false⟩ net) 0
        (initialPeers ⟨own, key, maxPeers, false⟩ buckets).val order.length order ∧
      ∀ fuel, bound ≤ fuel →
        (FindsNodes own key maxPeers net buckets outPeers fuel ↔
          ClosureInTable ⟨own, key, maxPeers, false⟩ net order) := by
  obtain ⟨order, bound, hwalk, h⟩ := exists_closure own key hmax hnet buckets outPeers
  refine ⟨order, bound, hwalk, fun fuel hfuel => ?_⟩
  obtain ⟨hdefined, hresult⟩ := h fuel hfuel
  rw [FindsNodes, hdefined]
  exact and_iff_left hresult

/-- The node with id zero knows one peer, which lists another, which is silent. -/
theorem findsNodes_iff_path :
    ∃ order bound,
      Reaches Peer.peerId (expand ⟨some (sparseID 0 0), sparseID 1 0, kValue, false⟩
          (answering (nodeReplies true))) 0
        (initialPeers ⟨some (sparseID 0 0), sparseID 1 0, kValue, false⟩
          (tableOf [sparsePeer 1 1])).val order.length order ∧
      ∀ fuel, bound ≤ fuel →
        FindsNodes (some (sparseID 0 0)) (sparseID 1 0) kValue (answering (nodeReplies true))
          (tableOf [sparsePeer 1 1]) (fun _ => none) fuel := by
  obtain ⟨order, bound, hwalk, h⟩ := findsNodes_iff (some (sparseID 0 0)) (sparseID 1 0)
    (show 0 < kValue by decide) (numClosest_nodeReplies true) (tableOf [sparsePeer 1 1])
    fun _ => none
  refine ⟨order, bound, hwalk, fun fuel hfuel => (h fuel hfuel).mpr ⟨by decide, ?_⟩⟩
  intro i p _ r hr
  rw [expand_nodeReplies] at hr
  split at hr
  · revert r
    decide +kernel
  · cases hr

/-- The same network, but the listed peer differs from the own id only behind the
first byte: its bucket is not in the table. -/
theorem not_findsNodes_path :
    (∀ n p, ∀ answer ∈ (answering (nodeReplies false) n p).bind findNodeAnswer,
        answer.numClosest ≤ kValue) ∧
      ∀ bound, ∃ fuel, bound ≤ fuel ∧
        ¬ FindsNodes (some (sparseID 0 0)) (sparseID 1 0) kValue (answering (nodeReplies false))
          (tableOf [sparsePeer 1 1]) (fun _ => none) fuel := by
  refine ⟨numClosest_nodeReplies false, fun bound => ?_⟩
  obtain ⟨order, bound', hwalk, h⟩ := exists_closure (some (sparseID 0 0)) (sparseID 1 0)
    (show 0 < kValue by decide) (numClosest_nodeReplies false) (tableOf [sparsePeer 1 1])
    fun _ => none
  refine ⟨max bound bound', le_max_left _ _, fun hfinds => ?_⟩
  have hclosure := (h _ (le_max_right bound bound')).1.mp hfinds.1
  -- the first peer of the walk is the one of the table
  have hfirst : order[0]? = some (sparsePeer 1 1) :=
    getElem?_of_isPrefix_of hwalk.grows (by decide +kernel)
  have hlisted := hclosure.2 0 _ hfirst
  rw [expand_nodeReplies] at hlisted
  revert hlisted
  decide +kernel

/-! ### What is returned twice -/

theorem NearestFirst.duplicate {target : HashID} {count : ℕ} {pending placed : List Peer}
    (h : NearestFirst target count pending placed) {id : HashID}
    (hid : (placed.map Peer.peerId).Duplicate id) :
    (pending.map Peer.peerId).Duplicate id := by
  obtain ⟨others, hperm, -⟩ := h.nearest
  rw [List.duplicate_iff_two_le_count] at hid ⊢
  rw [← (hperm.map Peer.peerId).count_eq, List.map_append, List.count_append]
  exact hid.trans (Nat.le_add_right _ _)

/-- An id that the lookup returns twice was twice among its initial peers. -/
theorem FindNodeResult.duplicate {q : Search} {net : Network} {initial : List Peer}
    {result : LookupResult} (h : FindNodeResult q net initial (fun _ => none) result)
    {i j : ℕ} (hij : i < j) {p p' : Peer} (hp : result.outPeers i = some p)
    (hp' : result.outPeers j = some p') (hid : p.peerId = p'.peerId) :
    (initial.map Peer.peerId).Duplicate p.peerId := by
  obtain ⟨placed, hplaced, hout⟩ := h.nearest
  have hget : ∀ {k : ℕ} {r : Peer}, result.outPeers k = some r → placed[k]? = some r := by
    intro k r hr
    rw [hout] at hr
    dsimp only at hr
    split at hr
    · exact hr
    · cases hr
  obtain ⟨hi, hp⟩ := List.getElem?_eq_some_iff.mp (hget hp)
  obtain ⟨hj, hp'⟩ := List.getElem?_eq_some_iff.mp (hget hp')
  refine duplicate_of_grown _ _ h.closure.grown (hplaced.duplicate ?_)
  rw [List.duplicate_iff_exists_distinct_get]
  refine ⟨⟨i, by simpa using hi⟩, ⟨j, by simpa using hj⟩, hij, ?_, ?_⟩
  · simp [hp]
  · simp [hp', hid]

end Kademlia.Lookup
