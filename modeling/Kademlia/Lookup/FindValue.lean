import Kademlia.Lookup.Answering
import Kademlia.Lookup.InTable

/-!
FIND_VALUE lookups in a fixed network.

The peers that can be reached are the walk along the closest lists of the peers
that answer without the value. A lookup finds the value exactly when one of
them has it, and takes it from the first of them in the order of the walk.
-/

namespace Kademlia.Lookup

open Foundations Foundations.Traced Foundations.Worklist Model Buckets

def heldValue (answers : SockAddrIn → Option Answer) (p : Peer) : Option RPCKeyValue :=
  (answers p.peerAddr).bind fun answer => valueOf answer.toRPCFindValueResponse

/-- The closest list of a peer that answers without the value. -/
def follows (answers : SockAddrIn → Option Answer) (p : Peer) : List Peer :=
  (answers p.peerAddr).elim [] fun answer => closestOf answer.toRPCFindValueResponse

/-- What a FIND_VALUE lookup returns when `order` are the peers to be reached.
The contacts are numbers of pending entries, and the pending list is an initial
part of `order`, so `order` is the order of the contacts. -/
structure FindValueResult (answers : SockAddrIn → Option Answer) (order : List Peer)
    (outPeers : ℕ → Option Peer) (result : LookupResult) : Prop where
  ret_eq : result.ret = 0 ∨ result.ret = -1
  ret_eq_zero_iff : result.ret = 0 ↔ ∃ p ∈ order, (heldValue answers p).isSome = true
  owners : ∀ (m : ℕ) p values, order[m]? = some p → heldValue answers p = some values →
    (∀ (i : ℕ) p', i < m → order[i]? = some p' → heldValue answers p' = none) →
      result.outPeers = withOwners values kValue outPeers
  contact_order : result.last.pending.data <+: order ∧
    result.last.contacts = List.range result.last.contacts.length
  contacted : result.ret = -1 →
    result.last.pending.data = order ∧ result.last.contacts = List.range order.length
  untouched : result.ret = -1 → result.outPeers = outPeers

section Fixed

variable {q : Search} (hfind : q.findValue = true) {net : Network}
  {answers : SockAddrIn → Option Answer} (hnet : IsFixed net answers)
include hfind hnet

theorem valueSent_eq_heldValue (n : ℕ) (p : Peer) :
    valueSent q.findValue (net n p) = heldValue answers p := by
  rw [valueSent, if_pos hfind, hnet n p, heldValue, Option.bind_map]
  rfl

theorem expand_eq_follows : expand q net = fun _ p => follows answers p := by
  ext1 n
  ext1 p
  have hcounts : ∀ answer ∈ (net n p).bind findValueAnswer, answer.numClosest ≤ kValue := by
    intro answer hanswer
    rw [hnet n p, Option.mem_map] at hanswer
    obtain ⟨sent, -, rfl⟩ := hanswer
    exact sent.numClosest_le
  rw [expand, hfind, closestSent_findValue hcounts, hnet n p, follows]
  cases answers p.peerAddr <;> rfl

end Fixed

theorem FindValueResult.of_exhausted {q : Search} (hfind : q.findValue = true)
    {answers : SockAddrIn → Option Answer} {order : List Peer} {outPeers : ℕ → Option Peer}
    {s : LookupState} (h : Exhausted outPeers order s)
    (hnone : ∀ p ∈ order, heldValue answers p = none) :
    FindValueResult answers order outPeers (s.finish q) := by
  have hfinish : s.finish q = ⟨-1, s.outPeers, s⟩ := by
    simp [LookupState.finish, hfind, h.valueFound]
  rw [hfinish]
  refine ⟨Or.inr rfl, ?_, ?_, ⟨?_, ?_⟩, fun _ => ⟨h.pending, h.contacts⟩, fun _ => h.outPeers⟩
  · constructor
    · intro hret
      cases hret
    · rintro ⟨p, hp, hsome⟩
      rw [hnone p hp] at hsome
      cases hsome
  · intro m p values hp hvalues _
    rw [hnone p (List.mem_of_getElem? hp)] at hvalues
    cases hvalues
  · rw [h.pending]
  · rw [h.contacts, List.length_range]

theorem FindValueResult.of_found {q : Search} (hfind : q.findValue = true)
    (hmax : q.maxPeers = kValue) {answers : SockAddrIn → Option Answer} {order : List Peer}
    {outPeers : ℕ → Option Peer} {m : ℕ} {p : Peer} {values : RPCKeyValue} {s : LookupState}
    (h : Found q outPeers m values s) (hpending : s.pending.data <+: order)
    (hp : order[m]? = some p) (hvalues : heldValue answers p = some values)
    (hnone : ∀ i p', i < m → order[i]? = some p' → heldValue answers p' = none) :
    FindValueResult answers order outPeers (s.finish q) := by
  have hfinish : s.finish q = ⟨0, s.outPeers, s⟩ := by
    simp [LookupState.finish, hfind, h.valueFound]
  have hret : ¬ (0 : ℤ) = -1 := by decide
  rw [hfinish]
  refine ⟨Or.inl rfl, ?_, ?_, ⟨hpending, ?_⟩, fun h => absurd h hret, fun h => absurd h hret⟩
  · have hsome : (heldValue answers p).isSome = true := by rw [hvalues]; rfl
    exact ⟨fun _ => ⟨p, List.mem_of_getElem? hp, hsome⟩, fun _ => rfl⟩
  · intro m' p' values' hp' hvalues' hfirst
    have hm : m' = m := by
      rcases Nat.lt_trichotomy m' m with hlt | heq | hgt
      · rw [hnone m' p' hlt hp'] at hvalues'
        cases hvalues'
      · exact heq
      · rw [hfirst m p hgt hp] at hvalues
        cases hvalues
    subst hm
    rw [hp] at hp'
    cases hp'
    rw [hvalues] at hvalues'
    cases hvalues'
    rw [← hmax]
    exact h.outPeers
  · rw [h.contacts, List.length_range]

/-- `iterative_find_peers(key, out_peers, K_VALUE, true)` stays within its arrays
and returns what the peers of `order` make of it. -/
def FindsValue (own : Option HashID) (key : HashID) (net : Network)
    (answers : SockAddrIn → Option Answer) (buckets : Model.Buckets)
    (outPeers : ℕ → Option Peer) (order : List Peer) (fuel : ℕ) : Prop :=
  Defined (iterativeFindPeers ⟨own, key, kValue, true⟩ net buckets outPeers fuel) ∧
    ∃ result, (iterativeFindPeers ⟨own, key, kValue, true⟩ net buckets outPeers fuel).val =
        some result ∧ FindValueResult answers order outPeers result

/-- The key has a place in the table, and so has every peer that is listed on the
way to the first one with the value. -/
def WayInTable (own : Option HashID) (key : HashID) (answers : SockAddrIn → Option Answer)
    (order : List Peer) : Prop :=
  InTable own key ∧ ∀ (i : ℕ) p, order[i]? = some p →
    (∀ (j : ℕ) p', j < i → order[j]? = some p' → heldValue answers p' = none) →
      ∀ r ∈ follows answers p, InTable own r.peerId

theorem IsFixed.slotsFit {net : Network} {answers : SockAddrIn → Option Answer}
    (hnet : IsFixed net answers) (n : ℕ) (p : Peer) : SlotsFit true (net n p) := by
  rw [SlotsFit, if_pos rfl]
  intro answer hanswer
  rw [hnet n p, Option.mem_map] at hanswer
  obtain ⟨sent, -, rfl⟩ := hanswer
  exact ⟨sent.numValues_le, sent.numClosest_le⟩

/-- The lookup has a result along the walk, and is defined when all that it hears
of on the way has a place in the table. -/
theorem exists_walk (own : Option HashID) (key : HashID) {net : Network}
    {answers : SockAddrIn → Option Answer} (hnet : IsFixed net answers)
    (buckets : Model.Buckets) (outPeers : ℕ → Option Peer) :
    ∃ order bound,
      Reaches Peer.peerId (fun _ p => follows answers p) 0
        (initialPeers ⟨own, key, kValue, true⟩ buckets).val order.length order ∧
      ∀ fuel, bound ≤ fuel →
        (Defined (iterativeFindPeers ⟨own, key, kValue, true⟩ net buckets outPeers fuel) ↔
          WayInTable own key answers order) ∧
        ∃ result, (iterativeFindPeers ⟨own, key, kValue, true⟩ net buckets outPeers fuel).val =
          some result ∧ FindValueResult answers order outPeers result := by
  have hfit := hnet.slotsFit
  generalize hq : (⟨own, key, kValue, true⟩ : Search) = q
  have hfind : q.findValue = true := by rw [← hq]
  have hmax : q.maxPeers = kValue := by rw [← hq]
  have hown : q.own = own := by rw [← hq]
  have hkey : q.targetKey = key := by rw [← hq]
  have hpos : q.maxPeers ≠ 0 := by
    rw [hmax]
    decide
  rw [← hfind] at hfit
  obtain ⟨n, m, order, hwalk, hsent, hpending, hend⟩ :=
    exists_end q net (initialPeers q buckets).val outPeers buckets
  have hexpand := expand_eq_follows hfind hnet
  have hnone : ∀ i p, i < m → order[i]? = some p → heldValue answers p = none := by
    intro i p hi hp
    rw [← valueSent_eq_heldValue hfind hnet i p]
    exact hsent i p hi hp
  rw [hexpand] at hwalk
  rcases hend with ⟨hm, hexhausted⟩ | ⟨p, values, hp, hvalues, hfound⟩
  · refine ⟨order, n, hm ▸ hwalk, fun fuel hfuel => ⟨?_, _,
      iterativeFindPeers_of_exit hpos hexhausted.position hfuel,
      .of_exhausted hfind hexhausted ?_⟩⟩
    · rw [defined_along_iff hpos hfit hpending hexhausted.contacts hexhausted.position hfuel,
        WayInTable, hown, hkey, hexpand]
      refine and_congr_right fun _ => ⟨fun h i p hp _ => ?_, fun h i p hi hp => ?_⟩
      · exact h i p (List.getElem?_eq_some_iff.mp hp).1 hp
      · exact h i p hp fun j p' hj hp' => hnone j p' (by omega) hp'
    · intro p hp
      obtain ⟨i, hi⟩ := List.getElem?_of_mem hp
      have hlt : i < order.length := (List.getElem?_eq_some_iff.mp hi).1
      exact hnone i p (by omega) hi
  · -- the walk goes on behind the entry at which the lookup stopped
    obtain ⟨m', final, hrest, -, hlast⟩ := exists_reaches Peer.peerId
      (fun _ p => follows answers p) (fun _ _ => false) m order
    have hfull := hwalk.trans hrest
    have hm' : final.length = m' := by
      have hle := hfull.le_length (Nat.zero_le _)
      rcases hlast with hlast | ⟨_, -, hstop⟩
      · exact le_antisymm hlast hle
      · cases hstop
    have hlt : m < order.length := (List.getElem?_eq_some_iff.mp hp).1
    have hfinal : ∀ i, i ≤ m → final[i]? = order[i]? := by
      intro i hi
      obtain ⟨others, rfl⟩ := hrest.grows
      rw [List.getElem?_append_left (by omega)]
    rw [valueSent_eq_heldValue hfind hnet] at hvalues
    refine ⟨final, n, hm' ▸ hfull, fun fuel hfuel => ⟨?_, _,
      iterativeFindPeers_of_exit hpos hfound.position hfuel,
      .of_found hfind hmax hfound (hpending ▸ hrest.grows) (hfinal m le_rfl ▸ hp) hvalues ?_⟩⟩
    · rw [defined_along_iff hpos hfit hpending hfound.contacts hfound.position hfuel,
        WayInTable, hown, hkey, hexpand]
      refine and_congr_right fun _ => ⟨fun h i r hr hfirst => ?_, fun h i r hi hr => ?_⟩
      · -- nothing behind the entry with the value is contacted
        have hi : i ≤ m := by
          by_contra hgt
          have hheld := hfirst m p (by omega) (hfinal m le_rfl ▸ hp)
          rw [hvalues] at hheld
          cases hheld
        exact h i r (by omega) (hfinal i hi ▸ hr)
      · refine h i r (hfinal i (by omega) ▸ hr) fun j p' hj hp' => ?_
        exact hnone j p' (by omega) (hfinal j (by omega) ▸ hp')
    · intro i p' hi hp'
      exact hnone i p' hi (hfinal i hi.le ▸ hp')

/-- FIND_VALUE lookups are sound and complete, the value being found exactly when
a peer that can be reached has it, as long as all that is heard of on the way has
a place in the table, and only then. -/
theorem findsValue_iff (own : Option HashID) (key : HashID) {net : Network}
    {answers : SockAddrIn → Option Answer} (hnet : IsFixed net answers)
    (buckets : Model.Buckets) (outPeers : ℕ → Option Peer) :
    ∃ order bound,
      Reaches Peer.peerId (fun _ p => follows answers p) 0
        (initialPeers ⟨own, key, kValue, true⟩ buckets).val order.length order ∧
      ∀ fuel, bound ≤ fuel →
        (FindsValue own key net answers buckets outPeers order fuel ↔
          WayInTable own key answers order) := by
  obtain ⟨order, bound, hwalk, h⟩ := exists_walk own key hnet buckets outPeers
  refine ⟨order, bound, hwalk, fun fuel hfuel => ?_⟩
  obtain ⟨hdefined, hresult⟩ := h fuel hfuel
  rw [FindsValue, hdefined]
  exact and_iff_left hresult

/-- The node with id zero knows one peer, which lists another, which has the value. -/
theorem findsValue_iff_path :
    ∃ order bound,
      Reaches Peer.peerId (fun _ p => follows (fun addr => (pathReplies true addr).map
          FoundValue.answer) p) 0
        (initialPeers ⟨some (sparseID 0 0), sparseID 1 0, kValue, true⟩
          (tableOf [sparsePeer 1 1])).val order.length order ∧
      ∀ fuel, bound ≤ fuel →
        FindsValue (some (sparseID 0 0)) (sparseID 1 0)
          (answering fun addr => (pathReplies true addr).map FoundValue.toWhole)
          (fun addr => (pathReplies true addr).map FoundValue.answer)
          (tableOf [sparsePeer 1 1]) (fun _ => none) order fuel := by
  obtain ⟨order, bound, hwalk, h⟩ := findsValue_iff (some (sparseID 0 0)) (sparseID 1 0)
    (isFixed_answering (pathReplies true)) (tableOf [sparsePeer 1 1]) fun _ => none
  refine ⟨order, bound, hwalk, fun fuel hfuel => (h fuel hfuel).mpr ⟨by decide, ?_⟩⟩
  intro i p _ _ r hr
  rw [follows, pathReplies] at hr
  split at hr
  · revert r
    decide +kernel
  · split at hr
    · revert r
      decide +kernel
    · cases hr

/-- The same network, but the listed peer differs from the own id only behind the
first byte: its bucket is not in the table. -/
theorem not_findsValue_path :
    IsFixed (answering fun addr => (pathReplies false addr).map FoundValue.toWhole)
        (fun addr => (pathReplies false addr).map FoundValue.answer) ∧
      ¬ ∃ order bound,
        Reaches Peer.peerId (fun _ p => follows (fun addr => (pathReplies false addr).map
            FoundValue.answer) p) 0
          (initialPeers ⟨some (sparseID 0 0), sparseID 1 0, kValue, true⟩
            (tableOf [sparsePeer 1 1])).val order.length order ∧
        ∀ fuel, bound ≤ fuel →
          FindsValue (some (sparseID 0 0)) (sparseID 1 0)
            (answering fun addr => (pathReplies false addr).map FoundValue.toWhole)
            (fun addr => (pathReplies false addr).map FoundValue.answer)
            (tableOf [sparsePeer 1 1]) (fun _ => none) order fuel := by
  have hfixed := isFixed_answering (pathReplies false)
  refine ⟨hfixed, ?_⟩
  rintro ⟨order, bound, hwalk, hfinds⟩
  obtain ⟨order', bound', hwalk', h⟩ := exists_walk (some (sparseID 0 0)) (sparseID 1 0) hfixed
    (tableOf [sparsePeer 1 1]) fun _ => none
  obtain ⟨hdefined, -⟩ := h (max bound bound') (le_max_right _ _)
  have hway := hdefined.mp (hfinds (max bound bound') (le_max_left _ _)).1
  -- the first peer of the walk is the one of the table
  have hfirst : order'[0]? = some (sparsePeer 1 1) :=
    getElem?_of_isPrefix_of hwalk'.grows (by decide +kernel)
  have hlisted := hway.2 0 _ hfirst (fun j _ hj => absurd hj (Nat.not_lt_zero j))
  revert hlisted
  decide +kernel

end Kademlia.Lookup
