import Kademlia.Lookup.Uniqueness
import Kademlia.Protocol.Growth

/-!
A whole lookup over the nodes of a network.

The nodes that a lookup contacts answer it from their tables and storages. So what it
comes to is read off these: it walks from node to node along the peers that they select,
and ends at an entry, or where nothing new is selected.
-/

namespace Kademlia.Protocol

open Foundations Foundations.Source Foundations.Traced Foundations.Worklist Model Framing Buckets
  Lookup

section

variable {N : Type} (own : N → Option HashID) (node : N → Node) (listens : SockAddrIn → Option N)

/-- The entry for `key` of the node that listens at the address of a peer. -/
def entryAt (key : HashID) (p : Peer) : Option KeyValuePair :=
  (listens p.peerAddr).bind fun n => (node n).storage key

/-- The peers that this node selects for `key`. -/
def selects (key : HashID) (p : Peer) : List Peer :=
  (listens p.peerAddr).elim [] fun n => closestPeers (own n) (node n).buckets key bucketSize

/-- What a lookup goes on with: nothing, when it was sent the value. -/
def hears (q : Search) (p : Peer) : List Peer :=
  if q.findValue = true ∧ (entryAt node listens q.targetKey p).isSome then []
  else selects own node listens q.targetKey p

/-- The nodes answer the lookup. The request arrives at each over a connection that the peek and
the first chunk have enough of, and so does the response; to answer, the node uses no index outside
of its table. Where none listens, or one that is busy, no packet comes back. -/
structure Serves (q : Search) (net : Network) : Prop where
  silent : ∀ i p session, listens p.peerAddr = none → net i p = some session →
    (receiveReply session).val = none
  answers : ∀ i p n, listens p.peerAddr = some n → ∃ stack buf peeks conn r session,
    Arrives (.find (findRequest q)) peeks conn ∧
      (handleConnected (own n) stack (node n) buf peeks conn).Stays .buckets bucketCount ∧
      (handleConnected (own n) stack (node n) buf peeks conn).val.outcome =
        .dispatched (some r) ∧
      net i p = some session ∧ Replies session r

end

variable {N : Type} {own : N → Option HashID} {node : N → Node} {listens : SockAddrIn → Option N}
  {q : Search} {net : Network}

/-! ### One contact -/

theorem sent_of_silent {session : Option Session}
    (h : ∀ session', session = some session' → (receiveReply session').val = none) :
    closestSent q.findValue session = [] ∧ valueSent q.findValue session = none := by
  cases session with
  | none => cases q.findValue <;> exact ⟨rfl, rfl⟩
  | some session =>
      have hreply := h session rfl
      have hvalue : findValueAnswer session = none := by
        rw [findValueAnswer, hreply]
        rfl
      rw [closestSent, valueSent, Option.bind_some, Option.bind_some, hreply, hvalue]
      cases q.findValue <;> exact ⟨rfl, rfl⟩

theorem Serves.asked (h : Serves own node listens q net) {p : Peer} {n : N}
    (hn : listens p.peerAddr = some n) (i : ℕ) :
    ∃ stack r session,
      (handlePacket (own n) stack (node n) (.find (findRequest q))).val.sent = some r ∧
        net i p = some session ∧ Replies session r := by
  obtain ⟨stack, buf, peeks, conn, r, session, harrives, -, hr, hnet, hreplies⟩ :=
    h.answers i p n hn
  have hhandled := (harrives.handled (formed_findRequest q) (own n) stack (node n) buf).2
  exact ⟨stack, r, session, Outcome.dispatched.inj (hhandled.symm.trans hr), hnet, hreplies⟩

/-- A node without an entry, or not asked for one, sends what it selects. -/
theorem Serves.closest (h : Serves own node listens q net)
    {p : Peer} (hentry : q.findValue = true → entryAt node listens q.targetKey p = none) (i : ℕ) :
    closestSent q.findValue (net i p) = selects own node listens q.targetKey p ∧
      valueSent q.findValue (net i p) = none := by
  rw [selects]
  cases hn : listens p.peerAddr with
  | none => exact sent_of_silent fun session hsession => h.silent i p session hn hsession
  | some n =>
      obtain ⟨stack, r, session, hr, hnet, hreplies⟩ := h.asked hn i
      have hmissing : q.findValue = true → (node n).storage q.targetKey = none := fun hfind => by
        have hnone := hentry hfind
        rwa [entryAt, hn, Option.bind_some] at hnone
      obtain ⟨-, r', -, hr', hsent⟩ := answer_closest hmissing (own n) stack
      obtain rfl : r = r' := Option.some.inj (hr.symm.trans hr')
      rw [hnet]
      exact hsent session hreplies

theorem Serves.value (h : Serves own node listens q net) (hfind : q.findValue = true)
    {p : Peer} {kv : KeyValuePair} (hkv : entryAt node listens q.targetKey p = some kv)
    (hcount : kv.numValues ≤ kValue) (i : ℕ) :
    closestSent q.findValue (net i p) = [] ∧
      ∃ values, valueSent q.findValue (net i p) = some values ∧
        ∀ maxPeers outPeers, withOwners values maxPeers outPeers =
          fun i => if i < min kv.numValues maxPeers then (Upload.owners kv)[i]?
            else outPeers i := by
  obtain ⟨n, hn, hstored⟩ := Option.bind_eq_some_iff.mp hkv
  obtain ⟨stack, r, session, hr, hnet, hreplies⟩ := h.asked hn i
  obtain ⟨-, r', -, hr', hsent⟩ := answer_value hfind hstored hcount (own n) stack
  obtain rfl : r = r' := Option.some.inj (hr.symm.trans hr')
  rw [hnet]
  exact hsent session hreplies

/-- Every entry of the key has room for its owners. -/
def Bounded (node : N → Node) (key : HashID) : Prop :=
  ∀ n kv, (node n).storage key = some kv → kv.numValues ≤ kValue

theorem Bounded.entryAt (h : Bounded node q.targetKey) {p : Peer} {kv : KeyValuePair}
    (hkv : entryAt node listens q.targetKey p = some kv) : kv.numValues ≤ kValue := by
  obtain ⟨n, -, hstored⟩ := Option.bind_eq_some_iff.mp hkv
  exact h n kv hstored

theorem Serves.expand_eq (h : Serves own node listens q net) (hbounded : Bounded node q.targetKey) :
    expand q net = fun _ p => hears own node listens q p := by
  funext i p
  rw [expand, hears]
  cases hentry : Protocol.entryAt node listens q.targetKey p with
  | none =>
      rw [if_neg (by rw [Option.isSome_none]; exact fun hsome => Bool.false_ne_true hsome.2)]
      exact (h.closest (fun _ => hentry) i).1
  | some kv =>
      cases hfind : q.findValue with
      | false =>
          rw [if_neg fun hsome => Bool.false_ne_true hsome.1, ← hfind]
          have hpeers : ¬ q.findValue = true := by
            rw [hfind]
            exact Bool.false_ne_true
          exact (h.closest (fun htrue => absurd htrue hpeers) i).1
      | true =>
          rw [if_pos ⟨rfl, rfl⟩, ← hfind]
          exact (h.value hfind hentry (hbounded.entryAt hentry) i).1

theorem Serves.slotsFit (h : Serves own node listens q net) (hbounded : Bounded node q.targetKey)
    (i : ℕ) (p : Peer) : SlotsFit q.findValue (net i p) := by
  cases hn : listens p.peerAddr with
  | none =>
      cases hnet : net i p with
      | none => exact slotsFit_of_no_reply fun session hsession => by cases hsession
      | some session =>
          refine slotsFit_of_no_reply fun session' hsession => ?_
          obtain rfl := Option.some.inj hsession
          exact h.silent i p session hn hnet
  | some n =>
      obtain ⟨stack, r, session, hr, hnet, hreplies⟩ := h.asked hn i
      rw [hnet]
      obtain ⟨-, r', hformed, hr'⟩ := exists_answer (hbounded n) (own n) stack
      obtain rfl : r = r' := Option.some.inj (hr.symm.trans hr')
      exact hreplies.slotsFit hformed q.findValue

/-- The asking node uses no index outside of its arrays, if the key and all that the lookup can
reach have a place in its table. -/
theorem Serves.defined (h : Serves own node listens q net) (hbounded : Bounded node q.targetKey)
    (hmax : q.maxPeers ≠ 0) {buckets : Model.Buckets} (htarget : InTable q.own q.targetKey)
    (hplaced : ∀ p, Leads (hears own node listens q) (initialPeers q buckets).val p →
      InTable q.own p.peerId) (outPeers : ℕ → Option Peer) (fuel : ℕ) :
    Defined (iterativeFindPeers q net buckets outPeers fuel) :=
  defined_of_leads hmax (h.slotsFit hbounded) (h.expand_eq hbounded) htarget hplaced outPeers fuel

/-! ### Nodes that answer at once -/

def promptly (own : N → Option HashID) (node : N → Node) (listens : SockAddrIn → Option N)
    (q : Search) : Network := fun _ p =>
  (listens p.peerAddr).bind fun n =>
    match (respond (own n) (node n) q).val.outcome with
    | .dispatched (some r) => some (replySession r)
    | _ => none

/-- Nodes answer at once, when they look for the key in their tables only if it has a place
there. -/
theorem serves_promptly (hbounded : Bounded node q.targetKey)
    (hplaced : ∀ n, InTable (own n) q.targetKey) :
    Serves own node listens q (promptly own node listens q) where
  silent i p session hn hsession := by
    rw [promptly, hn] at hsession
    cases hsession
  answers i p n hn := by
    have hformed := formed_findRequest q
    have harrives := arrives_oneChunk hformed
    have hhandled := (harrives.handled hformed (own n) blankEntry (node n) (fun _ => 0)).2
    have hdefined := harrives.defined_iff hformed (own n) blankEntry (node n) (fun _ => 0)
    obtain ⟨hstays, r, hr, hsent⟩ := exists_answer (hbounded n) (own n) blankEntry
    rw [hsent] at hhandled
    refine ⟨blankEntry, fun _ => 0, [.ready 3], _, r, replySession r, harrives,
      (hdefined.mpr (hstays (hplaced n))).buckets, hhandled, ?_, replies_replySession hr⟩
    rw [promptly, hn, Option.bind_some, respond, hhandled]

/-! ### Looking for the value -/

variable (node listens) in
/-- What a lookup returns whose walk is `order`. -/
structure FoundOver (q : Search) (order : List Peer) (outPeers : ℕ → Option Peer)
    (result : LookupResult) : Prop where
  ret_eq : result.ret = 0 ∨ result.ret = -1
  ret_eq_zero_iff : result.ret = 0 ↔
    ∃ p ∈ order, (entryAt node listens q.targetKey p).isSome = true
  owners : result.ret = 0 → ∃ (m : ℕ) (p : Peer) (kv : KeyValuePair), order[m]? = some p ∧
    entryAt node listens q.targetKey p = some kv ∧
    (∀ (i : ℕ) p', i < m → order[i]? = some p' → entryAt node listens q.targetKey p' = none) ∧
    result.outPeers = fun i => if i < min kv.numValues q.maxPeers then (Upload.owners kv)[i]?
      else outPeers i
  missed : result.ret = -1 → result.last.pending.data = order ∧ result.outPeers = outPeers

theorem FoundOver.of_exhausted (hfind : q.findValue = true) {order : List Peer}
    {outPeers : ℕ → Option Peer} {s : LookupState} (h : Exhausted outPeers order s)
    (hnone : ∀ p ∈ order, entryAt node listens q.targetKey p = none) :
    FoundOver node listens q order outPeers (s.finish q) := by
  have hret : (s.finish q).ret = -1 := by
    rw [LookupState.finish, if_pos hfind, h.valueFound]
    rfl
  have hne : ¬ (s.finish q).ret = 0 := by
    rw [hret]
    decide
  have hfinish : (s.finish q).last = s ∧ (s.finish q).outPeers = s.outPeers := by
    rw [LookupState.finish, if_pos hfind]
    exact ⟨rfl, rfl⟩
  refine ⟨Or.inr hret, ⟨fun hzero => absurd hzero hne, ?_⟩, fun hzero => absurd hzero hne,
    fun _ => ?_⟩
  · rintro ⟨p, hp, hsome⟩
    rw [hnone p hp] at hsome
    cases hsome
  · rw [hfinish.1, hfinish.2]
    exact ⟨h.pending, h.outPeers⟩

theorem FoundOver.of_found (hfind : q.findValue = true) {order : List Peer}
    {outPeers : ℕ → Option Peer} {m : ℕ} {p : Peer} {values : RPCKeyValue} {s : LookupState}
    {kv : KeyValuePair} (h : Found q outPeers m values s) (hp : order[m]? = some p)
    (hkv : entryAt node listens q.targetKey p = some kv)
    (hfirst : ∀ (i : ℕ) p', i < m → order[i]? = some p' →
      entryAt node listens q.targetKey p' = none)
    (howners : withOwners values q.maxPeers outPeers =
      fun i => if i < min kv.numValues q.maxPeers then (Upload.owners kv)[i]? else outPeers i) :
    FoundOver node listens q order outPeers (s.finish q) := by
  have hret : (s.finish q).ret = 0 := by
    rw [LookupState.finish, if_pos hfind, h.valueFound]
    rfl
  refine ⟨Or.inl hret, iff_of_true hret ⟨p, List.mem_of_getElem? hp, ?_⟩,
    fun _ => ⟨m, p, kv, hp, hkv, hfirst, ?_⟩, fun hmissed => ?_⟩
  · rw [hkv]
    rfl
  · rw [LookupState.finish, if_pos hfind, ← howners]
    exact h.outPeers
  · rw [hret] at hmissed
    cases hmissed

/-- A lookup for the value over nodes that answer: its walk goes along what the nodes without
an entry select, and it returns the owners of the first entry on it. -/
theorem iterativeFindPeers_over (hfind : q.findValue = true) (hmax : q.maxPeers ≠ 0)
    (hserves : Serves own node listens q net) (hbounded : Bounded node q.targetKey)
    (buckets : Model.Buckets) (outPeers : ℕ → Option Peer) :
    ∃ order bound, Closure Peer.peerId (fun _ => hears own node listens q)
        (initialPeers q buckets).val order ∧
      ∀ fuel, bound ≤ fuel → ∃ result,
        (iterativeFindPeers q net buckets outPeers fuel).val = some result ∧
        FoundOver node listens q order outPeers result := by
  obtain ⟨n, m, order, hwalk, hsent, hpending, hend⟩ :=
    exists_end q net (initialPeers q buckets).val outPeers buckets
  have hnone : ∀ i p, i < m → order[i]? = some p →
      entryAt node listens q.targetKey p = none := by
    intro i p hi hp
    by_contra hsome
    obtain ⟨kv, hkv⟩ := Option.ne_none_iff_exists'.mp hsome
    obtain ⟨-, values, hvalues, -⟩ := hserves.value hfind hkv (hbounded.entryAt hkv) i
    rw [hsent i p hi hp] at hvalues
    cases hvalues
  rw [hserves.expand_eq hbounded] at hwalk
  rcases hend with ⟨hm, hexhausted⟩ | ⟨p, values, hp, hvalues, hfound⟩
  · refine ⟨order, n, hwalk.closure hm.le, fun fuel hfuel =>
      ⟨_, iterativeFindPeers_of_exit hmax hexhausted.position hfuel,
        .of_exhausted hfind hexhausted fun p hp => ?_⟩⟩
    obtain ⟨i, hi⟩ := List.getElem?_of_mem hp
    exact hnone i p (hm ▸ (List.getElem?_eq_some_iff.mp hi).1) hi
  · -- the walk goes on behind the entry at which the lookup stopped
    obtain ⟨m', final, hrest, -, hlast⟩ := exists_reaches Peer.peerId
      (fun _ => hears own node listens q) (fun _ _ => false) m order
    have hstop : final.length ≤ m' := by
      rcases hlast with hlast | ⟨_, -, hstop⟩
      · exact hlast
      · cases hstop
    have hlt : m < order.length := (List.getElem?_eq_some_iff.mp hp).1
    cases hentry : entryAt node listens q.targetKey p with
    | none =>
        have hsilent := (hserves.closest (fun _ => hentry) m).2
        rw [hvalues] at hsilent
        cases hsilent
    | some kv =>
        obtain ⟨-, values', hvalues', howners⟩ :=
          hserves.value hfind hentry (hbounded.entryAt hentry) m
        obtain rfl := Option.some.inj (hvalues.symm.trans hvalues')
        refine ⟨final, n, (hwalk.trans hrest).closure hstop, fun fuel hfuel =>
          ⟨_, iterativeFindPeers_of_exit hmax hfound.position hfuel,
            .of_found hfind hfound (getElem?_of_isPrefix_of hrest.grows hp) hentry ?_
              (howners _ _)⟩⟩
        intro i p' hi hp'
        obtain ⟨others, rfl⟩ := hrest.grows
        rw [List.getElem?_append_left (by omega)] at hp'
        exact hnone i p' hi hp'

/-! ### In a network -/

def nodesOf (s : System N) (n : N) : Node := (s.parties n).node

variable {describes : N → Option HashID → Option SockAddrIn → Prop} {s s' : System N}

/-- No two descriptions that nodes give of themselves have the same id. -/
def DistinctIds (describes : N → Option HashID → Option SockAddrIn → Prop) : Prop :=
  ∀ p p', Genuine describes p → Genuine describes p' → p.peerId = p'.peerId → p = p'

/-- What a lookup at the node `n` can reach while the nodes stay as they are. -/
abbrev CanReach (own : N → Option HashID) (s : System N) (listens : SockAddrIn → Option N)
    (q : Search) (n : N) : Peer → Prop :=
  Leads (hears own (nodesOf s) listens q) (initialPeers q (nodesOf s n).buckets).val

theorem genuine_reached (h : Sincere describes s) (own : N → Option HashID)
    (listens : SockAddrIn → Option N) (q : Search) (n : N) {p : Peer}
    (hp : CanReach own s listens q n p) : Genuine describes p := by
  induction hp with
  | initial hx =>
      rw [initialPeers_val] at hx
      exact (h.nodes n).table _ (closestPeers_subset _ _ _ _ _ hx)
  | @next p p' _ hq _ =>
      rw [hears] at hq
      split at hq
      · cases hq
      · rw [selects] at hq
        cases hn : listens p.peerAddr with
        | none =>
            rw [hn] at hq
            cases hq
        | some m =>
            rw [hn] at hq
            exact (h.nodes m).table _ (closestPeers_subset _ _ _ _ _ hq)

theorem bounded_nodesOf (h : Sincere describes s) (key : HashID) : Bounded (nodesOf s) key :=
  fun n kv hkv => ((h.nodes n).entries key kv hkv).count

theorem fileSearch_maxPeers (ownId : Option HashID) (key : HashID) (findValue : Bool) :
    (fileSearch ownId key findValue).maxPeers ≠ 0 :=
  show kValue ≠ 0 by decide

/-- A download's lookup at the node `n`, while the nodes stay as they are: its walk is what it can
reach. -/
theorem searched (h : Sincere describes s) (hids : DistinctIds describes)
    (hfind : q.findValue = true) (hmax : q.maxPeers ≠ 0)
    (hserves : Serves own (nodesOf s) listens q net) (n : N) :
    ∃ order bound, (∀ p, p ∈ order ↔ CanReach own s listens q n p) ∧
      ∀ fuel, bound ≤ fuel → ∃ result,
        (iterativeFindPeers q net (nodesOf s n).buckets (fun _ => none) fuel).val = some result ∧
        FoundOver (nodesOf s) listens q order (fun _ => none) result := by
  obtain ⟨order, bound, hclosure, hresult⟩ := iterativeFindPeers_over hfind hmax hserves
    (bounded_nodesOf h q.targetKey) (nodesOf s n).buckets (fun _ => none)
  refine ⟨order, bound, hclosure.mem_iff fun p p' hp hp' => ?_, hresult⟩
  exact hids p p' (genuine_reached h own listens q n hp) (genuine_reached h own listens q n hp')

/-- The owners of an entry for the key at a node that can be reached, the first of which began an
upload of it. -/
def ReturnsOwners (describes : N → Option HashID → Option SockAddrIn → Prop)
    (own : N → Option HashID) (s : System N) (listens : SockAddrIn → Option N) (q : Search) (n : N)
    (result : LookupResult) : Prop :=
  ∃ p kv, CanReach own s listens q n p ∧ entryAt (nodesOf s) listens q.targetKey p = some kv ∧
    StartsAtUploader describes s q.targetKey (Upload.owners kv) ∧
    ∀ i, result.outPeers i = (Upload.owners kv)[i]?

theorem FoundOver.returnsOwners (h : Sincere describes s) {n : N} {order : List Peer}
    {result : LookupResult} (hmax : kValue ≤ q.maxPeers)
    (horder : ∀ p, p ∈ order ↔ CanReach own s listens q n p)
    (hresult : FoundOver (nodesOf s) listens q order (fun _ => none) result)
    (hret : result.ret = 0) : ReturnsOwners describes own s listens q n result := by
  obtain ⟨m, p, kv, hp, hkv, -, hout⟩ := hresult.owners hret
  obtain ⟨n', -, hstored⟩ := Option.bind_eq_some_iff.mp hkv
  have hentry := (h.nodes n').entries _ _ hstored
  refine ⟨p, kv, (horder p).mp (List.mem_of_getElem? hp), hkv,
    h.startsAtUploader hentry.published, fun i => ?_⟩
  have hcount := hentry.count
  rw [hout]
  dsimp only
  split
  · rfl
  · next hi =>
      have hlen : (Upload.owners kv).length ≤ i := by
        rw [Upload.owners, List.length_map, List.length_range]
        omega
      rw [List.getElem?_eq_none hlen]

variable [DecidableEq N]

/-- In every reachable state of a network with distinct ids, the lookup of a download succeeds
if and only if it can reach a node with an entry for the key, and returns the owners of one. -/
theorem download_lookup (h : s.Reachable describes) (hids : DistinctIds describes)
    {ownId : Option HashID} {key : HashID} (htarget : InTable ownId key) {n : N}
    (hplaced : ∀ p, CanReach own s listens (fileSearch ownId key true) n p →
      InTable ownId p.peerId)
    (hserves : Serves own (nodesOf s) listens (fileSearch ownId key true) net) :
    ∃ bound, ∀ fuel, bound ≤ fuel →
      Defined (iterativeFindPeers (fileSearch ownId key true) net (nodesOf s n).buckets
        (fun _ => none) fuel) ∧
      ∃ result, (iterativeFindPeers (fileSearch ownId key true) net (nodesOf s n).buckets
          (fun _ => none) fuel).val = some result ∧
        (result.ret = 0 ∨ result.ret = -1) ∧
        (result.ret = 0 ↔ ∃ p, CanReach own s listens (fileSearch ownId key true) n p ∧
          (entryAt (nodesOf s) listens key p).isSome = true) ∧
        (result.ret = 0 →
          ReturnsOwners describes own s listens (fileSearch ownId key true) n result) := by
  have hs := Reachable.sincere h
  obtain ⟨order, bound, horder, hresults⟩ :=
    searched hs hids rfl (fileSearch_maxPeers _ _ _) hserves n
  refine ⟨bound, fun fuel hfuel => ⟨?_, ?_⟩⟩
  · exact hserves.defined (bounded_nodesOf hs key) (fileSearch_maxPeers _ _ _) htarget hplaced _ _
  · obtain ⟨result, hval, hresult⟩ := hresults fuel hfuel
    refine ⟨result, hval, hresult.ret_eq, ?_, hresult.returnsOwners hs le_rfl horder⟩
    rw [hresult.ret_eq_zero_iff]
    simp only [horder]
    exact Iff.rfl

theorem twoNodes_distinctIds : DistinctIds twoNodes := by
  rintro p p' ⟨n, own, primary, ⟨rfl, rfl⟩, rfl⟩ ⟨n', own', primary', ⟨rfl, rfl⟩, rfl⟩ hid
  have hne : (1 : UInt8) ≠ 0 := by decide
  rcases n with _ | _ <;> rcases n' with _ | _
  · rfl
  · exact absurd (congrArg (fun id : HashID => id.head) hid).symm hne
  · exact absurd (congrArg (fun id : HashID => id.head) hid) hne
  · rfl

/-- Every address is that of the first node, which answers at once. -/
abbrev atFirst (s : System Bool) (q : Search) : Network :=
  promptly (fun n => some (idOf n)) (nodesOf s) (fun _ => some false) q

theorem serves_atFirst {s : System Bool} (h : s.Reachable twoNodes) (findValue : Bool) :
    Serves (fun n => some (idOf n)) (nodesOf s) (fun _ => some false)
      (fileSearch (some (idOf true)) fileKey findValue)
      (atFirst s (fileSearch (some (idOf true)) fileKey findValue)) := by
  refine serves_promptly (bounded_nodesOf (Reachable.sincere h) fileKey) fun n => ?_
  have hhead : (idOf n).head ≠ fileKey.head := by cases n <;> decide
  exact inTable_iff.mpr (Or.inr hhead)

theorem inTable_of_genuine {p : Peer} (h : Genuine twoNodes p) (n : Bool) :
    InTable (some (idOf n)) p.peerId := by
  obtain ⟨m, own, primary, ⟨rfl, rfl⟩, rfl⟩ := h
  cases n <;> cases m
  · exact inTable_iff.mpr (Or.inl rfl)
  · exact inTable_iff.mpr (Or.inr (by decide))
  · exact inTable_iff.mpr (Or.inr (by decide))
  · exact inTable_iff.mpr (Or.inl rfl)

/-- Before anybody has the file, the second node looks for it. -/
theorem download_lookup_announced :
    ∃ bound, ∀ fuel, bound ≤ fuel →
      ∃ result, (iterativeFindPeers (fileSearch (some (idOf true)) fileKey true)
          (atFirst announced (fileSearch (some (idOf true)) fileKey true))
          (nodesOf announced true).buckets (fun _ => none) fuel).val = some result ∧
        result.ret = -1 := by
  obtain ⟨bound, hbound⟩ := download_lookup reachable_announced twoNodes_distinctIds
    (inTable_iff.mpr (Or.inr (by decide)))
    (fun p hp => inTable_of_genuine (genuine_reached (Reachable.sincere reachable_announced) _ _ _
      true hp) true)
    (serves_atFirst reachable_announced true)
  refine ⟨bound, fun fuel hfuel => ?_⟩
  obtain ⟨-, result, hval, hret, hfound, -⟩ := hbound fuel hfuel
  refine ⟨result, hval, hret.resolve_left fun hzero => ?_⟩
  obtain ⟨p, -, hentry⟩ := hfound.mp hzero
  cases hentry

/-! ### Looking for peers -/

/-- The lookup of an upload returns the nearest ones of all the peers that it can reach. -/
theorem upload_lookup (h : s.Reachable describes) (hids : DistinctIds describes)
    {ownId : Option HashID} {key : HashID} (htarget : InTable ownId key) {n : N}
    (hplaced : ∀ p, CanReach own s listens (fileSearch ownId key false) n p →
      InTable ownId p.peerId)
    (hserves : Serves own (nodesOf s) listens (fileSearch ownId key false) net) :
    ∃ bound, ∀ fuel, bound ≤ fuel →
      Defined (iterativeFindPeers (fileSearch ownId key false) net (nodesOf s n).buckets
        (fun _ => none) fuel) ∧
      ∃ result reached placed,
        (iterativeFindPeers (fileSearch ownId key false) net (nodesOf s n).buckets
          (fun _ => none) fuel).val = some result ∧
        result.ret = 0 ∧
        (∀ p, p ∈ reached ↔ CanReach own s listens (fileSearch ownId key false) n p) ∧
        NearestFirst key kValue reached placed ∧ ∀ i, result.outPeers i = placed[i]? := by
  have hs := Reachable.sincere h
  obtain ⟨bound, hexit, hresult⟩ := exists_findNodeResult (fileSearch ownId key false) rfl net
    (initialPeers (fileSearch ownId key false) (nodesOf s n).buckets).val (fun _ => none)
    (nodesOf s n).buckets
  refine ⟨bound, fun fuel hfuel => ⟨?_, ?_⟩⟩
  · exact hserves.defined (bounded_nodesOf hs key) (fileSearch_maxPeers _ _ _) htarget hplaced _ _
  · obtain ⟨placed, hnearest, hout⟩ := hresult.nearest
    have hclosure := hresult.closure
    rw [hserves.expand_eq (bounded_nodesOf hs key)] at hclosure
    refine ⟨_, _, placed, iterativeFindPeers_of_exit (fileSearch_maxPeers _ _ _) hexit hfuel,
      hresult.ret, hclosure.mem_iff fun p p' hp hp' => ?_, hnearest, fun i => ?_⟩
    · exact hids p p' (genuine_reached hs own listens _ n hp)
        (genuine_reached hs own listens _ n hp')
    · rw [hout]
      dsimp only
      split
      · rfl
      · next hi => rw [List.getElem?_eq_none (not_lt.mp hi)]

theorem upload_lookup_announced :
    ∃ bound, ∀ fuel, bound ≤ fuel →
      Defined (iterativeFindPeers (fileSearch (some (idOf true)) fileKey false)
        (atFirst announced (fileSearch (some (idOf true)) fileKey false))
        (nodesOf announced true).buckets (fun _ => none) fuel) ∧
      ∃ result reached placed,
        (iterativeFindPeers (fileSearch (some (idOf true)) fileKey false)
          (atFirst announced (fileSearch (some (idOf true)) fileKey false))
          (nodesOf announced true).buckets (fun _ => none) fuel).val = some result ∧
        result.ret = 0 ∧
        (∀ p, p ∈ reached ↔ CanReach (fun n => some (idOf n)) announced (fun _ => some false)
          (fileSearch (some (idOf true)) fileKey false) true p) ∧
        NearestFirst fileKey kValue reached placed ∧ ∀ i, result.outPeers i = placed[i]? :=
  upload_lookup reachable_announced twoNodes_distinctIds (inTable_iff.mpr (Or.inr (by decide)))
    (fun p hp => inTable_of_genuine (genuine_reached (Reachable.sincere reachable_announced) _ _ _
      true hp) true)
    (serves_atFirst reachable_announced false)

/-! ### From a STORE to a lookup -/

/-- A STORE for `key` arrives at the node `m`, where the peek and the first chunk have enough of it,
and is handled. -/
structure StoreServed (describes : N → Option HashID → Option SockAddrIn → Prop)
    (s s' : System N) (m : N) (key : HashID) : Prop where
  served : ∃ own primary stack buf peeks conn store, describes m own primary ∧
    (s.parties m).lookup = none ∧ Packet.store store ∈ s.flight ∧
    Arrives (.store store) peeks conn ∧ store.keyValue.key = key ∧
    s' = (s.set m ⟨(handleConnected own stack (s.parties m).node buf peeks conn).val.node,
        none⟩).send (handleConnected own stack (s.parties m).node buf peeks conn).val.outcome.sent

theorem StoreServed.steps {m : N} {key : HashID} (hs : Sincere describes s)
    (h : StoreServed describes s s' m key) : Steps describes s s' := by
  obtain ⟨own, primary, stack, buf, peeks, conn, store, hself, hidle, hflight, harrives, -, rfl⟩ :=
    h.served
  have hformed := hs.formed _ hflight
  have hdefined : Defined (handleConnected own stack (s.parties m).node buf peeks conn) :=
    (harrives.defined_iff hformed own stack _ buf).mpr
      (Storage.handleStore_defined hformed.counts stack)
  exact steps_connected hself hidle (fun _ => ⟨_, hflight, harrives.brings⟩) hdefined.buckets

theorem StoreServed.stored {m : N} {key : HashID} (hs : Sincere describes s)
    (h : StoreServed describes s s' m key) : ∃ kv, (s'.parties m).node.storage key = some kv := by
  obtain ⟨own, primary, stack, buf, peeks, conn, store, -, -, hflight, harrives, rfl, rfl⟩ :=
    h.served
  rw [(harrives.handled (hs.formed _ hflight) own stack (s.parties m).node buf).1]
  show ∃ kv, (Function.update s.parties m _ m).node.storage _ = some kv
  rw [Function.update_self]
  show ∃ kv, storagePutValue (s.parties m).node.storage
    (deserializeRpcValue store.keyValue stack).val store.keyValue.key = some kv
  rw [storagePutValue_apply, deserializeRpcValue_key, if_pos rfl]
  cases (s.parties m).node.storage store.keyValue.key with
  | none => exact ⟨_, rfl⟩
  | some kv => exact ⟨kv, rfl⟩

omit [DecidableEq N] in
theorem canReach_or_found {n : N} {p : Peer}
    (hp : Leads (selects own (nodesOf s) listens q.targetKey)
      (initialPeers q (nodesOf s n).buckets).val p) :
    CanReach own s listens q n p ∨ ∃ p', CanReach own s listens q n p' ∧
      (entryAt (nodesOf s) listens q.targetKey p').isSome = true := by
  induction hp with
  | initial hx => exact Or.inl (.initial hx)
  | @next p p' _ hq ih =>
      rcases ih with ih | ih
      · cases hentry : (entryAt (nodesOf s) listens q.targetKey p).isSome with
        | true => exact Or.inr ⟨p, ih, hentry⟩
        | false =>
            refine Or.inl (.next ih ?_)
            rw [hears, hentry, if_neg fun hsome => Bool.false_ne_true hsome.2]
            exact hq
      · exact Or.inr ih

/-- Once a node has handled a STORE, every later lookup for the key that tables lead to this node
succeeds, and returns owners of the file whose first began an upload of it. -/
theorem stored_found (h : s.Reachable describes) (hids : DistinctIds describes) {m : N}
    {key : HashID} {s₁ s₂ : System N} (hstored : StoreServed describes s s₁ m key)
    (hrun : Relation.ReflTransGen (Steps describes) s₁ s₂) {ownId : Option HashID}
    (htarget : InTable ownId key) {n : N}
    (hplaced : ∀ p, CanReach own s₂ listens (fileSearch ownId key true) n p →
      InTable ownId p.peerId)
    (hserves : Serves own (nodesOf s₂) listens (fileSearch ownId key true) net) {p : Peer}
    (hp : Leads (selects own (nodesOf s₂) listens key)
      (initialPeers (fileSearch ownId key true) (nodesOf s₂ n).buckets).val p)
    (hm : listens p.peerAddr = some m) :
    ∃ bound, ∀ fuel, bound ≤ fuel →
      Defined (iterativeFindPeers (fileSearch ownId key true) net (nodesOf s₂ n).buckets
        (fun _ => none) fuel) ∧
      ∃ result, (iterativeFindPeers (fileSearch ownId key true) net (nodesOf s₂ n).buckets
          (fun _ => none) fuel).val = some result ∧
        result.ret = 0 ∧
        ReturnsOwners describes own s₂ listens (fileSearch ownId key true) n result := by
  have hs := Reachable.sincere h
  obtain ⟨kv, hkv⟩ := hstored.stored hs
  have hs₂ : Sincere describes s₂ :=
    Reachable.sincere ((h.tail (hstored.steps hs)).trans hrun)
  have hkept : (nodesOf s₂ m).storage key = some kv := (grows_of_run hrun m).entries key kv hkv
  have hentry : (entryAt (nodesOf s₂) listens key p).isSome = true := by
    rw [entryAt, hm, Option.bind_some, hkept]
    rfl
  obtain ⟨order, bound, horder, hresults⟩ :=
    searched hs₂ hids rfl (fileSearch_maxPeers _ _ _) hserves n
  refine ⟨bound, fun fuel hfuel => ⟨?_, ?_⟩⟩
  · exact hserves.defined (bounded_nodesOf hs₂ key) (fileSearch_maxPeers _ _ _) htarget hplaced _ _
  · obtain ⟨result, hval, hresult⟩ := hresults fuel hfuel
    have hret : result.ret = 0 := by
      rw [hresult.ret_eq_zero_iff]
      have hway := canReach_or_found (q := fileSearch ownId key true) hp
      rcases hway with hreach | ⟨p', hreach, hfound⟩
      · exact ⟨p, (horder p).mpr hreach, hentry⟩
      · exact ⟨p', (horder p').mpr hreach, hfound⟩
    exact ⟨result, hval, hret, hresult.returnsOwners hs₂ le_rfl horder hret⟩

theorem StoreServed.others {m n : N} {key : HashID} (h : StoreServed describes s s' m key)
    (hn : n ≠ m) : s'.parties n = s.parties n := by
  obtain ⟨own, primary, stack, buf, peeks, conn, store, -, -, -, -, -, rfl⟩ := h.served
  exact Function.update_of_ne hn _ _

theorem exists_storeServed (hs : Sincere describes s) {m : N} {own : Option HashID}
    {primary : Option SockAddrIn} (hself : describes m own primary)
    (hidle : (s.parties m).lookup = none) {store : RPCStore}
    (hflight : Packet.store store ∈ s.flight) :
    ∃ s', StoreServed describes s s' m store.keyValue.key :=
  ⟨_, own, primary, blankEntry, fun _ => 0, [.ready 3], oneChunk (.store store), store, hself,
    hidle, hflight, arrives_oneChunk (hs.formed _ hflight), rfl, rfl⟩

/-- The first node gets the STORE of the second, which then looks for the file. -/
theorem stored_found_published :
    ∃ s', StoreServed twoNodes published s' false fileKey ∧
      ∃ bound, ∀ fuel, bound ≤ fuel →
        ∃ result, (iterativeFindPeers (fileSearch (some (idOf true)) fileKey true)
            (atFirst s' (fileSearch (some (idOf true)) fileKey true))
            (nodesOf s' true).buckets (fun _ => none) fuel).val = some result ∧
          result.ret = 0 ∧
          ReturnsOwners twoNodes (fun n => some (idOf n)) s' (fun _ => some false)
            (fileSearch (some (idOf true)) fileKey true) true result := by
  have hs := Reachable.sincere reachable_published_second
  have hidle : (published.parties false).lookup = none := by decide +kernel
  have hself : twoNodes false (some (idOf false)) (some zeroAddr) := ⟨rfl, rfl⟩
  have hstore : published.flight.filterMap (fun packet =>
      match packet with
      | .store store => some store.keyValue.key
      | _ => none) = [fileKey] := by decide +kernel
  obtain ⟨packet, hflight, hkey⟩ := List.mem_filterMap.mp (hstore ▸ List.mem_cons_self)
  cases packet with
  | store store =>
      obtain ⟨s', hstored⟩ := exists_storeServed hs hself hidle hflight
      obtain hkey := Option.some.inj hkey
      rw [hkey] at hstored
      have hreachable := reachable_published_second.tail (hstored.steps hs)
      have htable : nodesOf s' true = nodesOf published true :=
        congrArg Participant.node (hstored.others (by decide))
      have hknown : Upload.ownEntry (some (idOf false)) (some zeroAddr) ∈
          (initialPeers (fileSearch (some (idOf true)) fileKey true)
            (nodesOf published true).buckets).val := by decide +kernel
      obtain ⟨bound, hbound⟩ := stored_found reachable_published_second twoNodes_distinctIds hstored
        .refl (inTable_iff.mpr (Or.inr (by decide)))
        (fun p hp => inTable_of_genuine (genuine_reached (Reachable.sincere hreachable) _ _ _
          true hp) true)
        (serves_atFirst hreachable true) (.initial (htable ▸ hknown)) rfl
      exact ⟨s', hstored, bound, fun fuel hfuel => (hbound fuel hfuel).2⟩
  | broadcast packet => cases hkey
  | find packet => cases hkey
  | response response => cases hkey

end Kademlia.Protocol
