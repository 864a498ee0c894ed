import Kademlia.Lookup.Steps

/-!
A lookup from its start to its end.

The first sweep is a walk along the worklist, which grows as it is walked: when
`i` entries are visited, exactly these are marked. The walk stops at the first
entry that sends a value, or behind the last entry. In the second case the test
on `pending.size` only decides whether a second sweep follows, which finds all
entries marked; so either way every entry was contacted once.
-/

namespace Kademlia.Lookup

open Foundations Foundations.Traced Foundations.Worklist Model

/-- The closest list that the `i`th peer contacted sends. -/
def expand (q : Search) (net : Network) (i : ℕ) (p : Peer) : List Peer :=
  closestSent q.findValue (net i p)

variable {q : Search} {net : Network} {initial : List Peer} {outPeers : ℕ → Option Peer}
  {buckets : Buckets}

/-! ### The start -/

theorem foldl_addPending (s : LookupState) (initial : List Peer) :
    (initial.foldl LookupState.addPending s).pending.data = s.pending.data ++ initial ∧
      (initial.foldl LookupState.addPending s).contacted.data =
        s.contacted.data ++ List.replicate initial.length false ∧
      initial.foldl LookupState.addPending s =
        { s with
          pending := (initial.foldl LookupState.addPending s).pending
          contacted := (initial.foldl LookupState.addPending s).contacted } := by
  induction initial generalizing s with
  | nil => simp
  | cons p initial ih =>
      obtain ⟨hpending, hcontacted, hframe⟩ := ih (s.addPending p)
      refine ⟨?_, ?_, ?_⟩
      · rw [List.foldl_cons, hpending]
        simp [LookupState.addPending]
      · rw [List.foldl_cons, hcontacted, List.length_cons, Nat.add_comm,
          ← List.replicate_append_replicate]
        simp [LookupState.addPending]
      · rw [List.foldl_cons]
        exact hframe

theorem start_pending (initial : List Peer) (outPeers : ℕ → Option Peer) (buckets : Buckets) :
    (LookupState.start initial outPeers buckets).pending.data = initial := by
  have hpending := (foldl_addPending (LookupState.empty outPeers buckets) initial).1
  exact hpending

theorem start_contacted (initial : List Peer) (outPeers : ℕ → Option Peer)
    (buckets : Buckets) :
    (LookupState.start initial outPeers buckets).contacted.data =
      List.replicate initial.length false := by
  have hcontacted := (foldl_addPending (LookupState.empty outPeers buckets) initial).2.1
  exact hcontacted

theorem start_frame (initial : List Peer) (outPeers : ℕ → Option Peer) (buckets : Buckets) :
    LookupState.start initial outPeers buckets =
      { LookupState.empty outPeers buckets with
        pending := (LookupState.start initial outPeers buckets).pending
        contacted := (LookupState.start initial outPeers buckets).contacted } :=
  (foldl_addPending (LookupState.empty outPeers buckets) initial).2.2

theorem start_consistent (initial : List Peer) (outPeers : ℕ → Option Peer)
    (buckets : Buckets) : Consistent (LookupState.start initial outPeers buckets) := by
  have hcontacts : (LookupState.start initial outPeers buckets).contacts = [] := by
    rw [start_frame]
    rfl
  have hrequests : (LookupState.start initial outPeers buckets).requests = [] := by
    rw [start_frame]
    rfl
  refine ⟨?_, ?_, ?_, ?_⟩
  · rw [start_contacted, start_pending, List.length_replicate]
  · rw [hcontacts]
    exact List.nodup_nil
  · intro i
    rw [hcontacts, start_contacted, List.getElem?_replicate]
    simp
  · rw [hrequests]
    exact List.nil_sublist _

theorem consistent_after (q : Search) (net : Network) (initial : List Peer)
    (outPeers : ℕ → Option Peer) (buckets : Buckets) (n : ℕ) :
    Consistent (after q net n (LookupState.start initial outPeers buckets)) :=
  after_invariant (fun _ _ h => h.consistent) (start_consistent initial outPeers buckets) n

/-! ### The first sweep -/

/-- The first sweep when it has visited `i` entries. -/
structure FirstSweep (q : Search) (net : Network) (initial : List Peer)
    (outPeers : ℕ → Option Peer) (i : ℕ) (s : LookupState) : Prop where
  position : s.position = .inner i
  walk : Reaches Peer.peerId (expand q net) 0 initial i s.pending.data
  contacted : s.contacted.data =
    List.replicate i true ++ List.replicate (s.pending.size - i) false
  contacts : s.contacts = List.range i
  anyNewContact : s.anyNewContact = decide (0 < i)
  done : s.done = false
  valueFound : s.valueFound = false
  outPeers : s.outPeers = outPeers
  sweeps : s.sweeps = 1

theorem FirstSweep.le_size {i : ℕ} {s : LookupState}
    (h : FirstSweep q net initial outPeers i s) : i ≤ s.pending.size :=
  h.walk.le_length (Nat.zero_le _)

theorem firstSweep_zero (q : Search) (net : Network) (initial : List Peer)
    (outPeers : ℕ → Option Peer) (buckets : Buckets) :
    FirstSweep q net initial outPeers 0
        (after q net 1 (LookupState.start initial outPeers buckets)) ∧
      (after q net 1 (LookupState.start initial outPeers buckets)).pending.data = initial := by
  have hstart : after q net 1 (LookupState.start initial outPeers buckets) =
      { LookupState.start initial outPeers buckets with
        anyNewContact := false, position := .inner 0, sweeps := 1 } := by
    rw [after_succ, after_zero, start_frame]
    simp [LookupState.step, LookupState.empty]
  have hframe := start_frame initial outPeers buckets
  rw [hstart]
  refine ⟨⟨rfl, ?_, ?_, ?_, rfl, ?_, ?_, ?_, rfl⟩, start_pending initial outPeers buckets⟩
  · rw [start_pending]
    exact .refl 0 initial
  · show (LookupState.start initial outPeers buckets).contacted.data = _
    rw [start_contacted]
    show _ = List.replicate 0 true ++
      List.replicate ((LookupState.start initial outPeers buckets).pending.data.length - 0) false
    rw [start_pending]
    rfl
  · exact congrArg LookupState.contacts hframe
  · exact congrArg LookupState.done hframe
  · exact congrArg LookupState.valueFound hframe
  · exact congrArg LookupState.outPeers hframe

/-- The entry behind the visited ones is not marked, so it is contacted. -/
theorem FirstSweep.step_contact {i : ℕ} {s : LookupState} {p : Peer}
    (h : FirstSweep q net initial outPeers i s) (hp : s.pending.data[i]? = some p) :
    ∃ t, Contacted q (net i p) p (s.mark i) t ∧
      (s.step q net).val =
        if t.valueFound then endSweep q t else { t with position := .inner (i + 1) } := by
  have hi : i < s.pending.size := (List.getElem?_eq_some_iff.mp hp).1
  have hnew : s.contacted.data[i]? = some false := by
    rw [h.contacted, List.getElem?_append_right (by simp), List.length_replicate,
      List.getElem?_replicate, if_pos (by omega)]
  have hcount : s.contacts.length = i := by rw [h.contacts, List.length_range]
  have ht := contactPeer_contacted q (net s.contacts.length p) p (s.mark i)
  rw [hcount] at ht
  refine ⟨_, ht, ?_⟩
  simp only [LookupState.step, h.position, if_pos hi, vectorGet, hp, hnew, val_bind, hcount]
  split <;> rfl

theorem FirstSweep.step {i : ℕ} {s : LookupState} {p : Peer}
    (h : FirstSweep q net initial outPeers i s) (hp : s.pending.data[i]? = some p)
    (hvalue : valueSent q.findValue (net i p) = none) :
    FirstSweep q net initial outPeers (i + 1) (s.step q net).val ∧
      (s.step q net).val.pending.data =
        pushAll Peer.peerId s.pending.data (expand q net i p) := by
  obtain ⟨t, ht, hstep⟩ := h.step_contact hp
  have hi : i < s.pending.size := (List.getElem?_eq_some_iff.mp hp).1
  have hfound : t.valueFound = false := by
    rw [ht.valueFound, hvalue]
    simpa [LookupState.mark] using h.valueFound
  rw [hfound, if_neg Bool.false_ne_true] at hstep
  rw [hstep]
  refine ⟨⟨rfl, ?_, ?_, ?_, ?_, ?_, ?_, ?_, ?_⟩, ht.pending⟩
  · show Reaches Peer.peerId (expand q net) 0 initial (i + 1) t.pending.data
    rw [ht.pending]
    exact h.walk.trans (.visit hp (.refl (i + 1) _))
  · have hgrow : s.pending.size ≤ t.pending.size := ht.grows.length_le
    show t.contacted.data = _ ++ List.replicate (t.pending.size - (i + 1)) false
    have hsplit : s.pending.size - i = (s.pending.size - (i + 1)) + 1 := by omega
    rw [ht.contacted, h.contacted, hsplit, List.replicate_succ, List.set_append_right _ _ (by simp),
      List.length_replicate, Nat.sub_self, List.set_cons_zero, List.append_assoc,
      List.cons_append, List.replicate_append_replicate, List.replicate_succ',
      List.append_assoc, List.singleton_append]
    congr 3
    omega
  · show t.contacts = _
    rw [ht.contacts, h.contacts, List.range_succ]
  · show t.anyNewContact = _
    rw [ht.anyNewContact]
    simp
  · show t.done = _
    rw [ht.done, h.done]
  · rfl
  · show t.outPeers = _
    rw [ht.outPeers, hvalue]
    exact h.outPeers
  · show t.sweeps = _
    rw [ht.sweeps, h.sweeps]

/-- As long as no value is sent, the sweep follows the walk. -/
theorem FirstSweep.run {i m : ℕ} {pending final : List Peer} {s : LookupState}
    (hwalk : Reaches Peer.peerId (expand q net) i pending m final)
    (hvalue : ∀ j p, i ≤ j → j < m → final[j]? = some p →
      valueSent q.findValue (net j p) = none)
    (h : FirstSweep q net initial outPeers i s) (hpending : s.pending.data = pending) :
    FirstSweep q net initial outPeers m (after q net (m - i) s) ∧
      (after q net (m - i) s).pending.data = final := by
  induction hwalk generalizing s with
  | refl i pending => simpa using And.intro h hpending
  | @visit i m pending final p hp rest ih =>
      have hlt : i < m := rest.le
      have hp' : final[i]? = some p :=
        getElem?_of_isPrefix_of ((prefix_pushAll _ _ _).trans rest.grows) hp
      obtain ⟨hstep, hnext⟩ := h.step (hpending ▸ hp) (hvalue i p le_rfl hlt hp')
      have hsteps : m - i = (m - (i + 1)) + 1 := by omega
      rw [hsteps, after_succ]
      exact ih (fun j p hj => hvalue j p (by omega)) hstep (by rw [hnext, hpending])

/-! ### The value is found -/

theorem closestSent_of_valueSent {findValue : Bool} {session : Option Session}
    {values : RPCKeyValue} (h : valueSent findValue session = some values) :
    closestSent findValue session = [] ∧ findValue = true := by
  cases findValue with
  | false => cases h
  | true =>
      obtain ⟨answer, hanswer, hvalue⟩ := Option.bind_eq_some_iff.mp h
      have hkey : answer.foundKey ≠ 0 := by
        intro hkey
        simp [valueOf, hkey] at hvalue
      obtain ⟨session, rfl, hreply⟩ := Option.bind_eq_some_iff.mp hanswer
      obtain ⟨buf, hbuf, htype⟩ := Option.bind_eq_some_iff.mp hreply
      rw [closestSent_of_reply hbuf, closestIn, if_pos rfl]
      split at htype
      · cases htype
        exact ⟨if_neg fun hboth => hkey hboth.2, rfl⟩
      · cases htype

/-- The lookup is over, and the entry `m` sent `values`. -/
structure Found (q : Search) (outPeers : ℕ → Option Peer) (m : ℕ) (values : RPCKeyValue)
    (s : LookupState) : Prop where
  position : s.position = .exit
  contacts : s.contacts = List.range (m + 1)
  valueFound : s.valueFound = true
  outPeers : s.outPeers = withOwners values q.maxPeers outPeers
  sweeps : s.sweeps = 1

theorem FirstSweep.found {m : ℕ} {s : LookupState} {p : Peer} {values : RPCKeyValue}
    (h : FirstSweep q net initial outPeers m s) (hp : s.pending.data[m]? = some p)
    (hvalue : valueSent q.findValue (net m p) = some values) :
    Found q outPeers m values (after q net 2 s) ∧
      (after q net 2 s).pending.data = s.pending.data := by
  obtain ⟨t, ht, hstep⟩ := h.step_contact hp
  obtain ⟨hclosest, hfind⟩ := closestSent_of_valueSent hvalue
  have hfound : t.valueFound = true := by
    rw [ht.valueFound, hvalue]
    simp
  have htwo : after q net 2 s = { endSweep q t with position := .exit } := by
    rw [after_succ, hstep, if_pos hfound, after_succ, after_zero]
    simp [LookupState.step, endSweep, hfind, hfound]
  rw [htwo]
  refine ⟨⟨rfl, ?_, hfound, ?_, ?_⟩, ?_⟩
  · show t.contacts = _
    rw [ht.contacts, h.contacts, List.range_succ]
  · show t.outPeers = _
    rw [ht.outPeers, hvalue]
    show withOwners values q.maxPeers s.outPeers = _
    rw [h.outPeers]
  · show t.sweeps = _
    rw [ht.sweeps, h.sweeps]
  · show t.pending.data = _
    rw [ht.pending, hclosest, pushAll_nil]

/-! ### The list is exhausted -/

/-- The lookup is over, and every entry of `order` was contacted. -/
structure Exhausted (outPeers : ℕ → Option Peer) (order : List Peer) (s : LookupState) :
    Prop where
  position : s.position = .exit
  pending : s.pending.data = order
  contacts : s.contacts = List.range order.length
  valueFound : s.valueFound = false
  outPeers : s.outPeers = outPeers
  sweeps : s.sweeps ≤ 2

theorem step_of_done {s : LookupState} (hpos : s.position = .outer) (hdone : s.done = true) :
    (s.step q net).val = { s with position := .exit } := by
  simp [LookupState.step, hpos, hdone]

theorem step_of_size_le {s : LookupState} {i : ℕ} (hpos : s.position = .inner i)
    (hi : s.pending.size ≤ i) : (s.step q net).val = endSweep q s := by
  simp [LookupState.step, hpos, not_lt.mpr hi]

variable (q net) in
/-- A sweep over marked entries goes to its end and changes nothing else. -/
theorem after_skip {s : LookupState} {i : ℕ} (hpos : s.position = .inner i)
    (hmarked : ∀ j : ℕ, s.contacted.data[j]? ≠ some false) (k : ℕ)
    (hk : i + k ≤ s.pending.size) :
    after q net k s = { s with position := .inner (i + k) } := by
  induction k generalizing i s with
  | zero => rw [after_zero, Nat.add_zero, ← hpos]
  | succ k ih =>
      have hi : i < s.pending.size := by omega
      have hstep : (s.step q net).val = { s with position := .inner (i + 1) } := by
        have hold := hmarked i
        simp only [LookupState.step, hpos, if_pos hi, vectorGet]
        split
        · next hnew => exact absurd hnew hold
        · rfl
      have hrest := ih (s := { s with position := .inner (i + 1) }) rfl hmarked
        (show i + 1 + k ≤ s.pending.size by omega)
      rw [after_succ, hstep, hrest, Nat.add_assoc i 1 k, Nat.add_comm 1 k]

theorem after_second_sweep {s : LookupState} (hpos : s.position = .outer)
    (hdone : s.done = false) (hvalue : s.valueFound = false)
    (hmarked : ∀ j : ℕ, s.contacted.data[j]? ≠ some false) :
    after q net (s.pending.size + 3) s =
      { s with
        anyNewContact := false, done := true, position := .exit, sweeps := s.sweeps + 1 } := by
  have hbegin : after q net 1 s =
      { s with anyNewContact := false, position := .inner 0, sweeps := s.sweeps + 1 } := by
    simp [after_succ, LookupState.step, hpos, hdone, hvalue]
  have hsweep := after_skip q net (s := after q net 1 s) (i := 0)
    (by rw [hbegin]) (by rw [hbegin]; exact hmarked) s.pending.size (by rw [hbegin]; simp)
  rw [show s.pending.size + 3 = 1 + (s.pending.size + (1 + 1)) by omega, after_add, after_add,
    hsweep, hbegin, after_succ, step_of_size_le rfl (Nat.le_add_left _ _), after_succ,
    step_of_done rfl (by simp [endSweep]), after_zero]
  simp [endSweep]

theorem FirstSweep.exhausted {m : ℕ} {s : LookupState}
    (h : FirstSweep q net initial outPeers m s) (hend : s.pending.size ≤ m) :
    ∃ n, Exhausted outPeers s.pending.data (after q net n s) := by
  have hm : m = s.pending.size := le_antisymm h.le_size hend
  have hfinish : after q net 1 s = endSweep q s := step_of_size_le h.position hend
  have hcontacts : s.contacts = List.range s.pending.data.length := by
    rw [h.contacts, hm]
    rfl
  cases hdone : (endSweep q s).done with
  | true =>
      refine ⟨1 + 1, ?_⟩
      rw [after_add, hfinish, after_succ, step_of_done rfl hdone, after_zero]
      refine ⟨rfl, rfl, hcontacts, h.valueFound, h.outPeers, ?_⟩
      show s.sweeps ≤ 2
      rw [h.sweeps]
      omega
  | false =>
      have hmarked : ∀ j : ℕ, (endSweep q s).contacted.data[j]? ≠ some false := by
        intro j
        show s.contacted.data[j]? ≠ _
        rw [h.contacted, hm, Nat.sub_self, List.replicate_zero, List.append_nil,
          List.getElem?_replicate]
        split <;> simp
      refine ⟨1 + ((endSweep q s).pending.size + 3), ?_⟩
      rw [after_add, hfinish, after_second_sweep rfl hdone h.valueFound hmarked]
      refine ⟨rfl, rfl, hcontacts, h.valueFound, h.outPeers, ?_⟩
      show s.sweeps + 1 ≤ 2
      rw [h.sweeps]

/-! ### The whole lookup -/

/-- Every lookup comes to its end: behind the last entry of the walk, or at the
first entry that sends a value. -/
theorem exists_end (q : Search) (net : Network) (initial : List Peer)
    (outPeers : ℕ → Option Peer) (buckets : Buckets) :
    ∃ n m order, Reaches Peer.peerId (expand q net) 0 initial m order ∧
      (∀ i p, i < m → order[i]? = some p → valueSent q.findValue (net i p) = none) ∧
      (after q net n (LookupState.start initial outPeers buckets)).pending.data = order ∧
      (order.length = m ∧
          Exhausted outPeers order
            (after q net n (LookupState.start initial outPeers buckets)) ∨
        ∃ p values, order[m]? = some p ∧ valueSent q.findValue (net m p) = some values ∧
          Found q outPeers m values
            (after q net n (LookupState.start initial outPeers buckets))) := by
  obtain ⟨m, order, hwalk, hnone, hend⟩ := exists_reaches Peer.peerId (expand q net)
    (fun i p => (valueSent q.findValue (net i p)).isSome) 0 initial
  have hvalue : ∀ i p, 0 ≤ i → i < m → order[i]? = some p →
      valueSent q.findValue (net i p) = none := by
    intro i p hi him hp
    simpa using hnone i p hi him hp
  obtain ⟨hzero, hinitial⟩ := firstSweep_zero q net initial outPeers buckets
  obtain ⟨hsweep, horder⟩ := hzero.run hwalk hvalue hinitial
  rw [← after_add] at hsweep horder
  rcases hend with hend | ⟨p, hp, hsome⟩
  · have hm : order.length = m := le_antisymm hend (hwalk.le_length (Nat.zero_le _))
    obtain ⟨n, hexhausted⟩ := hsweep.exhausted (by rw [VectorPtr.size, horder]; exact hend)
    rw [← after_add, horder] at hexhausted
    exact ⟨_, m, order, hwalk, fun i p => hvalue i p (Nat.zero_le i), hexhausted.pending,
      Or.inl ⟨hm, hexhausted⟩⟩
  · obtain ⟨values, hvalues⟩ := Option.isSome_iff_exists.mp hsome
    obtain ⟨hfound, hpending⟩ := hsweep.found (by rw [horder]; exact hp) hvalues
    rw [← after_add] at hfound hpending
    exact ⟨_, m, order, hwalk, fun i p => hvalue i p (Nat.zero_le i), hpending.trans horder,
      Or.inr ⟨p, values, hp, hvalues, hfound⟩⟩

end Kademlia.Lookup
