import Kademlia.Lookup.Contact

/-!
The steps of a lookup, and what they preserve.

`Step` lists what one step can do; the invariants are read off it, one case
for each constructor. `Consistent` relates the two parallel vectors to the
record of the contacts: an entry is contacted when it is marked, and marked
for good, so it is contacted once.
-/

namespace Kademlia.Lookup

open Foundations Foundations.Traced Foundations.Worklist Model

inductive Step (q : Search) (net : Network) (s : LookupState) : LookupState → Prop
  | begin (hpos : s.position = .outer) (hdone : s.done = false)
      (hvalue : q.findValue = false ∨ s.valueFound = false) :
      Step q net s
        { s with anyNewContact := false, position := .inner 0, sweeps := s.sweeps + 1 }
  | leave (hpos : s.position = .outer)
      (hover : s.done = true ∨ q.findValue = true ∧ s.valueFound = true) :
      Step q net s { s with position := .exit }
  | contact {i : ℕ} {p : Peer} {t : LookupState} (hpos : s.position = .inner i)
      (hp : s.pending.data[i]? = some p) (hnew : s.contacted.data[i]? = some false)
      (ht : Contacted q (net s.contacts.length p) p (s.mark i) t) :
      Step q net s
        (if t.valueFound then endSweep q t else { t with position := .inner (i + 1) })
  | skip {i : ℕ} (hpos : s.position = .inner i) (hi : i < s.pending.size)
      (hold : s.contacted.data[i]? ≠ some false) :
      Step q net s { s with position := .inner (i + 1) }
  | finish {i : ℕ} (hpos : s.position = .inner i) (hi : s.pending.size ≤ i) :
      Step q net s (endSweep q s)
  | stay (hpos : s.position = .exit) : Step q net s s

theorem step_spec (q : Search) (net : Network) (s : LookupState) :
    Step q net s (s.step q net).val := by
  unfold LookupState.step
  cases hpos : s.position with
  | outer =>
      dsimp only
      split
      · next h => exact .begin hpos h.1 h.2
      · next h =>
          refine .leave hpos ?_
          cases hdone : s.done <;> simp_all
  | inner i =>
      dsimp only
      split
      · next hi =>
          split
          · next p hp hnew =>
              have ht := contactPeer_contacted q (net s.contacts.length p) p (s.mark i)
              have hstep := Step.contact hpos hp hnew ht
              rw [val_bind]
              split
              · next hfound => rwa [if_pos hfound] at hstep
              · next hfound => rwa [if_neg hfound] at hstep
          · next hcases =>
              refine .skip hpos hi fun hnew => ?_
              exact hcases _ (List.getElem?_eq_getElem hi) hnew
      · next hi => exact .finish hpos (not_lt.mp hi)
  | exit => exact .stay hpos

/-! ### Runs -/

def after (q : Search) (net : Network) (n : ℕ) (s : LookupState) : LookupState :=
  (s.run q net n).val

variable {q : Search} {net : Network}

@[simp] theorem after_zero (s : LookupState) : after q net 0 s = s := rfl

theorem after_succ (n : ℕ) (s : LookupState) :
    after q net (n + 1) s = after q net n (s.step q net).val := rfl

theorem after_add (m n : ℕ) (s : LookupState) :
    after q net (m + n) s = after q net n (after q net m s) := by
  induction m generalizing s with
  | zero => rw [Nat.zero_add, after_zero]
  | succ m ih => rw [Nat.succ_add, after_succ, ih, after_succ]

theorem after_exit {s : LookupState} (h : s.position = .exit) (n : ℕ) :
    after q net n s = s := by
  induction n with
  | zero => rfl
  | succ n ih =>
      have hstep : (s.step q net).val = s := by simp [LookupState.step, h]
      rw [after_succ, hstep, ih]

theorem after_of_le {n fuel : ℕ} {s : LookupState}
    (h : (after q net n s).position = .exit) (hle : n ≤ fuel) :
    after q net fuel s = after q net n s := by
  rw [← Nat.add_sub_cancel' hle, after_add, after_exit h]

theorem iterativeFindPeers_of_exit {buckets : Buckets}
    {outPeers : ℕ → Option Peer} {n fuel : ℕ} (hmax : q.maxPeers ≠ 0)
    (h : (after q net n (LookupState.start (initialPeers q buckets).val outPeers
      buckets)).position = .exit) (hle : n ≤ fuel) :
    (iterativeFindPeers q net buckets outPeers fuel).val =
      some ((after q net n (LookupState.start (initialPeers q buckets).val outPeers
        buckets)).finish q) := by
  have hrun := after_of_le h hle
  rw [after] at hrun
  simp only [iterativeFindPeers, if_neg hmax, val_bind, val_pure]
  rw [hrun, if_pos h]

theorem iterativeFindPeers_of_le {buckets : Buckets} {outPeers : ℕ → Option Peer}
    {fuel fuel' : ℕ} {result : LookupResult}
    (h : (iterativeFindPeers q net buckets outPeers fuel).val = some result)
    (hle : fuel ≤ fuel') :
    (iterativeFindPeers q net buckets outPeers fuel').val = some result := by
  by_cases hmax : q.maxPeers = 0
  · simp only [iterativeFindPeers, if_pos hmax] at h ⊢
    exact h
  · rw [← h]
    simp only [iterativeFindPeers, if_neg hmax, val_bind, val_pure] at h
    split at h
    · next hexit =>
        rw [iterativeFindPeers_of_exit hmax hexit hle, iterativeFindPeers_of_exit hmax hexit le_rfl]
    · cases h

/-- What holds at the start and is preserved by every step holds in every state
of the run. -/
theorem after_invariant {motive : LookupState → Prop}
    (hstep : ∀ s s', Step q net s s' → motive s → motive s') {s : LookupState}
    (h : motive s) (n : ℕ) : motive (after q net n s) := by
  induction n generalizing s with
  | zero => exact h
  | succ n ih => exact ih (hstep s _ (step_spec q net s) h)

/-! ### What a contact changes -/

section Contact

variable {session : Option Session} {p : Peer} {i : ℕ} {s t : LookupState}

theorem Contacted.pending (h : Contacted q session p (s.mark i) t) :
    t.pending.data = pushAll Peer.peerId s.pending.data (closestSent q.findValue session) :=
  h.heard.pending

theorem Contacted.contacted (h : Contacted q session p (s.mark i) t) :
    t.contacted.data = s.contacted.data.set i true ++
      List.replicate (t.pending.size - s.pending.size) false :=
  h.heard.contacted

theorem Contacted.advertised (h : Contacted q session p (s.mark i) t) :
    t.advertised = s.advertised ++ closestSent q.findValue session :=
  h.heard.advertised

theorem Contacted.contacts (h : Contacted q session p (s.mark i) t) :
    t.contacts = s.contacts ++ [i] := by
  have hframe := congrArg LookupState.contacts h.heard.frame
  exact hframe

theorem Contacted.anyNewContact (h : Contacted q session p (s.mark i) t) :
    t.anyNewContact = true := by
  have hframe := congrArg LookupState.anyNewContact h.heard.frame
  exact hframe

theorem Contacted.done (h : Contacted q session p (s.mark i) t) : t.done = s.done := by
  have hframe := congrArg LookupState.done h.heard.frame
  exact hframe

theorem Contacted.sweeps (h : Contacted q session p (s.mark i) t) : t.sweeps = s.sweeps := by
  have hframe := congrArg LookupState.sweeps h.heard.frame
  exact hframe

theorem Contacted.grows (h : Contacted q session p (s.mark i) t) :
    s.pending.data <+: t.pending.data := by
  rw [h.pending]
  exact prefix_pushAll _ _ _

end Contact

/-! ### The parallel vectors -/

structure Consistent (s : LookupState) : Prop where
  length_eq : s.contacted.data.length = s.pending.data.length
  nodup : s.contacts.Nodup
  mem_contacts : ∀ i, i ∈ s.contacts ↔ s.contacted.data[i]? = some true
  requests : s.requests.Sublist (s.contacts.filterMap fun i => s.pending.data[i]?)

theorem Consistent.lt_length {s : LookupState} (h : Consistent s) {i : ℕ}
    (hi : i ∈ s.contacts) : i < s.pending.data.length := by
  have hget := (h.mem_contacts i).mp hi
  rw [← h.length_eq]
  exact (List.getElem?_eq_some_iff.mp hget).1

theorem Consistent.contact {session : Option Session} {p : Peer} {i : ℕ} {s t : LookupState}
    (h : Consistent s) (hp : s.pending.data[i]? = some p)
    (hnew : s.contacted.data[i]? = some false) (ht : Contacted q session p (s.mark i) t) :
    Consistent t where
  length_eq := by
    have hle := ht.grows.length_le
    rw [ht.contacted, List.length_append, List.length_set, List.length_replicate, h.length_eq,
      VectorPtr.size, VectorPtr.size]
    omega
  nodup := by
    have hfresh : i ∉ s.contacts := by
      rw [h.mem_contacts, hnew]
      simp
    rw [ht.contacts]
    exact h.nodup.append (List.nodup_singleton i) (by simpa using hfresh)
  mem_contacts j := by
    have hi : i < s.contacted.data.length := (List.getElem?_eq_some_iff.mp hnew).1
    rw [ht.contacts, ht.contacted, List.mem_append, List.mem_singleton, h.mem_contacts]
    rcases Nat.lt_or_ge j s.contacted.data.length with hj | hj
    · rw [List.getElem?_append_left (by simpa using hj), List.getElem?_set]
      by_cases hij : i = j
      · subst hij
        simp [hi]
      · simp [hij, eq_comm]
    · have hnone : s.contacted.data[j]? = none := List.getElem?_eq_none hj
      rw [List.getElem?_append_right (by simpa using hj), hnone, List.getElem?_replicate]
      have hne : j ≠ i := by omega
      simp [hne]
  requests := by
    have hsame : s.contacts.filterMap (fun j => t.pending.data[j]?) =
        s.contacts.filterMap (fun j => s.pending.data[j]?) := by
      apply List.filterMap_congr
      intro j hj
      obtain ⟨rest, hrest⟩ := ht.grows
      rw [← hrest, List.getElem?_append_left (h.lt_length hj)]
    have hlast : t.pending.data[i]? = some p := getElem?_of_isPrefix_of ht.grows hp
    rw [ht.contacts, ht.requests, List.filterMap_append, hsame]
    refine h.requests.append ?_
    split <;> simp [hlast]

theorem Step.consistent {s s' : LookupState} (h : Step q net s s') (hs : Consistent s) :
    Consistent s' := by
  cases h with
  | begin _ _ _ => exact ⟨hs.length_eq, hs.nodup, hs.mem_contacts, hs.requests⟩
  | leave _ _ => exact ⟨hs.length_eq, hs.nodup, hs.mem_contacts, hs.requests⟩
  | contact _ hp hnew ht =>
      have hcontact := hs.contact hp hnew ht
      split <;>
        exact ⟨hcontact.length_eq, hcontact.nodup, hcontact.mem_contacts, hcontact.requests⟩
  | skip _ _ _ => exact ⟨hs.length_eq, hs.nodup, hs.mem_contacts, hs.requests⟩
  | finish _ _ => exact ⟨hs.length_eq, hs.nodup, hs.mem_contacts, hs.requests⟩
  | stay _ => exact hs

end Kademlia.Lookup
