import Kademlia.Lookup.Sweeps

/-!
The cost of a lookup, against a network that may answer anything.

A peer that is appended to the pending list has an id that was advertised and
not used before, so the list is longer than the initial one by at most the
number of ids advertised; and each of its entries is contacted once.
-/

namespace Kademlia.Lookup

open Foundations Foundations.Worklist Model

variable {q : Search} {net : Network}

/-- The pending list is the initial one and further advertised peers, with
different ids. -/
def Accounted (initial : List Peer) (s : LookupState) : Prop :=
  ∃ added, s.pending.data = initial ++ added ∧ (added.map Peer.peerId).Nodup ∧
    ∀ p ∈ added, p ∈ s.advertised

theorem Accounted.contact {initial : List Peer} {session : Option Session} {p : Peer} {i : ℕ}
    {s t : LookupState} (h : Accounted initial s) (ht : Contacted q session p (s.mark i) t) :
    Accounted initial t := by
  obtain ⟨added, hpending, hnodup, hadvertised⟩ := h
  obtain ⟨fresh, hpush, hfresh, hnew⟩ :=
    pushAll_eq_append Peer.peerId s.pending.data (closestSent q.findValue session)
  refine ⟨added ++ fresh, ?_, ?_, ?_⟩
  · rw [ht.pending, hpush, hpending, List.append_assoc]
  · rw [List.map_append, List.nodup_append]
    refine ⟨hnodup, hfresh, ?_⟩
    rintro id hid id' hid' rfl
    obtain ⟨r, hr, rfl⟩ := List.mem_map.mp hid'
    apply (hnew r hr).2
    rw [hpending, List.map_append]
    exact List.mem_append_right _ hid
  · intro r hr
    rw [ht.advertised]
    rcases List.mem_append.mp hr with hr | hr
    · exact List.mem_append_left _ (hadvertised r hr)
    · exact List.mem_append_right _ (hnew r hr).1

theorem Step.accounted {initial : List Peer} {s s' : LookupState} (h : Step q net s s')
    (hs : Accounted initial s) : Accounted initial s' := by
  cases h with
  | begin _ _ _ => exact hs
  | leave _ _ => exact hs
  | contact _ _ _ ht =>
      have hcontact := hs.contact ht
      split <;> exact hcontact
  | skip _ _ _ => exact hs
  | finish _ _ => exact hs
  | stay _ => exact hs

theorem Accounted.size_le {initial : List Peer} {s : LookupState} (h : Accounted initial s) :
    s.pending.data.length ≤
      initial.length + (s.advertised.map Peer.peerId).toFinset.card := by
  obtain ⟨added, hpending, hnodup, hadvertised⟩ := h
  have hsubset : (added.map Peer.peerId).toFinset ⊆ (s.advertised.map Peer.peerId).toFinset := by
    intro id hid
    obtain ⟨p, hp, rfl⟩ := List.mem_map.mp (List.mem_toFinset.mp hid)
    exact List.mem_toFinset.mpr (List.mem_map_of_mem (hadvertised p hp))
  have hcard := Finset.card_le_card hsubset
  rw [List.toFinset_card_of_nodup hnodup, List.length_map] at hcard
  rw [hpending, List.length_append]
  omega

/-! ### Sweeps -/

theorem Step.sweeps_le {s s' : LookupState} (h : Step q net s s') : s.sweeps ≤ s'.sweeps := by
  cases h with
  | begin _ _ _ => exact Nat.le_succ _
  | leave _ _ => exact le_rfl
  | contact _ _ _ ht => split <;> exact ht.sweeps.ge
  | skip _ _ _ => exact le_rfl
  | finish _ _ => exact le_rfl
  | stay _ => exact le_rfl

theorem sweeps_le_after (n : ℕ) (s : LookupState) : s.sweeps ≤ (after q net n s).sweeps := by
  induction n generalizing s with
  | zero => exact le_rfl
  | succ n ih => exact (step_spec q net s).sweeps_le.trans (ih _)

/-! ### Every lookup ends -/

/-- At most two sweeps were begun, no entry was contacted twice, and there were
no more contacts than initial peers and ids advertised. -/
structure Frugal (initial : List Peer) (s : LookupState) : Prop where
  sweeps_le : s.sweeps ≤ 2
  nodup : s.contacts.Nodup
  length_le : s.contacts.length ≤
    initial.length + (s.advertised.map Peer.peerId).toFinset.card

theorem Consistent.length_contacts_le {s : LookupState} (h : Consistent s) :
    s.contacts.length ≤ s.pending.data.length := by
  have hsubset : s.contacts ⊆ List.range s.pending.data.length := fun i hi =>
    List.mem_range.mpr (h.lt_length hi)
  simpa using (h.nodup.subperm hsubset).length_le

theorem exists_exit (q : Search) (net : Network) (initial : List Peer)
    (outPeers : ℕ → Option Peer) (buckets : Buckets) :
    ∃ bound, (after q net bound (LookupState.start initial outPeers buckets)).position = .exit ∧
      (after q net bound (LookupState.start initial outPeers buckets)).sweeps ≤ 2 := by
  obtain ⟨bound, m, order, -, -, -, hend⟩ := exists_end q net initial outPeers buckets
  refine ⟨bound, ?_⟩
  rcases hend with ⟨-, h⟩ | ⟨p, values, -, -, h⟩
  · exact ⟨h.position, h.sweeps⟩
  · exact ⟨h.position, h.sweeps.le.trans one_le_two⟩

theorem frugal_after (q : Search) (net : Network) (initial : List Peer)
    (outPeers : ℕ → Option Peer) (buckets : Buckets) (n : ℕ) :
    Frugal initial (after q net n (LookupState.start initial outPeers buckets)) := by
  obtain ⟨bound, hexit, hsweeps⟩ := exists_exit q net initial outPeers buckets
  have hconsistent := consistent_after q net initial outPeers buckets n
  have haccounted : Accounted initial
      (after q net n (LookupState.start initial outPeers buckets)) := by
    refine after_invariant (fun _ _ h => h.accounted) ⟨[], ?_, List.nodup_nil, by simp⟩ n
    rw [start_pending, List.append_nil]
  refine ⟨?_, hconsistent.nodup, hconsistent.length_contacts_le.trans haccounted.size_le⟩
  generalize LookupState.start initial outPeers buckets = start at *
  -- the record of the sweeps never decreases, and its last value is at most two
  calc (after q net n start).sweeps
      ≤ (after q net bound (after q net n start)).sweeps := sweeps_le_after bound _
    _ = (after q net (n + bound) start).sweeps := by rw [after_add]
    _ = (after q net bound start).sweeps := by
        rw [after_of_le hexit (Nat.le_add_left _ _)]
    _ ≤ 2 := hsweeps

theorem iterativeFindPeers_isSome (q : Search) (net : Network) (buckets : Buckets)
    (outPeers : ℕ → Option Peer) :
    ∃ bound, ∀ fuel, bound ≤ fuel →
      (iterativeFindPeers q net buckets outPeers fuel).val.isSome = true := by
  rcases Nat.eq_zero_or_pos q.maxPeers with hmax | hmax
  · exact ⟨0, fun fuel _ => by simp [iterativeFindPeers, hmax]⟩
  · obtain ⟨bound, hexit, -⟩ := exists_exit q net (initialPeers q buckets).val outPeers buckets
    refine ⟨bound, fun fuel hfuel => ?_⟩
    rw [iterativeFindPeers_of_exit hmax.ne' hexit hfuel]
    rfl

end Kademlia.Lookup
