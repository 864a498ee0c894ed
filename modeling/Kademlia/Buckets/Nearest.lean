import Kademlia.Buckets.Distance
import Kademlia.Buckets.Indexing

/-!
The selection of `find_nearest`.

The first `max_neighbors` peers of the list fill the slots. Each later peer is
compared with every slot and overwrites all that hold a peer farther away; so
each slot ends with the nearest of its own first peer and the later ones, and
two slots overwritten end with the same peer.
-/

namespace Kademlia.Buckets

open Model

theorem zipWith_xor_cancel {l l' t : List UInt8} (hlen : l.length = t.length)
    (hlen' : l'.length = t.length)
    (h : List.zipWith (· ^^^ ·) l t = List.zipWith (· ^^^ ·) l' t) : l = l' := by
  induction t generalizing l l' with
  | nil => rw [List.eq_nil_of_length_eq_zero hlen, List.eq_nil_of_length_eq_zero hlen']
  | cons c t ih =>
      obtain ⟨a, l, rfl⟩ := List.exists_cons_of_length_eq_add_one hlen
      obtain ⟨b, l', rfl⟩ := List.exists_cons_of_length_eq_add_one hlen'
      rw [List.zipWith_cons_cons, List.zipWith_cons_cons, List.cons.injEq] at h
      have hhead : a = b := (UInt8.xor_left_inj c).mp h.1
      rw [hhead, ih (by simpa using hlen) (by simpa using hlen') h.2]

theorem distance_injective (target : HashID) {id id' : HashID}
    (h : distance target id = distance target id') : id = id' := by
  have hbytes : (distHash id target).toList = (distHash id' target).toList :=
    bigEndian_injective (by rw [List.Vector.toList_length, List.Vector.toList_length]) h
  rw [toList_distHash, toList_distHash] at hbytes
  exact List.Vector.toList_injective (zipWith_xor_cancel (by simp) (by simp) hbytes)

/-- A slot that holds `slot` after `current` was compared with it. -/
def pick (target : HashID) (slot current : Peer) : Peer :=
  if distance target current.peerId < distance target slot.peerId then current else slot

/-- Some peer of `later` is nearer than `p`. -/
def Overtaken (target : HashID) (later : List Peer) (p : Peer) : Prop :=
  ∃ r ∈ later, distance target r.peerId < distance target p.peerId

theorem foldl_nearestStep (id : HashID) (m : ℕ) (l ps : List Peer) (hps : ps.length ≤ m) :
    (l.foldl (nearestStep id m) (ps.map fun p => (distHash p.peerId id, p))).map Prod.snd =
      (ps ++ l.take (m - ps.length)).map fun p => (l.drop (m - ps.length)).foldl (pick id) p := by
  induction l generalizing ps with
  | nil => simp [Function.comp_def]
  | cons current l ih =>
      rw [List.foldl_cons, nearestStep, List.length_map]
      rcases Nat.lt_or_ge ps.length m with hlt | hge
      · have hnext := ih (ps ++ [current]) (by simp; omega)
        have hsub : m - ps.length = (m - (ps ++ [current]).length) + 1 := by
          rw [List.length_append, List.length_singleton]
          omega
        rw [List.map_append, List.map_singleton] at hnext
        rw [if_pos hlt, hnext, hsub, List.take_succ_cons, List.drop_succ_cons,
          List.append_assoc, List.singleton_append]
      · have hfull : m - ps.length = 0 := by omega
        have hnext := ih (ps.map fun p => pick id p current) (by simpa using hps)
        rw [List.length_map, hfull] at hnext
        have hstep : (ps.map fun p => (distHash p.peerId id, p)).map
            (fun slot => if compareHashes slot.1 (distHash current.peerId id) > 0
              then (distHash current.peerId id, current) else slot) =
            (ps.map fun p => pick id p current).map fun p => (distHash p.peerId id, p) := by
          rw [List.map_map, List.map_map]
          apply List.map_congr_left
          intro p _
          simp only [Function.comp_def, compareHashes_gt_zero_iff, pick]
          split <;> rfl
        rw [if_neg (by omega), hstep, hnext, hfull]
        simp [Function.comp_def]

/-- Each slot holds the nearest of its first peer and the peers behind the
slots. -/
theorem findNearest_eq (list : DList) (id : HashID) (m : ℕ) :
    findNearest list id m =
      (list.peers.take m).map fun p => (list.peers.drop m).foldl (pick id) p := by
  unfold findNearest
  split
  · next h =>
      rcases Bool.or_eq_true_iff.mp h with hempty | hzero
      · simp [List.isEmpty_iff.mp hempty]
      · simp [beq_iff_eq.mp hzero]
  · simpa using foldl_nearestStep id m list.peers [] (Nat.zero_le m)

theorem findNearest_length (list : DList) (id : HashID) (m : ℕ) :
    (findNearest list id m).length = min m list.peers.length := by
  rw [findNearest_eq, List.length_map, List.length_take]

/-! ### The peer that a slot ends with -/

section Fold

variable (target : HashID)

theorem foldl_pick_mem (later : List Peer) (p : Peer) :
    later.foldl (pick target) p = p ∨ later.foldl (pick target) p ∈ later := by
  induction later generalizing p with
  | nil => exact Or.inl rfl
  | cons r later ih =>
      rw [List.foldl_cons]
      rcases ih (pick target p r) with heq | hmem
      · rw [heq, pick]
        split
        · exact Or.inr List.mem_cons_self
        · exact Or.inl rfl
      · exact Or.inr (List.mem_cons_of_mem r hmem)

theorem foldl_pick_le (later : List Peer) (p : Peer) :
    ∀ x ∈ p :: later, distance target (later.foldl (pick target) p).peerId ≤
      distance target x.peerId := by
  induction later generalizing p with
  | nil => simp
  | cons r later ih =>
      have hpick : distance target (pick target p r).peerId ≤ distance target p.peerId ∧
          distance target (pick target p r).peerId ≤ distance target r.peerId := by
        unfold pick
        split <;> omega
      have hfirst := ih (pick target p r) _ List.mem_cons_self
      intro x hx
      rw [List.foldl_cons]
      rcases List.mem_cons.mp hx with rfl | hx
      · exact hfirst.trans hpick.1
      · rcases List.mem_cons.mp hx with rfl | hx
        · exact hfirst.trans hpick.2
        · exact ih _ x (List.mem_cons_of_mem _ hx)

variable {target}

theorem foldl_pick_of_not_overtaken {later : List Peer} {p : Peer}
    (h : ¬ Overtaken target later p) : later.foldl (pick target) p = p := by
  induction later with
  | nil => rfl
  | cons r later ih =>
      have hr : ¬ distance target r.peerId < distance target p.peerId :=
        fun hlt => h ⟨r, List.mem_cons_self, hlt⟩
      rw [List.foldl_cons, pick, if_neg hr]
      exact ih fun ⟨x, hx, hlt⟩ => h ⟨x, List.mem_cons_of_mem r hx, hlt⟩

theorem foldl_pick_mem_of_overtaken {later : List Peer} {p : Peer}
    (h : Overtaken target later p) : later.foldl (pick target) p ∈ later := by
  obtain ⟨r, hr, hlt⟩ := h
  rcases foldl_pick_mem target later p with heq | hmem
  · have hle := foldl_pick_le target later p r (List.mem_cons_of_mem p hr)
    rw [heq] at hle
    omega
  · exact hmem

theorem peerId_foldl_pick_eq {later : List Peer} {p p' : Peer}
    (h : Overtaken target later p) (h' : Overtaken target later p') :
    (later.foldl (pick target) p).peerId = (later.foldl (pick target) p').peerId := by
  have hmem := foldl_pick_mem_of_overtaken h
  have hmem' := foldl_pick_mem_of_overtaken h'
  exact distance_injective target (le_antisymm
    (foldl_pick_le target later p _ (List.mem_cons_of_mem p hmem'))
    (foldl_pick_le target later p' _ (List.mem_cons_of_mem p' hmem)))

end Fold

/-- No two of the first `m` peers are overtaken by later ones. -/
def OverwritesOnce (target : HashID) (m : ℕ) (peers : List Peer) : Prop :=
  (peers.take m).Pairwise fun p p' =>
    ¬ (Overtaken target (peers.drop m) p ∧ Overtaken target (peers.drop m) p')

theorem findNearest_nodup_iff {list : DList} (h : (list.peers.map Peer.peerId).Nodup)
    (id : HashID) (m : ℕ) :
    ((findNearest list id m).map Peer.peerId).Nodup ↔ OverwritesOnce id m list.peers := by
  rw [findNearest_eq, OverwritesOnce, List.map_map, List.Nodup, List.pairwise_map]
  generalize hlater : list.peers.drop m = later
  have hsplit := h
  rw [← List.take_append_drop m list.peers, hlater, List.map_append, List.nodup_append] at hsplit
  obtain ⟨hfront, -, hcross⟩ := hsplit
  rw [List.Nodup, List.pairwise_map] at hfront
  -- an overtaken slot ends with a peer from behind the slots, any other with its own
  have hmove : ∀ p ∈ list.peers.take m, ∀ p' ∈ list.peers.take m, Overtaken id later p →
      ¬ Overtaken id later p' →
        (later.foldl (pick id) p).peerId ≠ (later.foldl (pick id) p').peerId := by
    intro p _ p' hp' hover hnot
    rw [foldl_pick_of_not_overtaken hnot]
    exact (hcross _ (List.mem_map_of_mem hp') _
      (List.mem_map_of_mem (foldl_pick_mem_of_overtaken hover))).symm
  constructor
  · intro hnodup
    refine hnodup.imp fun hne hboth => ?_
    exact hne (peerId_foldl_pick_eq hboth.1 hboth.2)
  · intro honce
    refine (hfront.and honce).imp_of_mem fun {p p'} hp hp' hne => ?_
    by_cases hover : Overtaken id later p
    · exact hmove p hp p' hp' hover fun hover' => hne.2 ⟨hover, hover'⟩
    · by_cases hover' : Overtaken id later p'
      · exact (hmove p' hp' p hp hover' hover).symm
      · show (later.foldl (pick id) p).peerId ≠ (later.foldl (pick id) p').peerId
        rw [foldl_pick_of_not_overtaken hover, foldl_pick_of_not_overtaken hover']
        exact hne.1

theorem findNearest_nearest {list : DList} {id : HashID} {m : ℕ}
    (honce : OverwritesOnce id m list.peers) {p q : Peer} (hp : p ∈ findNearest list id m)
    (hq : q ∈ list.peers) (hnot : q ∉ findNearest list id m) :
    distance id p.peerId ≤ distance id q.peerId := by
  rw [findNearest_eq] at hp hnot
  obtain ⟨p, hfront, rfl⟩ := List.mem_map.mp hp
  rw [← List.take_append_drop m list.peers] at hq
  rw [OverwritesOnce] at honce
  generalize list.peers.drop m = later at honce hq hnot ⊢
  rcases List.mem_append.mp hq with hq | hq
  · have hover : Overtaken id later q := by
      by_contra hno
      exact hnot (List.mem_map.mpr ⟨q, hq, foldl_pick_of_not_overtaken hno⟩)
    by_cases heq : p = q
    · rw [heq]
      exact foldl_pick_le id later q q List.mem_cons_self
    · have hsymm : Std.Symm fun p p' => ¬ (Overtaken id later p ∧ Overtaken id later p') :=
        ⟨fun _ _ hnot hboth => hnot hboth.symm⟩
      have hno : ¬ Overtaken id later p := fun hpover =>
        honce.forall hfront hq heq ⟨hpover, hover⟩
      rw [foldl_pick_of_not_overtaken hno]
      obtain ⟨r, hr, hlt⟩ := hover
      have hle : ¬ distance id r.peerId < distance id p.peerId := fun h => hno ⟨r, hr, h⟩
      omega
  · exact foldl_pick_le id later p q (List.mem_cons_of_mem p hq)

/-! ### What a selection has to be -/

/-- The peers `out` are `m` nearest ones of the list, or all if it has fewer. -/
structure SelectsNearest (list : DList) (id : HashID) (m : ℕ) (out : List Peer) : Prop where
  length_eq : out.length = min m list.peers.length
  distinct : (out.map Peer.peerId).Nodup
  subset : out ⊆ list.peers
  nearest : ∀ p ∈ out, ∀ q ∈ list.peers, q ∉ out →
    ¬ compareHashes (distHash q.peerId id) (distHash p.peerId id) < 0

theorem findNearest_subset (list : DList) (id : HashID) (m : ℕ) :
    ∀ p ∈ findNearest list id m, p ∈ list.peers := by
  rw [findNearest_eq]
  intro p hp
  obtain ⟨slot, hslot, rfl⟩ := List.mem_map.mp hp
  rcases foldl_pick_mem id (list.peers.drop m) slot with heq | hmem
  · rw [heq]
    exact List.mem_of_mem_take hslot
  · exact List.mem_of_mem_drop hmem

/-- The slots are a selection unless two of them are overwritten. -/
theorem selectsNearest_iff {list : DList} (h : (list.peers.map Peer.peerId).Nodup)
    (id : HashID) (m : ℕ) :
    SelectsNearest list id m (findNearest list id m) ↔ OverwritesOnce id m list.peers := by
  constructor
  · intro hselects
    exact (findNearest_nodup_iff h id m).mp hselects.distinct
  · intro honce
    refine ⟨findNearest_length list id m, (findNearest_nodup_iff h id m).mpr honce,
      fun p hp => findNearest_subset list id m p hp, ?_⟩
    intro p hp q hq hnot
    rw [compareHashes_lt_zero_iff, not_lt]
    exact findNearest_nearest honce hp hq hnot

/-- Three peers at the distances 4, 2 and 1 from the id zero. -/
def nearingPeers : DList :=
  ⟨3, [⟨sparseID 0 4, zeroAddr⟩, ⟨sparseID 0 2, zeroAddr⟩, ⟨sparseID 0 1, zeroAddr⟩]⟩

theorem selectsNearest_iff_nearingPeers :
    SelectsNearest nearingPeers (sparseID 0 0) 3 (findNearest nearingPeers (sparseID 0 0) 3) ↔
      OverwritesOnce (sparseID 0 0) 3 nearingPeers.peers :=
  selectsNearest_iff (by decide) _ _

/-- Both slots are farther away than the third peer, which gets them both. -/
theorem not_selectsNearest_nearingPeers :
    ¬ SelectsNearest nearingPeers (sparseID 0 0) 2
      (findNearest nearingPeers (sparseID 0 0) 2) := by
  intro hselects
  exact absurd hselects.distinct (by decide)

end Kademlia.Buckets
