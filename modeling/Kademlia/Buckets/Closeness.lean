import Kademlia.Buckets.Answers
import Kademlia.Buckets.BucketOrder

/-!
Whether `find_closest_peers` returns the closest peers.

Each bucket gives as many peers as there are slots left when it is visited, and
these are its nearest ones unless two slots are overwritten. But the buckets are
visited on both sides of the one of the target in turn, and those in front of it
are all farther away than those behind it. So the result is right exactly if no
bucket gives a peer before one that is nearer has given all of its own.
-/

namespace Kademlia.Buckets

open Foundations Foundations.Traced Model

/-! ### The slots left for a bucket -/

/-- The peers in the buckets that are visited before bucket `i`. -/
def sizeBefore (buckets : Model.Buckets) (i : ℤ) : List ℤ → ℕ
  | [] => 0
  | j :: order => if j = i then 0 else (buckets.get j).peers.length + sizeBefore buckets i order

/-- The slots that are left when bucket `i` is visited, if the target is in bucket `b`. -/
def slotsLeft (buckets : Model.Buckets) (b : ℤ) (n : ℕ) (i : ℤ) : ℕ :=
  n - sizeBefore buckets i (visitOrder b)

variable {own target : HashID} {buckets : Model.Buckets} {n : ℕ}

theorem foldl_appendNearest_eq {order : List ℤ} (horder : order.Nodup) {result : List Peer}
    (hle : result.length ≤ n) :
    order.foldl (appendNearest buckets target n) result =
      result ++ order.flatMap fun i =>
        findNearest (buckets.get i) target (n - result.length - sizeBefore buckets i order) := by
  induction order generalizing result with
  | nil => simp
  | cons j order ih =>
      obtain ⟨hj, hrest⟩ := List.nodup_cons.mp horder
      have hlen : (appendNearest buckets target n result j).length = _ :=
        appendNearest_length result j
      rw [List.foldl_cons, ih hrest (by omega), List.flatMap_cons, ← List.append_assoc]
      congr 1
      · rw [appendNearest, sizeBefore, if_pos rfl, Nat.sub_zero]
      · apply List.flatMap_congr
        intro i hi
        have hne : j ≠ i := fun h => hj (h ▸ hi)
        congr 1
        rw [hlen, sizeBefore, if_neg hne]
        omega

/-- Each bucket gives what `find_nearest` makes of the slots left for it. -/
theorem closestPeers_eq_flatMap (h : TargetInTable own target) :
    closestPeers (some own) buckets target n =
      (visitOrder (getBucketIndex (distHash own target))).flatMap fun i =>
        findNearest (buckets.get i) target
          (slotsLeft buckets (getBucketIndex (distHash own target)) n i) := by
  rw [closestPeers, if_neg h.ne,
    foldl_appendNearest_eq (nodup_visitOrder _) (Nat.zero_le n), List.nil_append]
  rfl

variable (buckets) in
theorem sizeBefore_add_le {i j : ℤ} {before : List ℤ} (hj : j ∈ before) (hi : i ∉ before)
    (after : List ℤ) :
    sizeBefore buckets j (before ++ after) + (buckets.get j).peers.length ≤
      sizeBefore buckets i (before ++ after) := by
  induction before with
  | nil => cases hj
  | cons a before ih =>
      have hai : a ≠ i := fun h => hi (h ▸ List.mem_cons_self)
      rw [List.cons_append, sizeBefore, sizeBefore, if_neg hai]
      by_cases haj : a = j
      · subst haj
        rw [if_pos rfl]
        omega
      · have hrest := ih ((List.mem_cons.mp hj).resolve_left (Ne.symm haj))
          fun h => hi (List.mem_cons_of_mem a h)
        rw [if_neg haj]
        omega

/-- Behind the bucket of the target the visits go outward. -/
theorem visitOrder_split {b i j : ℤ} (hj : b ≤ j) (hji : j < i) (hi : i ≤ b + 256) :
    ∃ before after, visitOrder b = before ++ after ∧ j ∈ before ∧ i ∉ before := by
  obtain ⟨o, ho⟩ := Int.eq_ofNat_of_zero_le (show 0 ≤ i - b - 1 by omega)
  obtain ⟨k, hk⟩ := Nat.exists_eq_add_of_le (show o ≤ 256 by omega)
  refine ⟨b :: (List.range' 1 o).flatMap (bothSides b),
    (List.range' (1 + o) k).flatMap (bothSides b), ?_, ?_, ?_⟩
  · rw [visitOrder, hk, ← List.range'_append_1, List.flatMap_append, List.cons_append]
  · rw [List.mem_cons, List.mem_flatMap]
    by_cases heq : j = b
    · exact .inl heq
    · refine .inr ⟨(j - b).toNat, ?_, ?_⟩
      · rw [List.mem_range'_1]
        omega
      · rw [mem_bothSides]
        omega
  · rw [List.mem_cons, List.mem_flatMap]
    rintro (heq | ⟨o', ho', hmem⟩)
    · omega
    · rw [List.mem_range'_1] at ho'
      rw [mem_bothSides] at hmem
      omega

/-- The bucket of the target and those behind it use up the slots in their order. -/
theorem length_le_slotsLeft {b i j : ℤ} (hj : b ≤ j) (hji : j < i) (hi : i ≤ b + 256)
    (hfree : 0 < slotsLeft buckets b n i) :
    (buckets.get j).peers.length ≤ slotsLeft buckets b n j := by
  obtain ⟨before, after, hsplit, hj, hi⟩ := visitOrder_split hj hji hi
  have hle := sizeBefore_add_le buckets hj hi after
  rw [slotsLeft, hsplit] at hfree ⊢
  omega

/-! ### Which visits are in order -/

/-- If bucket `i` is farther from the target than bucket `j`, which has a greater index, then
bucket `i` gives peers only where bucket `j` gives all of its own. -/
def VisitsInOrder (own target : HashID) (buckets : Model.Buckets) (n : ℕ) : Prop :=
  ∀ i j : ℤ, 0 ≤ i → i < j → j < bucketCount →
    bitOf (distHash own target) i.toNat = false → (buckets.get i).peers ≠ [] →
      0 < slotsLeft buckets (getBucketIndex (distHash own target)) n i →
        (buckets.get j).peers.length ≤
          slotsLeft buckets (getBucketIndex (distHash own target)) n j

/-- `l` is made of the `n` peers of the table that are closest to the target. -/
structure IsClosest (buckets : Model.Buckets) (target : HashID) (n : ℕ) (l : List Peer) :
    Prop where
  count : l.length = min n (tablePeers buckets).length
  distinct : (l.map Peer.peerId).Nodup
  known : ∀ p ∈ l, p ∈ tablePeers buckets
  nearest : ∀ p ∈ l, ∀ q ∈ tablePeers buckets, q ∉ l →
    distance target p.peerId ≤ distance target q.peerId

theorem overwritesOnce_of_visits {i : ℤ} {order : List ℤ} (hi : i ∈ order)
    (h : VisitsOverwriteOnce buckets target order n) :
    OverwritesOnce target (n - sizeBefore buckets i order) (buckets.get i).peers := by
  induction order generalizing n with
  | nil => cases hi
  | cons j order ih =>
      obtain ⟨hfirst, hrest⟩ := h
      rw [sizeBefore]
      by_cases hji : j = i
      · subst hji
        rwa [if_pos rfl]
      · rw [if_neg hji, ← Nat.sub_sub]
        exact ih ((List.mem_cons.mp hi).resolve_left (Ne.symm hji)) hrest

/-! ### Peers that are left out -/

theorem findNearest_of_le {list : DList} {m : ℕ} (h : list.peers.length ≤ m) (id : HashID) :
    findNearest list id m = list.peers := by
  rw [findNearest_eq, List.take_of_length_le h, List.drop_of_length_le h]
  exact List.map_id list.peers

theorem exists_left_out {list : DList} (hnodup : (list.peers.map Peer.peerId).Nodup) {m : ℕ}
    (h : m < list.peers.length) (id : HashID) :
    ∃ q ∈ list.peers, q ∉ findNearest list id m := by
  by_contra hall
  push Not at hall
  have hle := (List.subperm_of_subset hnodup.of_map hall).length_le
  rw [findNearest_length] at hle
  omega

theorem mem_get_in_table {i : ℤ} {p : Peer} (hp : p ∈ (buckets.get i).peers) :
    0 ≤ i ∧ i < bucketCount := by
  by_contra hi
  rw [get_of_not_in_table buckets hi] at hp
  cases hp

/-- A peer of bucket `j` is returned only from there. -/
theorem mem_closestPeers_iff (hplaced : WellPlaced own buckets) (htarget : TargetInTable own target)
    {j : ℤ} {q : Peer} (hq : q ∈ (buckets.get j).peers) :
    q ∈ closestPeers (some own) buckets target n ↔
      q ∈ findNearest (buckets.get j) target
        (slotsLeft buckets (getBucketIndex (distHash own target)) n j) := by
  rw [closestPeers_eq_flatMap htarget, List.mem_flatMap]
  constructor
  · rintro ⟨i, -, hi⟩
    have hij : i = j := by
      rw [← hplaced.index i q (findNearest_subset _ _ _ q hi), hplaced.index j q hq]
    rwa [← hij]
  · exact fun h => ⟨j, mem_visitOrder_of_in_table htarget (mem_get_in_table hq), h⟩

theorem exists_bucket_of_mem (htarget : TargetInTable own target) {p : Peer}
    (hp : p ∈ closestPeers (some own) buckets target n) :
    ∃ i ∈ visitOrder (getBucketIndex (distHash own target)), p ∈ (buckets.get i).peers ∧
      p ∈ findNearest (buckets.get i) target
        (slotsLeft buckets (getBucketIndex (distHash own target)) n i) := by
  rw [closestPeers_eq_flatMap htarget] at hp
  obtain ⟨i, hi, hp⟩ := List.mem_flatMap.mp hp
  exact ⟨i, hi, findNearest_subset _ _ _ p hp, hp⟩

theorem slotsLeft_pos_of_mem {list : DList} {id : HashID} {m : ℕ} {p : Peer}
    (hp : p ∈ findNearest list id m) : 0 < m := by
  have hpos := List.length_pos_of_mem hp
  rw [findNearest_length] at hpos
  omega

section Order

variable (hplaced : WellPlaced own buckets) (htarget : TargetInTable own target)
include hplaced htarget

/-- One case for each order of the two buckets. -/
theorem nearest_of_visitsInOrder (honce : VisitsOverwriteOnce buckets target
      (visitOrder (getBucketIndex (distHash own target))) n)
    (horder : VisitsInOrder own target buckets n) {p q : Peer}
    (hp : p ∈ closestPeers (some own) buckets target n) (hq : q ∈ tablePeers buckets)
    (hnot : q ∉ closestPeers (some own) buckets target n) :
    distance target p.peerId ≤ distance target q.peerId := by
  obtain ⟨i, hi, hpi, hp⟩ := exists_bucket_of_mem htarget hp
  obtain ⟨j, hj, hqj⟩ := mem_tablePeers.mp hq
  rw [mem_closestPeers_iff hplaced htarget hqj] at hnot
  have hroom : ¬ (buckets.get j).peers.length ≤
      slotsLeft buckets (getBucketIndex (distHash own target)) n j := by
    intro hle
    rw [findNearest_of_le hle] at hnot
    exact hnot hqj
  have hfree := slotsLeft_pos_of_mem hp
  obtain ⟨hi0, hi8⟩ := mem_get_in_table hpi
  have hcount : bucketCount = 8 := rfl
  obtain ⟨k, rfl⟩ := Int.eq_ofNat_of_zero_le hi0
  obtain ⟨k', rfl⟩ := Int.eq_ofNat_of_zero_le hj.1
  have hpindex := hplaced.index _ p hpi
  have hqindex := hplaced.index _ q hqj
  rcases lt_trichotomy k k' with hlt | rfl | hgt
  · cases hbit : bitOf (distHash own target) k with
    | true => exact ((distance_lt_iff hpindex hqindex hlt (by omega)).mpr hbit).le
    | false =>
        exact absurd (horder k k' hi0 (by omega) hj.2 hbit (List.ne_nil_of_mem hpi) hfree) hroom
  · exact findNearest_nearest (overwritesOnce_of_visits hi honce) hp hqj hnot
  · cases hbit : bitOf (distHash own target) k' with
    | true =>
        have hb : getBucketIndex (distHash own target) ≤ k' := by
          obtain ⟨b, hb⟩ := Int.eq_ofNat_of_zero_le htarget.1
          have hb8 := htarget.2
          by_contra hlt
          rw [bitOf_of_lt hb (by omega) (by omega)] at hbit
          cases hbit
        exact absurd (length_le_slotsLeft hb (by omega) (by have := htarget.1; omega) hfree) hroom
    | false =>
        refine not_lt.mp fun hlt => ?_
        rw [distance_lt_iff hqindex hpindex hgt (by omega), hbit] at hlt
        cases hlt

theorem visitsInOrder_of_nearest
    (hnearest : ∀ p ∈ closestPeers (some own) buckets target n, ∀ q ∈ tablePeers buckets,
      q ∉ closestPeers (some own) buckets target n →
        distance target p.peerId ≤ distance target q.peerId) :
    VisitsInOrder own target buckets n := by
  intro i j hi hij hj hbit hne hfree
  by_contra hroom
  obtain ⟨p, hp⟩ := List.exists_mem_of_length_pos (l := findNearest (buckets.get i) target
      (slotsLeft buckets (getBucketIndex (distHash own target)) n i)) (by
    rw [findNearest_length]
    have hpos := List.length_pos_of_ne_nil hne
    omega)
  have hpi := findNearest_subset _ _ _ p hp
  obtain ⟨q, hqj, hnot⟩ := exists_left_out (hplaced.nodup j) (not_le.mp hroom) target
  rw [← mem_closestPeers_iff hplaced htarget hpi] at hp
  rw [← mem_closestPeers_iff hplaced htarget hqj] at hnot
  have hle := hnearest p hp q (mem_tablePeers.mpr ⟨j, mem_get_in_table hqj, hqj⟩) hnot
  have hcount : bucketCount = 8 := rfl
  obtain ⟨k, rfl⟩ := Int.eq_ofNat_of_zero_le hi
  obtain ⟨k', rfl⟩ := Int.eq_ofNat_of_zero_le (hi.trans hij.le)
  have hpindex := hplaced.index _ p hpi
  have hqindex := hplaced.index _ q hqj
  have hlt : distance target p.peerId < distance target q.peerId :=
    hle.lt_of_ne (distance_ne hpindex hqindex (by omega))
  rw [distance_lt_iff hpindex hqindex (by omega) (by omega)] at hlt
  rw [Int.toNat_natCast, hlt] at hbit
  cases hbit

end Order

/-! ### The closest peers -/

def ReturnsClosest (own : HashID) (buckets : Model.Buckets) (target : HashID) (n : ℕ) : Prop :=
  ∃ l, (findClosestPeers (some own) buckets target n).val = some l ∧
    IsClosest buckets target n l

/-- The closest peers come back exactly if no visit overwrites two slots and no bucket is
visited before a nearer one has given all its peers. -/
theorem returnsClosest_iff (hplaced : WellPlaced own buckets) (hpeers : tablePeers buckets ≠ [])
    (htarget : TargetInTable own target) (hn : 1 ≤ n) :
    ReturnsClosest own buckets target n ↔
      VisitsOverwriteOnce buckets target (visitOrder (getBucketIndex (distHash own target))) n ∧
        VisitsInOrder own target buckets n := by
  have hlen := closestPeers_length htarget buckets n
  have hpos := List.length_pos_of_ne_nil hpeers
  have hval := findClosestPeers_val (some own) buckets target n
  have hnodup : ((closestPeers (some own) buckets target n).map Peer.peerId).Nodup ↔
      VisitsOverwriteOnce buckets target (visitOrder (getBucketIndex (distHash own target))) n := by
    rw [closestPeers, if_neg htarget.ne]
    exact foldl_appendNearest_nodup_iff target n hplaced (nodup_visitOrder _) [] (by simp) (by simp)
      (Nat.zero_le n)
  constructor
  · rintro ⟨l, hl, hclosest⟩
    rw [hl, Option.getD_some] at hval
    subst hval
    exact ⟨hnodup.mp hclosest.distinct,
      visitsInOrder_of_nearest hplaced htarget hclosest.nearest⟩
  · rintro ⟨honce, horder⟩
    cases h : (findClosestPeers (some own) buckets target n).val with
    | none =>
        rw [h, Option.getD_none] at hval
        rw [← hval, List.length_nil] at hlen
        omega
    | some l =>
        rw [h, Option.getD_some] at hval
        subst hval
        exact ⟨_, h, hlen, hnodup.mpr honce, closestPeers_subset _ _ _ _,
          fun p hp q hq hnot => nearest_of_visitsInOrder hplaced htarget honce horder hp hq hnot⟩

/-- The table of the node with id zero after it heard of a peer in bucket 0 and one in
bucket 2. -/
def twoBuckets : Model.Buckets :=
  updateAll (some (idFrom 0)) Buckets.empty [⟨idFrom 128, zeroAddr⟩, ⟨idFrom 32, zeroAddr⟩]

theorem reachable_twoBuckets : Reachable (some (idFrom 0)) twoBuckets :=
  .update (.update .empty _) _

theorem tablePeers_twoBuckets :
    tablePeers twoBuckets = [⟨idFrom 128, zeroAddr⟩, ⟨idFrom 32, zeroAddr⟩] := by
  decide

theorem returnsClosest_iff_twoBuckets :
    ReturnsClosest (idFrom 0) twoBuckets (idFrom 129) 1 ↔
      VisitsOverwriteOnce twoBuckets (idFrom 129)
          (visitOrder (getBucketIndex (distHash (idFrom 0) (idFrom 129)))) 1 ∧
        VisitsInOrder (idFrom 0) (idFrom 129) twoBuckets 1 :=
  returnsClosest_iff reachable_twoBuckets.wellPlaced
    (by rw [tablePeers_twoBuckets]; exact List.cons_ne_nil _ _) ⟨by decide, by decide⟩ le_rfl

/-- For a target in bucket 1, bucket 0 is visited before bucket 2, which is nearer. -/
theorem not_returnsClosest_bucketInFront :
    Reachable (some (idFrom 0)) twoBuckets ∧ tablePeers twoBuckets ≠ [] ∧
      TargetInTable (idFrom 0) (idFrom 64) ∧
      ¬ ReturnsClosest (idFrom 0) twoBuckets (idFrom 64) 1 := by
  refine ⟨reachable_twoBuckets, ?_, ⟨by decide, by decide⟩, ?_⟩
  · rw [tablePeers_twoBuckets]
    exact List.cons_ne_nil _ _
  · rintro ⟨l, hl, hclosest⟩
    have hfound : (findClosestPeers (some (idFrom 0)) twoBuckets (idFrom 64) 1).val =
        some [⟨idFrom 128, zeroAddr⟩] := by decide
    rw [hfound, Option.some.injEq] at hl
    subst hl
    have hle := hclosest.nearest ⟨idFrom 128, zeroAddr⟩ List.mem_cons_self
      ⟨idFrom 32, zeroAddr⟩ (by rw [tablePeers_twoBuckets]; simp) (by decide)
    revert hle
    decide

end Kademlia.Buckets
