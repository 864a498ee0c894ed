import Kademlia.Buckets.Nearest
import Kademlia.Buckets.Table

/-!
The peers that `find_closest_peers` returns.

The buckets are visited outward from the one of the target, each with the slots
that are still free. In a reachable table a peer is in the bucket of its index,
once, so the buckets cannot repeat each other; the result has two entries for
one peer exactly when a single `find_nearest` overwrites two of its slots.
-/

namespace Kademlia.Buckets

open Foundations Foundations.Traced Model

/-! ### Reachable tables -/

/-- The tables that `update_bucket_peers` makes out of the empty one. -/
inductive Reachable (own : Option HashID) : Model.Buckets → Prop
  | empty : Reachable own Buckets.empty
  | update {buckets : Model.Buckets} (h : Reachable own buckets) (peer : Peer) :
      Reachable own (updateBucketPeers own buckets peer).val

/-- Each peer is in the bucket of its index, and there once. -/
structure WellPlaced (own : HashID) (buckets : Model.Buckets) : Prop where
  nodup : ∀ i, ((buckets.get i).peers.map Peer.peerId).Nodup
  index : ∀ i, ∀ p ∈ (buckets.get i).peers, getBucketIndex (distHash own p.peerId) = i

theorem get_of_not_in_table (buckets : Model.Buckets) {i : ℤ}
    (h : ¬ (0 ≤ i ∧ i < bucketCount)) : buckets.get i = DList.empty := by
  rw [Buckets.get, dif_neg h]

theorem Reachable.wellFormed {own : HashID} {buckets : Model.Buckets}
    (h : Reachable (some own) buckets) (i : Fin bucketCount) :
    WellFormed own i (buckets i) := by
  induction h generalizing i with
  | empty => exact wellFormed_empty own i
  | update _ peer ih => exact updateBucketPeers_wellFormed ih peer i

theorem Reachable.wellPlaced {own : HashID} {buckets : Model.Buckets}
    (h : Reachable (some own) buckets) : WellPlaced own buckets where
  nodup i := by
    by_cases hi : 0 ≤ i ∧ i < bucketCount
    · rw [Buckets.get, dif_pos hi]
      exact (h.wellFormed _).nodup
    · rw [get_of_not_in_table buckets hi]
      exact List.nodup_nil
  index i p hp := by
    by_cases hi : 0 ≤ i ∧ i < bucketCount
    · rw [Buckets.get, dif_pos hi] at hp
      rw [(h.wellFormed _).placed p hp, Int.toNat_of_nonneg hi.1]
    · rw [get_of_not_in_table buckets hi] at hp
      cases hp

/-! ### The order of the visits -/

/-- The buckets visited for one offset. -/
def bothSides (bucketIndex : ℤ) (offset : ℕ) : List ℤ :=
  [bucketIndex - offset, bucketIndex + offset]

theorem mem_bothSides {b i : ℤ} {offset : ℕ} :
    i ∈ bothSides b offset ↔ i = b - offset ∨ i = b + offset := by
  rw [bothSides, List.mem_cons, List.mem_singleton]

/-- The buckets in the order in which they are visited; those outside the table
have nothing to offer. -/
def visitOrder (bucketIndex : ℤ) : List ℤ :=
  bucketIndex :: (List.range' 1 256).flatMap (bothSides bucketIndex)

def appendNearest (buckets : Model.Buckets) (target : HashID) (n : ℕ) (result : List Peer)
    (i : ℤ) : List Peer :=
  result ++ findNearest (buckets.get i) target (n - result.length)

variable {buckets : Model.Buckets} {target : HashID} {n : ℕ}

theorem takeNearest_val (i : ℤ) (result : List Peer) :
    (takeNearest buckets target n i result).val = appendNearest buckets target n result i := rfl

theorem appendNearest_of_not_in_table (result : List Peer) {i : ℤ}
    (h : ¬ (0 ≤ i ∧ i < bucketCount)) : appendNearest buckets target n result i = result := by
  rw [appendNearest, get_of_not_in_table _ h]
  simp [findNearest, DList.empty]

theorem appendNearest_of_le {result : List Peer} (h : n ≤ result.length) (i : ℤ) :
    appendNearest buckets target n result i = result := by
  rw [appendNearest, Nat.sub_eq_zero_of_le h]
  simp [findNearest]

theorem foldl_appendNearest_eq_self {order : List ℤ} {result : List Peer}
    (h : ∀ i ∈ order, appendNearest buckets target n result i = result) :
    order.foldl (appendNearest buckets target n) result = result := by
  induction order with
  | nil => rfl
  | cons i order ih =>
      rw [List.foldl_cons, h i List.mem_cons_self]
      exact ih fun j hj => h j (List.mem_cons_of_mem i hj)

/-- The widening loop visits the buckets on both sides of the first one. -/
theorem widen_val (b : ℤ) (fuel offset : ℕ) (result : List Peer) :
    (widen buckets target n b fuel offset result).val =
      ((List.range' offset fuel).flatMap (bothSides b)).foldl
        (appendNearest buckets target n) result := by
  induction fuel generalizing offset result with
  | zero => rfl
  | succ fuel ih =>
      unfold widen
      split
      · have hleft : (if b - (offset : ℤ) ≥ 0 then takeNearest buckets target n (b - offset) result
            else pure result).val = appendNearest buckets target n result (b - offset) := by
          split
          · rfl
          · rw [appendNearest_of_not_in_table result (by omega)]
            rfl
        have hright : ∀ result : List Peer, (if b + (offset : ℤ) < bucketCount
            then takeNearest buckets target n (b + offset) result
            else pure result).val = appendNearest buckets target n result (b + offset) := by
          intro result
          split
          · rfl
          · rw [appendNearest_of_not_in_table result (by omega)]
            rfl
        rw [val_bind, val_bind, hleft, hright, ih, List.range'_succ, List.flatMap_cons,
          List.foldl_append]
        rfl
      · next hguard =>
          rw [val_pure, foldl_appendNearest_eq_self]
          intro i hi
          rcases Nat.lt_or_ge result.length n with hlt | hge
          · obtain ⟨o, ho, hi⟩ := List.mem_flatMap.mp hi
            have hoffset : offset ≤ o := (List.mem_range'_1.mp ho).1
            refine appendNearest_of_not_in_table result ?_
            rw [mem_bothSides] at hi
            omega
          · exact appendNearest_of_le hge i

theorem nodup_visitOrder (b : ℤ) : (visitOrder b).Nodup := by
  rw [visitOrder, List.nodup_cons, List.nodup_flatMap]
  refine ⟨?_, ?_, ?_⟩
  · intro hmem
    obtain ⟨o, ho, hb⟩ := List.mem_flatMap.mp hmem
    have hpos : 1 ≤ o := (List.mem_range'_1.mp ho).1
    rw [mem_bothSides] at hb
    omega
  · intro o ho
    have hpos : 1 ≤ o := (List.mem_range'_1.mp ho).1
    simp only [bothSides, List.nodup_cons, List.mem_cons, List.not_mem_nil, or_false,
      not_false_eq_true, List.nodup_nil, and_true]
    omega
  · have hrange : (List.range' 1 256).Nodup := List.nodup_range'
    refine hrange.imp fun {o o'} hne => ?_
    intro i hi hi'
    rw [mem_bothSides] at hi hi'
    omega

/-! ### The result -/

theorem appendNearest_length (result : List Peer) (i : ℤ) :
    (appendNearest buckets target n result i).length =
      result.length + min (n - result.length) (buckets.get i).peers.length := by
  rw [appendNearest, List.length_append, findNearest_length]

theorem foldl_appendNearest_length_le (order : List ℤ) {result : List Peer}
    (h : result.length ≤ n) :
    (order.foldl (appendNearest buckets target n) result).length ≤ n := by
  induction order generalizing result with
  | nil => exact h
  | cons i order ih =>
      apply ih
      rw [appendNearest_length]
      omega

/-- The visits collect as many peers as there are, up to `n`. -/
theorem foldl_appendNearest_length (order : List ℤ) {result : List Peer}
    (h : result.length ≤ n) :
    (order.foldl (appendNearest buckets target n) result).length =
      min n (result.length + (order.map fun i => (buckets.get i).peers.length).sum) := by
  induction order generalizing result with
  | nil => simpa using h
  | cons i order ih =>
      have hlen : (appendNearest buckets target n result i).length = _ := appendNearest_length result i
      rw [List.foldl_cons, ih (by omega), hlen, List.map_cons, List.sum_cons]
      omega

theorem mem_visitOrder_of_in_table {b i : ℤ} (hb : 0 ≤ b ∧ b < bucketCount)
    (hi : 0 ≤ i ∧ i < bucketCount) : i ∈ visitOrder b := by
  have hcount : bucketCount = 8 := rfl
  rw [visitOrder, List.mem_cons, List.mem_flatMap]
  by_cases heq : i = b
  · exact .inl heq
  · refine .inr ⟨(i - b).natAbs, ?_, ?_⟩
    · rw [List.mem_range'_1]
      omega
    · rw [mem_bothSides]
      omega

theorem get_coe (buckets : Model.Buckets) (i : Fin bucketCount) :
    buckets.get (i.val : ℤ) = buckets i := by
  rw [Buckets.get, dif_pos ⟨by omega, by exact_mod_cast i.isLt⟩]
  rfl

theorem sum_visitOrder (buckets : Model.Buckets) {b : ℤ} (hb : 0 ≤ b ∧ b < bucketCount) :
    ((visitOrder b).map fun i => (buckets.get i).peers.length).sum =
      (tablePeers buckets).length := by
  have hcast : Function.Injective fun i : Fin bucketCount => (i.val : ℤ) := fun i j hij =>
    Fin.ext (Int.ofNat_inj.mp hij)
  calc ((visitOrder b).map fun i => (buckets.get i).peers.length).sum
      = ∑ i ∈ (visitOrder b).toFinset, (buckets.get i).peers.length :=
        (List.sum_toFinset _ (nodup_visitOrder b)).symm
    _ = ∑ i ∈ Finset.univ.image fun i : Fin bucketCount => (i.val : ℤ),
          (buckets.get i).peers.length := by
        refine (Finset.sum_subset ?_ ?_).symm
        · intro i hi
          obtain ⟨j, -, rfl⟩ := Finset.mem_image.mp hi
          exact List.mem_toFinset.mpr
            (mem_visitOrder_of_in_table hb ⟨by omega, by exact_mod_cast j.isLt⟩)
        · intro i _ hi
          rw [get_of_not_in_table]
          · rfl
          · rintro ⟨hnonneg, hlt⟩
            exact hi (Finset.mem_image.mpr
              ⟨⟨i.toNat, by omega⟩, Finset.mem_univ _, Int.toNat_of_nonneg hnonneg⟩)
    _ = ∑ i : Fin bucketCount, (buckets i).peers.length := by
        rw [Finset.sum_image fun i _ j _ hij => hcast hij]
        simp only [get_coe]
    _ = (tablePeers buckets).length := by
        rw [tablePeers, List.length_flatMap, ← List.sum_ofFn, List.ofFn_eq_map]

theorem mem_tablePeers {buckets : Model.Buckets} {p : Peer} :
    p ∈ tablePeers buckets ↔ ∃ i : ℤ, (0 ≤ i ∧ i < bucketCount) ∧ p ∈ (buckets.get i).peers := by
  rw [tablePeers, List.mem_flatMap]
  constructor
  · rintro ⟨i, -, hp⟩
    exact ⟨i.val, ⟨by omega, by exact_mod_cast i.isLt⟩, by rwa [get_coe]⟩
  · rintro ⟨i, hi, hp⟩
    rw [Buckets.get, dif_pos hi] at hp
    exact ⟨_, List.mem_finRange _, hp⟩

def closestPeers (own : Option HashID) (buckets : Model.Buckets) (target : HashID) (n : ℕ) :
    List Peer :=
  match own with
  | none => []
  | some ownId =>
      if target = ownId then []
      else (visitOrder (getBucketIndex (distHash ownId target))).foldl
        (appendNearest buckets target n) []

theorem getD_isEmpty (l : List Peer) : (if l.isEmpty then none else some l).getD [] = l := by
  cases l <;> rfl

theorem findClosestPeers_val (own : Option HashID) (buckets : Model.Buckets)
    (target : HashID) (n : ℕ) :
    (findClosestPeers own buckets target n).val.getD [] = closestPeers own buckets target n := by
  cases own with
  | none => rfl
  | some ownId =>
      have hindex : getBucketIndex (distHash ownId target) = -1 ↔ target = ownId :=
        getBucketIndex_eq_neg_one_iff.trans eq_comm
      unfold findClosestPeers closestPeers
      simp only [hindex]
      split
      · rfl
      · rw [val_bind, val_bind, val_pure, takeNearest_val, widen_val, getD_isEmpty, visitOrder,
          List.foldl_cons]

theorem closestPeers_length_le (own : Option HashID) (buckets : Model.Buckets)
    (target : HashID) (n : ℕ) : (closestPeers own buckets target n).length ≤ n := by
  unfold closestPeers
  split
  · exact Nat.zero_le n
  · split
    · exact Nat.zero_le n
    · exact foldl_appendNearest_length_le _ (Nat.zero_le n)

/-! ### Peers that come twice -/

/-- No visit overwrites two slots; `free` slots are left for the visits of
`order`. -/
def VisitsOverwriteOnce (buckets : Model.Buckets) (target : HashID) : List ℤ → ℕ → Prop
  | [], _ => True
  | i :: order, free =>
      OverwritesOnce target free (buckets.get i).peers ∧
        VisitsOverwriteOnce buckets target order (free - (buckets.get i).peers.length)

theorem prefix_foldl_appendNearest (order : List ℤ) (result : List Peer) :
    result <+: order.foldl (appendNearest buckets target n) result := by
  induction order generalizing result with
  | nil => exact List.prefix_rfl
  | cons i order ih => exact (List.prefix_append _ _).trans (ih _)

variable (target n) in
/-- The invariant is that the peers found so far come from buckets that are not
visited again. -/
theorem foldl_appendNearest_nodup_iff {own : HashID} (hplaced : WellPlaced own buckets)
    {order : List ℤ} (horder : order.Nodup) (result : List Peer)
    (hresult : ∀ p ∈ result, getBucketIndex (distHash own p.peerId) ∉ order)
    (hnodup : (result.map Peer.peerId).Nodup) (hle : result.length ≤ n) :
    ((order.foldl (appendNearest buckets target n) result).map Peer.peerId).Nodup ↔
      VisitsOverwriteOnce buckets target order (n - result.length) := by
  induction order generalizing result with
  | nil => simpa [VisitsOverwriteOnce] using hnodup
  | cons i order ih =>
      obtain ⟨hi, hrest⟩ := List.nodup_cons.mp horder
      have hfound : ∀ p ∈ findNearest (buckets.get i) target (n - result.length),
          getBucketIndex (distHash own p.peerId) = i := fun p hp =>
        hplaced.index i p (findNearest_subset _ _ _ p hp)
      have hboth : ((appendNearest buckets target n result i).map Peer.peerId).Nodup ↔
          OverwritesOnce target (n - result.length) (buckets.get i).peers := by
        rw [← findNearest_nodup_iff (hplaced.nodup i), appendNearest, List.map_append,
          List.nodup_append]
        refine ⟨fun h => h.2.1, fun h => ⟨hnodup, h, ?_⟩⟩
        rintro id hid id' hid' rfl
        obtain ⟨p, hp, rfl⟩ := List.mem_map.mp hid
        obtain ⟨p', hp', heq⟩ := List.mem_map.mp hid'
        have hindex := hresult p hp
        rw [← heq, hfound p' hp'] at hindex
        exact hindex List.mem_cons_self
      have hfree : n - (appendNearest buckets target n result i).length =
          n - result.length - (buckets.get i).peers.length := by
        rw [appendNearest_length]
        omega
      rw [List.foldl_cons, VisitsOverwriteOnce, ← hboth, ← hfree]
      have hseen : ∀ p ∈ appendNearest buckets target n result i,
          getBucketIndex (distHash own p.peerId) ∉ order := by
        intro p hp
        rcases List.mem_append.mp hp with hp | hp
        · exact fun hmem => hresult p hp (List.mem_cons_of_mem i hmem)
        · rwa [hfound p hp]
      have hle' : (appendNearest buckets target n result i).length ≤ n := by
        rw [appendNearest_length]
        omega
      constructor
      · intro h
        have hfirst := h.sublist ((prefix_foldl_appendNearest order _).sublist.map Peer.peerId)
        exact ⟨hfirst, (ih hrest _ hseen hfirst hle').mp h⟩
      · rintro ⟨hfirst, h⟩
        exact (ih hrest _ hseen hfirst hle').mpr h

/-- `find_closest_peers` names a peer twice exactly when some visit overwrites
two slots. -/
theorem closestPeers_nodup_iff {own : Option HashID} (h : Reachable own buckets)
    (target : HashID) (n : ℕ) :
    ((closestPeers own buckets target n).map Peer.peerId).Nodup ↔
      ∀ ownId, own = some ownId → target ≠ ownId →
        VisitsOverwriteOnce buckets target
          (visitOrder (getBucketIndex (distHash ownId target))) n := by
  cases own with
  | none => simp [closestPeers]
  | some ownId =>
      have hfold := foldl_appendNearest_nodup_iff target n h.wellPlaced
        (nodup_visitOrder (getBucketIndex (distHash ownId target))) []
        (by simp) (by simp) (Nat.zero_le n)
      by_cases htarget : target = ownId
      · simp [closestPeers, htarget]
      · rw [closestPeers, if_neg htarget, hfold]
        simp [htarget]

end Kademlia.Buckets
