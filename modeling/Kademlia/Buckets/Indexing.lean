import Kademlia.Model.Buckets

/-!
The indexes used into the k-bucket table.

The index of a peer is the position of the first bit in which its id differs
from the own one, of 256, while the table has eight buckets. The index lies in
the table exactly when that bit is in the first byte; the widening loop adds
no index outside the table of its own.
-/

namespace Kademlia.Buckets

open Foundations Foundations.Traced Model

/-! ### The bit scan -/

theorem firstBit_eq_none_iff : ∀ b : UInt8, firstBit b = none ↔ b = 0 := by
  decide +kernel

theorem firstBit_lt {b : UInt8} {bit : ℕ} (h : firstBit b = some bit) : bit < 8 :=
  List.mem_range.mp (List.mem_of_find?_eq_some h)

theorem bucketIndexFrom_zero (byte : ℕ) (rest : List UInt8) :
    bucketIndexFrom byte (0 :: rest) = bucketIndexFrom (byte + 1) rest := by
  rw [bucketIndexFrom, (firstBit_eq_none_iff 0).mpr rfl]

theorem bucketIndexFrom_of_ne_zero {b : UInt8} (hb : b ≠ 0) (byte : ℕ) (rest : List UInt8) :
    (byte * 8 : ℤ) ≤ bucketIndexFrom byte (b :: rest) ∧
      bucketIndexFrom byte (b :: rest) < byte * 8 + 8 := by
  rw [bucketIndexFrom]
  cases hbit : firstBit b with
  | none => exact absurd ((firstBit_eq_none_iff b).mp hbit) hb
  | some bit =>
      have hlt := firstBit_lt hbit
      dsimp only
      omega

/-- The scan finds a bit in the bytes it was given, or there is none. -/
theorem bucketIndexFrom_range (byte : ℕ) (l : List UInt8) :
    bucketIndexFrom byte l = -1 ∨
      (byte * 8 : ℤ) ≤ bucketIndexFrom byte l ∧
        bucketIndexFrom byte l < (byte + l.length) * 8 := by
  induction l generalizing byte with
  | nil => exact Or.inl rfl
  | cons b l ih =>
      by_cases hb : b = 0
      · subst hb
        rw [bucketIndexFrom_zero]
        have hrest := ih (byte + 1)
        push_cast at hrest
        rw [List.length_cons]
        push_cast
        omega
      · obtain ⟨hge, hlt⟩ := bucketIndexFrom_of_ne_zero hb byte l
        rw [List.length_cons]
        push_cast
        omega

theorem bucketIndexFrom_eq_neg_one_iff {byte : ℕ} {l : List UInt8} :
    bucketIndexFrom byte l = -1 ↔ ∀ b ∈ l, b = 0 := by
  induction l generalizing byte with
  | nil => simp [bucketIndexFrom]
  | cons b l ih =>
      by_cases hb : b = 0
      · subst hb
        rw [bucketIndexFrom_zero, ih]
        simp
      · obtain ⟨hge, -⟩ := bucketIndexFrom_of_ne_zero hb byte l
        constructor
        · intro h
          omega
        · intro h
          exact absurd (h b (by simp)) hb

/-! ### Distances -/

theorem toList_distHash (a b : HashID) :
    (distHash a b).toList = List.zipWith (· ^^^ ·) a.toList b.toList := by
  simp [distHash]

theorem zipWith_xor_eq_zero_iff {l l' : List UInt8} (h : l.length = l'.length) :
    (∀ x ∈ List.zipWith (· ^^^ ·) l l', x = 0) ↔ l = l' := by
  induction l generalizing l' with
  | nil => cases l' <;> simp_all
  | cons a l ih =>
      cases l' with
      | nil => simp at h
      | cons b l' =>
          rw [List.zipWith_cons_cons, List.forall_mem_cons, ih (by simpa using h),
            UInt8.xor_eq_zero_iff, List.cons.injEq]

theorem getBucketIndex_eq_neg_one_iff {a b : HashID} :
    getBucketIndex (distHash a b) = -1 ↔ a = b := by
  rw [getBucketIndex, bucketIndexFrom_eq_neg_one_iff, toList_distHash,
    zipWith_xor_eq_zero_iff (by simp)]
  exact ⟨fun h => List.Vector.toList_injective h, fun h => by rw [h]⟩

theorem getBucketIndex_range (d : HashID) :
    getBucketIndex d = -1 ∨ 0 ≤ getBucketIndex d ∧ getBucketIndex d < 256 := by
  have hrange := bucketIndexFrom_range 0 d.toList
  rw [List.Vector.toList_length] at hrange
  simpa [getBucketIndex] using hrange

/-- The index lies in the table exactly when the ids differ in their first
byte. -/
theorem getBucketIndex_in_table_iff {a b : HashID} :
    (0 ≤ getBucketIndex (distHash a b) ∧ getBucketIndex (distHash a b) < bucketCount) ↔
      a.head ≠ b.head := by
  obtain ⟨x, l, rfl⟩ := List.Vector.exists_eq_cons a
  obtain ⟨y, l', rfl⟩ := List.Vector.exists_eq_cons b
  rw [getBucketIndex, toList_distHash, List.Vector.toList_cons, List.Vector.toList_cons,
    List.zipWith_cons_cons, List.Vector.head_cons, List.Vector.head_cons, bucketCount]
  by_cases hxy : x = y
  · subst hxy
    rw [UInt8.xor_self, bucketIndexFrom_zero]
    -- the bits behind the first byte have index 8 or more
    have hrange := bucketIndexFrom_range (0 + 1) (List.zipWith (· ^^^ ·) l.toList l'.toList)
    simp only [ne_eq, not_true_eq_false, iff_false]
    push_cast at hrange ⊢
    omega
  · have hne : x ^^^ y ≠ 0 := fun h => hxy (UInt8.xor_eq_zero_iff.mp h)
    obtain ⟨hge, hlt⟩ :=
      bucketIndexFrom_of_ne_zero hne 0 (List.zipWith (· ^^^ ·) l.toList l'.toList)
    simp only [ne_eq, hxy, not_false_eq_true, iff_true]
    push_cast at hge hlt ⊢
    omega

/-! ### The table -/

theorem takeNearest_stays {buckets : Model.Buckets} {target : HashID} {n : ℕ} {i : ℤ}
    {result : List Peer} :
    (takeNearest buckets target n i result).Stays .buckets bucketCount ↔
      0 ≤ i ∧ i < bucketCount := by
  simp [takeNearest, bucketAt]

theorem widen_stays (buckets : Model.Buckets) (target : HashID) (n : ℕ) {bucketIndex : ℤ}
    (h0 : 0 ≤ bucketIndex) (h : bucketIndex < bucketCount) (fuel offset : ℕ)
    (result : List Peer) :
    (widen buckets target n bucketIndex fuel offset result).Stays .buckets bucketCount := by
  refine widen_stays_of fuel offset result fun i result hi => takeNearest_stays.mpr ?_
  rcases hi with ⟨hpos, hle⟩ | ⟨hge, hlt⟩
  · exact ⟨hpos, hle.trans_lt h⟩
  · exact ⟨h0.trans hge, hlt⟩

theorem widen_add {buckets : Model.Buckets} {target : HashID} {n : ℕ} {bucketIndex : ℤ}
    {fuel offset : ℕ} (hleft : bucketIndex < offset + fuel)
    (hright : bucketCount ≤ bucketIndex + offset + fuel) (result : List Peer) (k : ℕ) :
    widen buckets target n bucketIndex (fuel + k) offset result =
      widen buckets target n bucketIndex fuel offset result := by
  induction fuel generalizing offset result with
  | zero =>
      cases k with
      | zero => rfl
      | succ k =>
          have hover : ¬ (result.length < n ∧
              (bucketIndex - offset ≥ 0 ∨ bucketIndex + offset < bucketCount)) := by omega
          simp only [widen, if_neg hover]
  | succ fuel ih =>
      rw [Nat.succ_add, widen, widen]
      split
      · congr 1
        ext1 left
        congr 1
        ext1 right
        exact ih (by push_cast at hleft; omega) (by push_cast at hright; omega) right
      · rfl

/-- The widening loop from the index of a distance is over after 256 rounds. -/
theorem widen_getBucketIndex (buckets : Model.Buckets) (target : HashID) (n : ℕ)
    (distance : HashID) (result : List Peer) (k : ℕ) :
    widen buckets target n (getBucketIndex distance) (256 + k) 1 result =
      widen buckets target n (getBucketIndex distance) 256 1 result := by
  have hrange := getBucketIndex_range distance
  exact widen_add (by push_cast; omega) (by rw [bucketCount]; push_cast; omega) result k

theorem findClosestPeers_stays_iff {own target : HashID} (h : target ≠ own)
    (buckets : Model.Buckets) (n : ℕ) :
    (findClosestPeers (some own) buckets target n).Stays .buckets bucketCount ↔
      own.head ≠ target.head := by
  have hindex : getBucketIndex (distHash own target) ≠ -1 :=
    fun hneg => h (getBucketIndex_eq_neg_one_iff.mp hneg).symm
  rw [← getBucketIndex_in_table_iff]
  simp only [findClosestPeers, if_neg hindex, stays_bind, stays_pure, and_true,
    takeNearest_stays]
  constructor
  · exact And.left
  · intro hrange
    exact ⟨hrange, widen_stays _ _ _ hrange.1 hrange.2 _ _ _⟩

theorem updateBucketPeers_stays_iff {own : HashID} {peer : Peer} (h : peer.peerId ≠ own)
    (buckets : Model.Buckets) :
    (updateBucketPeers (some own) buckets peer).Stays .buckets bucketCount ↔
      own.head ≠ peer.peerId.head := by
  have hindex : getBucketIndex (distHash own peer.peerId) ≠ -1 :=
    fun hneg => h (getBucketIndex_eq_neg_one_iff.mp hneg).symm
  rw [← getBucketIndex_in_table_iff]
  simp only [updateBucketPeers, if_neg hindex, stays_bind]
  constructor
  · intro hstays
    simpa [bucketAt] using hstays.1
  · intro hrange
    refine ⟨by simpa [bucketAt] using hrange, ?_⟩
    split
    · exact stays_pure _ _ _
    · split <;> exact stays_pure _ _ _

/-! ### Ids that have a place in the table -/

/-- The bucket index of `id` is below `BUCKET_COUNT`, or there is none. -/
def InTable (own : Option HashID) (id : HashID) : Prop :=
  ∀ ownId ∈ own, getBucketIndex (distHash ownId id) < bucketCount

instance (own : Option HashID) (id : HashID) : Decidable (InTable own id) :=
  match own with
  | none => isTrue (by simp [InTable])
  | some ownId => decidable_of_iff (getBucketIndex (distHash ownId id) < bucketCount)
      (by simp [InTable])

@[simp] theorem inTable_none (id : HashID) : InTable none id := by simp [InTable]

theorem inTable_some {own id : HashID} :
    InTable (some own) id ↔ getBucketIndex (distHash own id) < bucketCount := by
  simp [InTable]

theorem inTable_iff {own id : HashID} : InTable (some own) id ↔ id = own ∨ own.head ≠ id.head := by
  rw [inTable_some, ← getBucketIndex_in_table_iff, eq_comm, ← getBucketIndex_eq_neg_one_iff]
  have hcount : bucketCount = 8 := rfl
  rcases getBucketIndex_range (distHash own id) with hindex | hindex <;> omega

theorem findClosestPeers_defined_iff {own : Option HashID} {buckets : Model.Buckets}
    {target : HashID} {n : ℕ} :
    Defined (findClosestPeers own buckets target n) ↔ InTable own target := by
  cases own with
  | none => simp [findClosestPeers]
  | some own =>
      have htable : Defined (findClosestPeers (some own) buckets target n) ↔
          (findClosestPeers (some own) buckets target n).Stays .buckets bucketCount :=
        ⟨Defined.buckets, fun h => ⟨h, inSlots_findClosestPeers _ _ _ _⟩⟩
      rw [inTable_iff, htable]
      by_cases hown : target = own
      · have hindex := getBucketIndex_eq_neg_one_iff.mpr hown.symm
        rw [findClosestPeers, if_pos hindex]
        exact iff_of_true (stays_pure _ _ _) (Or.inl hown)
      · rw [findClosestPeers_stays_iff hown, or_iff_right hown]

theorem updateBucketPeers_defined_iff {own : Option HashID} {buckets : Model.Buckets}
    {peer : Peer} :
    Defined (updateBucketPeers own buckets peer) ↔ InTable own peer.peerId := by
  cases own with
  | none => simp [updateBucketPeers]
  | some own =>
      have htable : Defined (updateBucketPeers (some own) buckets peer) ↔
          (updateBucketPeers (some own) buckets peer).Stays .buckets bucketCount :=
        ⟨Defined.buckets, fun h => ⟨h, inSlots_updateBucketPeers _ _ _⟩⟩
      rw [inTable_iff, htable]
      by_cases hown : peer.peerId = own
      · have hindex := getBucketIndex_eq_neg_one_iff.mpr hown.symm
        rw [updateBucketPeers, if_pos hindex]
        exact iff_of_true (stays_pure _ _ _) (Or.inl hown)
      · rw [updateBucketPeers_stays_iff hown, or_iff_right hown]

/-! ### The two functions of the table -/

/-- Every index `update_bucket_peers` and `find_closest_peers` use into the
table lies in it. -/
def IndexesInTable (own target : HashID) (peer : Peer) (buckets : Model.Buckets) : Prop :=
  (updateBucketPeers (some own) buckets peer).Stays .buckets bucketCount ∧
    ∀ n, (findClosestPeers (some own) buckets target n).Stays .buckets bucketCount

/-- The table is indexed within its bounds exactly when both ids differ from
the own id in their first byte. -/
theorem indexesInTable_iff {own target : HashID} {peer : Peer} (htarget : target ≠ own)
    (hpeer : peer.peerId ≠ own) (buckets : Model.Buckets) :
    IndexesInTable own target peer buckets ↔
      own.head ≠ peer.peerId.head ∧ own.head ≠ target.head := by
  rw [IndexesInTable, updateBucketPeers_stays_iff hpeer]
  simp only [findClosestPeers_stays_iff htarget, forall_const]

/-- The id with first byte `first` and last byte `last`, zero in between. -/
def sparseID (first last : UInt8) : HashID :=
  ⟨first :: List.replicate 30 0 ++ [last], by simp⟩

theorem indexesInTable_iff_sparseID :
    IndexesInTable (sparseID 0 0) (sparseID 1 0) ⟨sparseID 2 0, zeroAddr⟩ Buckets.empty ↔
      (sparseID 0 0).head ≠ (sparseID 2 0).head ∧
        (sparseID 0 0).head ≠ (sparseID 1 0).head :=
  indexesInTable_iff (by decide) (by decide) _

/-- A peer that differs from us in the last bit only has index 255. -/
theorem sparseID_not_indexesInTable :
    ¬ IndexesInTable (sparseID 0 0) (sparseID 0 1) ⟨sparseID 0 1, zeroAddr⟩
      Buckets.empty := by
  rintro ⟨hupdate, -⟩
  have hmem : (⟨.buckets, 255⟩ : Access Field) ∈ (updateBucketPeers (some (sparseID 0 0))
      Buckets.empty ⟨sparseID 0 1, zeroAddr⟩).log := by decide
  exact absurd (hupdate _ hmem rfl).2 (by decide)

end Kademlia.Buckets
