import Kademlia.Model.Wire

/-!
`list.c` and `bucket.c`: distances between ids and the k-bucket table.

A bucket is kept as its nodes from head to tail together with the `size` field
of the list. Every use of `Buckets[i]` is recorded, since an index outside the
table reaches other variables: what follows such a use is not the program's, and
`Defined` says of a run that it has none. `get_own_id` may fail, so the own id is
an `Option`.
-/

namespace Kademlia.Model

open Foundations Traced

def bucketSize : ℕ := kValue

def bucketCount : ℕ := 8

/-- `struct DList`, without the links. -/
structure DList where
  size : ℕ
  peers : List Peer
  deriving DecidableEq

def DList.empty : DList := ⟨0, []⟩

abbrev Buckets := Fin bucketCount → DList

def Buckets.empty : Buckets := fun _ => DList.empty

/-! ### Distances -/

def distHash (id1 id2 : HashID) : HashID := List.Vector.zipWith (· ^^^ ·) id1 id2

def compareBytes : List UInt8 → List UInt8 → ℤ
  | a :: l, b :: l' => if a < b then -1 else if b < a then 1 else compareBytes l l'
  | _, _ => 0

def compareHashes (dist1 dist2 : HashID) : ℤ := compareBytes dist1.toList dist2.toList

/-! ### Lists -/

def addFront (list : DList) (peer : Peer) : DList :=
  if list.peers.isEmpty then ⟨1, [peer]⟩ else ⟨list.size + 1, peer :: list.peers⟩

def findPeerById (list : DList) (id : HashID) : Option Peer :=
  list.peers.find? fun peer => peer.peerId = id

/-- One node of the loop of `find_nearest`: `slots` pairs `neighbors_dist[i]`
with `out_peers[i]` for `i < n`. -/
def nearestStep (id : HashID) (maxNeighbors : ℕ) (slots : List (HashID × Peer))
    (current : Peer) : List (HashID × Peer) :=
  let currentDist := distHash current.peerId id
  if slots.length < maxNeighbors then slots ++ [(currentDist, current)]
  -- the loop over the slots does not stop at the first one it overwrites
  else slots.map fun slot =>
    if compareHashes slot.1 currentDist > 0 then (currentDist, current) else slot

/-- `out_peers[0..n)` after `find_nearest`. -/
def findNearest (list : DList) (id : HashID) (maxNeighbors : ℕ) : List Peer :=
  if list.peers.isEmpty || maxNeighbors == 0 then []
  else (list.peers.foldl (nearestStep id maxNeighbors) []).map Prod.snd

/-! ### Buckets -/

/-- The inner loop of `get_bucket_index`: the first bit set in a byte. -/
def firstBit (byteValue : UInt8) : Option ℕ :=
  (List.range 8).find? fun bit => byteValue &&& (0x80 >>> UInt8.ofNat bit) ≠ 0

def bucketIndexFrom : ℕ → List UInt8 → ℤ
  | _, [] => -1
  | byte, byteValue :: rest =>
      match firstBit byteValue with
      | some bit => byte * 8 + bit
      | none => bucketIndexFrom (byte + 1) rest

def getBucketIndex (distance : HashID) : ℤ := bucketIndexFrom 0 distance.toList

/-- The bucket behind `buckets[i]`, for an index in the table. -/
def Buckets.get (buckets : Buckets) (i : ℤ) : DList :=
  if h : 0 ≤ i ∧ i < bucketCount then buckets ⟨i.toNat, by omega⟩ else DList.empty

def Buckets.set (buckets : Buckets) (i : ℤ) (list : DList) : Buckets :=
  if h : 0 ≤ i ∧ i < bucketCount then
    Function.update buckets ⟨i.toNat, by omega⟩ list
  else buckets

def bucketAt (buckets : Buckets) (i : ℤ) : Traced Field DList := do
  touch .buckets i
  pure (buckets.get i)

/-- Append the nearest peers of `buckets[i]` to the first `result.length`
slots of a result array of `n` slots. -/
def takeNearest (buckets : Buckets) (target : HashID) (n : ℕ) (i : ℤ) (result : List Peer) :
    Traced Field (List Peer) := do
  let list ← bucketAt buckets i
  pure (result ++ findNearest list target (n - result.length))

/-- The widening loop of `find_closest_peers`. -/
def widen (buckets : Buckets) (target : HashID) (n : ℕ) (bucketIndex : ℤ) :
    ℕ → ℕ → List Peer → Traced Field (List Peer)
  | 0, _, result => pure result
  | fuel + 1, offset, result =>
      if result.length < n ∧
          (bucketIndex - offset ≥ 0 ∨ bucketIndex + offset < bucketCount) then do
        let result ← (if bucketIndex - offset ≥ 0 then
          takeNearest buckets target n (bucketIndex - offset) result else pure result)
        let result ← (if bucketIndex + offset < bucketCount then
          takeNearest buckets target n (bucketIndex + offset) result else pure result)
        widen buckets target n bucketIndex fuel (offset + 1) result
      else pure result

/-- The non-`NULL` entries of the result array, which fill it from the front;
`none` is a `NULL` result. An index is below 256, so the widening loop is over
after 256 rounds. -/
def findClosestPeers (own : Option HashID) (buckets : Buckets) (target : HashID) (n : ℕ) :
    Traced Field (Option (List Peer)) :=
  match own with
  | none => pure none
  | some ownId =>
      let bucketIndex := getBucketIndex (distHash ownId target)
      -- "Why are we looking for ourselves?"
      if bucketIndex = -1 then pure none
      else do
        let result ← takeNearest buckets target n bucketIndex []
        let result ← widen buckets target n bucketIndex 256 1 result
        pure (if result.isEmpty then none else some result)

def updateBucketPeers (own : Option HashID) (bucket : Buckets) (peer : Peer) :
    Traced Field Buckets :=
  match own with
  | none => pure bucket
  | some ownId =>
      let bucketIndex := getBucketIndex (distHash ownId peer.peerId)
      if bucketIndex = -1 then pure bucket
      else do
        let list ← bucketAt bucket bucketIndex
        if (findPeerById list peer.peerId).isSome then pure bucket
        -- the bucket is full
        else if list.size ≥ bucketSize then pure bucket
        else pure (bucket.set bucketIndex (addFront list peer))

/-! ### What is recorded -/

/-- Neither `values[]` nor `closest[]` is used behind its slots. -/
def InSlots {α : Type} (x : Traced Field α) : Prop :=
  x.Stays .values kValue ∧ x.Stays .closest kValue

/-- No array is indexed outside its bounds, so that C defines what the run does
and what it returns. -/
structure Defined {α : Type} (x : Traced Field α) : Prop where
  buckets : x.Stays .buckets bucketCount
  slots : InSlots x

section Slots

variable {α β γ : Type}

@[simp] theorem inSlots_pure (a : α) : InSlots (pure a : Traced Field α) :=
  ⟨stays_pure _ _ _, stays_pure _ _ _⟩

theorem inSlots_bind {x : Traced Field α} {f : α → Traced Field β} :
    InSlots (x >>= f) ↔ InSlots x ∧ InSlots (f x.val) := by
  simp only [InSlots, stays_bind]
  exact and_and_and_comm

theorem inSlots_touch {field : Field} {i : ℤ}
    (h : field = .values ∨ field = .closest → 0 ≤ i ∧ i < kValue) : InSlots (touch field i) :=
  ⟨stays_touch.mpr fun heq => h (Or.inl heq), stays_touch.mpr fun heq => h (Or.inr heq)⟩

theorem inSlots_foldlM {f : β → γ → Traced Field β} {xs : List γ}
    (h : ∀ s, ∀ x ∈ xs, InSlots (f s x)) (s : β) : InSlots (xs.foldlM f s) :=
  ⟨stays_foldlM (fun s x hx => (h s x hx).1) s, stays_foldlM (fun s x hx => (h s x hx).2) s⟩

theorem Defined.of_log_nil {x : Traced Field α} (h : x.log = []) : Defined x := by
  constructor <;> simp [InSlots, Stays, h]

@[simp] theorem defined_pure (a : α) : Defined (pure a : Traced Field α) := .of_log_nil rfl

@[simp] theorem defined_bind {x : Traced Field α} {f : α → Traced Field β} :
    Defined (x >>= f) ↔ Defined x ∧ Defined (f x.val) := by
  constructor
  · rintro ⟨hbuckets, hslots⟩
    obtain ⟨hx, hf⟩ := stays_bind.mp hbuckets
    obtain ⟨hx', hf'⟩ := inSlots_bind.mp hslots
    exact ⟨⟨hx, hx'⟩, ⟨hf, hf'⟩⟩
  · rintro ⟨hx, hf⟩
    exact ⟨stays_bind.mpr ⟨hx.buckets, hf.buckets⟩, inSlots_bind.mpr ⟨hx.slots, hf.slots⟩⟩

/-- A loop is defined exactly when each iteration is in the state that the earlier
ones leave. -/
theorem defined_foldlM_iff {f : β → γ → Traced Field β} {xs : List γ} {s : β} :
    Defined (xs.foldlM f s) ↔ ∀ before x after, xs = before ++ x :: after →
      Defined (f (before.foldl (fun s y => (f s y).val) s) x) := by
  constructor
  · rintro ⟨hbuckets, hvalues, hclosest⟩ before x after hxs
    exact ⟨stays_foldlM_iff.mp hbuckets before x after hxs,
      stays_foldlM_iff.mp hvalues before x after hxs,
      stays_foldlM_iff.mp hclosest before x after hxs⟩
  · intro h
    exact ⟨stays_foldlM_iff.mpr fun before x after hxs => (h before x after hxs).buckets,
      stays_foldlM_iff.mpr fun before x after hxs => (h before x after hxs).slots.1,
      stays_foldlM_iff.mpr fun before x after hxs => (h before x after hxs).slots.2⟩

theorem defined_foldlM {f : β → γ → Traced Field β} {xs : List γ} (holds : γ → Prop)
    (h : ∀ s, ∀ x ∈ xs, Defined (f s x) ↔ holds x) (s : β) :
    Defined (xs.foldlM f s) ↔ ∀ x ∈ xs, holds x := by
  rw [defined_foldlM_iff]
  constructor
  · intro hdefined x hx
    obtain ⟨before, after, hxs⟩ := List.append_of_mem hx
    exact (h _ x hx).mp (hdefined before x after hxs)
  · intro hholds before x after hxs
    have hx : x ∈ xs := by
      rw [hxs]
      simp
    exact (h _ x hx).mpr (hholds x hx)

theorem defined_touch {array : Field} {index : ℤ} (hbuckets : array ≠ .buckets)
    (hwithin : array = .values ∨ array = .closest → 0 ≤ index ∧ index < kValue) :
    Defined (touch array index) :=
  ⟨stays_touch.mpr fun h => absurd h hbuckets, inSlots_touch hwithin⟩

end Slots

/-- The widening loop visits indexes on both sides of the first one, and of
these only such as pass its own checks. -/
theorem widen_stays_of {buckets : Buckets} {target : HashID} {n : ℕ} {bucketIndex : ℤ}
    {array : Field} {size : ℕ} (fuel offset : ℕ) (result : List Peer)
    (h : ∀ (i : ℤ) result, 0 ≤ i ∧ i ≤ bucketIndex ∨ bucketIndex ≤ i ∧ i < bucketCount →
      (takeNearest buckets target n i result).Stays array size) :
    (widen buckets target n bucketIndex fuel offset result).Stays array size := by
  induction fuel generalizing offset result with
  | zero => exact stays_pure _ _ _
  | succ fuel ih =>
      unfold widen
      split
      · simp only [stays_bind]
        refine ⟨?_, ?_, ih _ _⟩
        · split
          · exact h _ _ (Or.inl (by omega))
          · exact stays_pure _ _ _
        · split
          · exact h _ _ (Or.inr (by omega))
          · exact stays_pure _ _ _
      · exact stays_pure _ _ _

section Record

variable {array : Field} {size : ℕ} (h : array ≠ .buckets) (own : Option HashID)
  (buckets : Buckets) (target : HashID) (n : ℕ)
include h

theorem takeNearest_stays_of_ne (i : ℤ) (result : List Peer) :
    (takeNearest buckets target n i result).Stays array size := by
  simp [takeNearest, bucketAt, h.symm]

theorem findClosestPeers_stays_of_ne :
    (findClosestPeers own buckets target n).Stays array size := by
  unfold findClosestPeers
  split
  · exact stays_pure _ _ _
  · dsimp only
    split
    · exact stays_pure _ _ _
    · simp only [stays_bind, stays_pure, and_true]
      exact ⟨takeNearest_stays_of_ne h buckets target n _ _,
        widen_stays_of _ _ _ fun i result _ =>
          takeNearest_stays_of_ne h buckets target n i result⟩

theorem updateBucketPeers_stays_of_ne (peer : Peer) :
    (updateBucketPeers own buckets peer).Stays array size := by
  unfold updateBucketPeers
  split
  · exact stays_pure _ _ _
  · dsimp only
    split
    · exact stays_pure _ _ _
    · simp only [stays_bind]
      refine ⟨by simp [bucketAt, h.symm], ?_⟩
      split
      · exact stays_pure _ _ _
      · split <;> exact stays_pure _ _ _

end Record

theorem inSlots_findClosestPeers (own : Option HashID) (buckets : Buckets) (target : HashID)
    (n : ℕ) : InSlots (findClosestPeers own buckets target n) :=
  ⟨findClosestPeers_stays_of_ne (by decide) own buckets target n,
    findClosestPeers_stays_of_ne (by decide) own buckets target n⟩

theorem inSlots_updateBucketPeers (own : Option HashID) (buckets : Buckets) (peer : Peer) :
    InSlots (updateBucketPeers own buckets peer) :=
  ⟨updateBucketPeers_stays_of_ne (by decide) own buckets peer,
    updateBucketPeers_stays_of_ne (by decide) own buckets peer⟩

end Kademlia.Model
