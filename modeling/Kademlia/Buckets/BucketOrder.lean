import Kademlia.Buckets.Closest
import Kademlia.Foundations.XorOrder

/-!
The buckets in the order of their distance to a target.

The index of a peer is the place of the highest bit in which its id differs
from the own one. So of two buckets the one with the smaller index is nearer to
a target if the target differs from the own id in that bit, and farther if not.
-/

namespace Kademlia.Buckets

open Foundations Model

/-- Bit `i` of a distance, counted from the highest. -/
def bitOf (distance : HashID) (i : ℕ) : Bool := (bigEndian distance.toList).testBit (255 - i)

theorem pow_256 (n : ℕ) : 256 ^ n = 2 ^ (8 * n) := by
  rw [show 256 = 2 ^ 8 by rfl, ← Nat.pow_mul]

theorem bigEndian_zipWith_xor {l l' : List UInt8} (hlen : l.length = l'.length) :
    bigEndian (List.zipWith (· ^^^ ·) l l') = bigEndian l ^^^ bigEndian l' := by
  induction l generalizing l' with
  | nil =>
      rw [List.eq_nil_of_length_eq_zero hlen.symm]
      rfl
  | cons a l ih =>
      obtain ⟨b, l', rfl⟩ := List.exists_cons_of_length_eq_add_one hlen.symm
      have htail : l.length = l'.length := by simpa using hlen
      have hr := bigEndian_lt l
      have hs := bigEndian_lt l'
      rw [pow_256] at hr hs
      rw [← htail] at hs
      rw [List.zipWith_cons_cons, bigEndian, bigEndian, bigEndian, List.length_zipWith, ← htail,
        Nat.min_self, ih htail, pow_256, UInt8.toNat_xor, Nat.mul_comm _ (2 ^ _),
        Nat.mul_comm a.toNat, Nat.mul_comm b.toNat, xor_mul_add hr hs]

theorem bigEndian_distHash (a b : HashID) :
    bigEndian (distHash a b).toList = bigEndian a.toList ^^^ bigEndian b.toList := by
  rw [toList_distHash, bigEndian_zipWith_xor (by simp)]

/-! ### The index of a bucket -/

theorem firstBit_spec : ∀ b : UInt8, ∀ bit ∈ firstBit b,
    2 ^ (7 - bit) ≤ b.toNat ∧ b.toNat < 2 ^ (7 - bit + 1) := by
  decide +kernel

theorem leadingBit_bucketIndexFrom {byte i : ℕ} {l : List UInt8}
    (h : bucketIndexFrom byte l = i) :
    byte * 8 ≤ i ∧ LeadingBit (bigEndian l) (8 * l.length - 1 - (i - byte * 8)) := by
  induction l generalizing byte with
  | nil =>
      rw [bucketIndexFrom] at h
      omega
  | cons b l ih =>
      by_cases hb : b = 0
      · subst hb
        rw [bucketIndexFrom_zero] at h
        obtain ⟨hle, hleading⟩ := ih h
        refine ⟨by omega, ?_⟩
        have hzero : bigEndian (0 :: l) = bigEndian l := by simp [bigEndian]
        have hexp : 8 * (0 :: l).length - 1 - (i - byte * 8) =
            8 * l.length - 1 - (i - (byte + 1) * 8) := by
          rw [List.length_cons]
          omega
        rw [hzero, hexp]
        exact hleading
      · rw [bucketIndexFrom] at h
        cases hbit : firstBit b with
        | none => exact absurd ((firstBit_eq_none_iff b).mp hbit) hb
        | some bit =>
            rw [hbit] at h
            obtain ⟨hge, hlt⟩ := firstBit_spec b bit hbit
            have hbit8 := firstBit_lt hbit
            have hrest := bigEndian_lt l
            rw [pow_256] at hrest
            have hindex : i = byte * 8 + bit := by
              dsimp only at h
              omega
            have hexp : 8 * (b :: l).length - 1 - (i - byte * 8) = 7 - bit + 8 * l.length := by
              rw [List.length_cons]
              omega
            refine ⟨by omega, ?_⟩
            rw [hexp, LeadingBit, bigEndian, pow_256, Nat.add_right_comm (7 - bit)]
            generalize 8 * l.length = rest at hrest
            rw [Nat.pow_add, Nat.pow_add 2 (7 - bit + 1)]
            constructor
            · exact (Nat.mul_le_mul_right _ hge).trans (Nat.le_add_right _ _)
            · calc b.toNat * 2 ^ rest + bigEndian l
                  < b.toNat * 2 ^ rest + 2 ^ rest := Nat.add_lt_add_left hrest _
                _ = (b.toNat + 1) * 2 ^ rest := (Nat.succ_mul _ _).symm
                _ ≤ 2 ^ (7 - bit + 1) * 2 ^ rest := Nat.mul_le_mul_right _ hlt

theorem leadingBit_of_index {a b : HashID} {i : ℕ} (h : getBucketIndex (distHash a b) = i) :
    LeadingBit (bigEndian a.toList ^^^ bigEndian b.toList) (255 - i) := by
  have hfrom : bucketIndexFrom 0 (distHash a b).toList = i := h
  have hleading := (leadingBit_bucketIndexFrom hfrom).2
  rw [bigEndian_distHash, List.Vector.toList_length] at hleading
  simpa using hleading

/-! ### Nearer and farther buckets -/

theorem distance_eq_xor (target id : HashID) :
    distance target id = bigEndian id.toList ^^^ bigEndian target.toList :=
  bigEndian_distHash id target

section Order

variable {own target : HashID} {i j : ℕ}

/-- The bit of the smaller index decides which bucket is nearer. -/
theorem distance_lt_iff {p q : HashID} (hp : getBucketIndex (distHash own p) = i)
    (hq : getBucketIndex (distHash own q) = j) (hij : i < j) (hj : j < 256) :
    distance target p < distance target q ↔ bitOf (distHash own target) i = true := by
  have hqlt := (leadingBit_of_index hq).2.trans_le
    (Nat.pow_le_pow_right (show 0 < 2 by decide) (show 255 - j + 1 ≤ 255 - i by omega))
  rw [distance_eq_xor, distance_eq_xor, bitOf, bigEndian_distHash]
  exact nearer_iff (leadingBit_of_index hp) hqlt

theorem distance_ne {p q : HashID} (hp : getBucketIndex (distHash own p) = i)
    (hq : getBucketIndex (distHash own q) = j) (hij : i < j) :
    distance target p ≠ distance target q := by
  intro heq
  rw [distance_injective target heq, hq] at hp
  omega

theorem bitOf_of_lt {b : ℕ} (hb : getBucketIndex (distHash own target) = b) (hi : i < b)
    (hb' : b < 256) : bitOf (distHash own target) i = false := by
  rw [bitOf, bigEndian_distHash]
  exact (leadingBit_of_index hb).testBit_of_lt (by omega)

theorem bitOf_index (hb : getBucketIndex (distHash own target) = i) :
    bitOf (distHash own target) i = true := by
  rw [bitOf, bigEndian_distHash]
  exact (leadingBit_of_index hb).testBit

/-- Of two buckets the one with the smaller index is farther away, if it lies in front of the
target. -/
theorem distance_lt_of_index_lt {q r : HashID} {k b : ℕ}
    (hr : getBucketIndex (distHash own r) = k) (hq : getBucketIndex (distHash own q) = j)
    (hb : getBucketIndex (distHash own target) = b) (hkj : k < j) (hkb : k < b) (hj : j < 256)
    (hb' : b < 256) : distance target q < distance target r := by
  have hclear := bitOf_of_lt hb hkb hb'
  have hnot : ¬ distance target r < distance target q := by
    rw [distance_lt_iff hr hq hkj hj, hclear]
    exact Bool.false_ne_true
  exact lt_of_le_of_ne (not_lt.mp hnot) (distance_ne hr hq hkj).symm

end Order

/-! ### The order in which the buckets come -/

/-- `b(x)`: the index of the bucket for `x`. -/
def bucketOf (own x : HashID) : ℤ := getBucketIndex (distHash own x)

/-- `compare_hashes` finds `p` strictly closer to the target than `q`. -/
def Closer (target p q : HashID) : Prop :=
  compareHashes (distHash p target) (distHash q target) < 0

theorem closer_iff {target p q : HashID} :
    Closer target p q ↔ distance target p < distance target q :=
  compareHashes_lt_zero_iff target p q

theorem exists_bucketOf {own x : HashID} (h : x ≠ own) :
    ∃ i : ℕ, i < 256 ∧ getBucketIndex (distHash own x) = i := by
  have hrange := getBucketIndex_range (distHash own x)
  have hne : getBucketIndex (distHash own x) ≠ -1 :=
    fun heq => h (getBucketIndex_eq_neg_one_iff.mp heq).symm
  exact ⟨(getBucketIndex (distHash own x)).toNat, by omega, by omega⟩

/-- The bucket of the target comes first, then those behind it, and then those in front of it
from the target on. -/
theorem bucket_order {own target p q r : HashID} (htarget : target ≠ own) (hp : p ≠ own)
    (hq : q ≠ own) (hr : r ≠ own) :
    (bucketOf own p = bucketOf own target → bucketOf own q ≠ bucketOf own target →
        Closer target p q) ∧
      (bucketOf own target < bucketOf own q → bucketOf own r < bucketOf own target →
        Closer target q r) ∧
      (bucketOf own r < bucketOf own q → bucketOf own q < bucketOf own target →
        Closer target q r) := by
  obtain ⟨b, hb256, hb⟩ := exists_bucketOf htarget
  obtain ⟨i, hi256, hi⟩ := exists_bucketOf hp
  obtain ⟨j, hj256, hj⟩ := exists_bucketOf hq
  obtain ⟨k, hk256, hk⟩ := exists_bucketOf hr
  simp only [bucketOf, hb, hi, hj, hk, closer_iff, Nat.cast_inj, Nat.cast_lt, ne_eq]
  refine ⟨?_, ?_, ?_⟩
  · rintro rfl hne
    rcases Nat.lt_or_gt_of_ne hne with hlt | hgt
    · exact distance_lt_of_index_lt hj hi hb hlt hlt hi256 hb256
    · exact (distance_lt_iff hi hj hgt hj256).mpr (bitOf_index hb)
  · intro hbj hkb
    exact distance_lt_of_index_lt hk hj hb (hkb.trans hbj) hkb hj256 hb256
  · intro hkj hjb
    exact distance_lt_of_index_lt hk hj hb hkj (hkj.trans hjb) hj256 hb256

/-- The target in bucket 1, `p` with it, `q` behind it and `r` in front of it. -/
theorem bucket_order_sparseID :
    Closer (sparseID 64 0) (sparseID 64 1) (sparseID 32 0) ∧
      Closer (sparseID 64 0) (sparseID 32 0) (sparseID 128 0) :=
  have horder := bucket_order (show sparseID 64 0 ≠ sparseID 0 0 by decide)
    (show sparseID 64 1 ≠ sparseID 0 0 by decide) (show sparseID 32 0 ≠ sparseID 0 0 by decide)
    (show sparseID 128 0 ≠ sparseID 0 0 by decide)
  ⟨horder.1 (by decide) (by decide), horder.2.1 (by decide) (by decide)⟩

end Kademlia.Buckets
