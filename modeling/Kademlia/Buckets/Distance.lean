import Kademlia.Model.Buckets

/-!
The XOR distance as a number.

`memcmp` and `compare_hashes` order distances byte by byte, the first byte
first, which is the order of the numbers the bytes spell out.
-/

namespace Kademlia.Buckets

open Model

/-- The number that the bytes spell, the first byte being the highest. -/
def bigEndian : List UInt8 → ℕ
  | [] => 0
  | b :: bs => b.toNat * 256 ^ bs.length + bigEndian bs

theorem bigEndian_lt (bytes : List UInt8) : bigEndian bytes < 256 ^ bytes.length := by
  induction bytes with
  | nil => exact Nat.one_pos
  | cons b bs ih =>
      have hb : b.toNat + 1 ≤ 256 := b.toNat_lt
      calc bigEndian (b :: bs)
          < b.toNat * 256 ^ bs.length + 256 ^ bs.length := Nat.add_lt_add_left ih _
        _ = (b.toNat + 1) * 256 ^ bs.length := by ring
        _ ≤ 256 * 256 ^ bs.length := Nat.mul_le_mul_right _ hb
        _ = 256 ^ (b :: bs).length := by rw [List.length_cons, Nat.pow_succ, Nat.mul_comm]

theorem bigEndian_lt_of_head_lt {a b : UInt8} {l l' : List UInt8} (hlen : l.length = l'.length)
    (h : a < b) : bigEndian (a :: l) < bigEndian (b :: l') := by
  have hab : a.toNat + 1 ≤ b.toNat := UInt8.lt_iff_toNat_lt.mp h
  calc bigEndian (a :: l)
      < a.toNat * 256 ^ l.length + 256 ^ l.length := Nat.add_lt_add_left (bigEndian_lt l) _
    _ = (a.toNat + 1) * 256 ^ l.length := by ring
    _ ≤ b.toNat * 256 ^ l.length := Nat.mul_le_mul_right _ hab
    _ ≤ bigEndian (b :: l') := by rw [bigEndian, hlen]; exact Nat.le_add_right _ _

theorem byte_trichotomy (a b : UInt8) : a < b ∨ a = b ∨ b < a := by
  rcases Nat.lt_trichotomy a.toNat b.toNat with hlt | heq | hgt
  · exact Or.inl (UInt8.lt_iff_toNat_lt.mpr hlt)
  · exact Or.inr (Or.inl (UInt8.toNat_inj.mp heq))
  · exact Or.inr (Or.inr (UInt8.lt_iff_toNat_lt.mpr hgt))

theorem compareBytes_spec {l l' : List UInt8} (hlen : l.length = l'.length) :
    (compareBytes l l' < 0 ↔ bigEndian l < bigEndian l') ∧
      (0 < compareBytes l l' ↔ bigEndian l' < bigEndian l) := by
  induction l generalizing l' with
  | nil =>
      rw [List.eq_nil_of_length_eq_zero hlen.symm]
      simp [compareBytes]
  | cons a l ih =>
      obtain ⟨b, l', rfl⟩ := List.exists_cons_of_length_eq_add_one hlen.symm
      have htail : l.length = l'.length := by simpa using hlen
      rcases byte_trichotomy a b with hlt | rfl | hgt
      · have hnum := bigEndian_lt_of_head_lt htail hlt
        simp [compareBytes, hlt, hnum, hnum.le]
      · simpa [compareBytes, bigEndian, htail] using ih htail
      · have hnum := bigEndian_lt_of_head_lt htail.symm hgt
        have hnot : ¬ a < b := by
          rw [UInt8.lt_iff_toNat_lt] at hgt ⊢
          omega
        simp [compareBytes, hgt, hnot, hnum, hnum.le]

theorem compareBytes_cases (l l' : List UInt8) :
    compareBytes l l' = -1 ∨ compareBytes l l' = 0 ∨ compareBytes l l' = 1 := by
  induction l generalizing l' with
  | nil => exact Or.inr (Or.inl rfl)
  | cons a l ih =>
      cases l' with
      | nil => exact Or.inr (Or.inl rfl)
      | cons b l' =>
          rw [compareBytes]
          split_ifs
          · exact Or.inl rfl
          · exact Or.inr (Or.inr rfl)
          · exact ih l'

theorem bigEndian_injective {l l' : List UInt8} (hlen : l.length = l'.length)
    (h : bigEndian l = bigEndian l') : l = l' := by
  induction l generalizing l' with
  | nil => rw [List.eq_nil_of_length_eq_zero hlen.symm]
  | cons a l ih =>
      obtain ⟨b, l', rfl⟩ := List.exists_cons_of_length_eq_add_one hlen.symm
      have htail : l.length = l'.length := by simpa using hlen
      rcases byte_trichotomy a b with hlt | rfl | hgt
      · exact absurd h (bigEndian_lt_of_head_lt htail hlt).ne
      · rw [bigEndian, bigEndian, htail, Nat.add_left_cancel_iff] at h
        rw [ih htail h]
      · exact absurd h (bigEndian_lt_of_head_lt htail.symm hgt).ne'

def distance (target id : HashID) : ℕ := bigEndian (distHash id target).toList

theorem compareHashes_lt_zero_iff (target id id' : HashID) :
    compareHashes (distHash id target) (distHash id' target) < 0 ↔
      distance target id < distance target id' :=
  (compareBytes_spec (by rw [List.Vector.toList_length, List.Vector.toList_length])).1

theorem compareHashes_eq_neg_one_iff (target id id' : HashID) :
    compareHashes (distHash id target) (distHash id' target) = -1 ↔
      distance target id < distance target id' := by
  rw [← compareHashes_lt_zero_iff, compareHashes]
  have hcases := compareBytes_cases (distHash id target).toList (distHash id' target).toList
  omega

theorem compareHashes_gt_zero_iff (target id id' : HashID) :
    compareHashes (distHash id target) (distHash id' target) > 0 ↔
      distance target id' < distance target id :=
  (compareBytes_spec (by rw [List.Vector.toList_length, List.Vector.toList_length])).2

end Kademlia.Buckets
