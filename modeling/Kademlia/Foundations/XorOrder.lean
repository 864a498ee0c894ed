import Mathlib.Data.Nat.Bitwise

/-!
Which of two numbers is nearer to a third one in XOR distance.

Seen from `own`, the numbers that first differ from it in the same bit form a
bucket. Whether one bucket is nearer to a target than another is decided by a
single bit, the higher of the two in which the buckets differ from `own`: the
bucket that differs there is nearer exactly if the target does as well.
-/

namespace Kademlia.Foundations

def LeadingBit (x k : ℕ) : Prop := 2 ^ k ≤ x ∧ x < 2 ^ (k + 1)

theorem LeadingBit.testBit {x k : ℕ} (h : LeadingBit x k) : x.testBit k = true :=
  Nat.testBit_of_two_pow_le_and_two_pow_add_one_gt h.1 h.2

theorem LeadingBit.testBit_of_lt {x k j : ℕ} (h : LeadingBit x k) (hj : k < j) :
    x.testBit j = false :=
  Nat.testBit_lt_two_pow (h.2.trans_le (Nat.pow_le_pow_right (by decide) hj))

/-- Two distances are compared in the leading bit of the greater one. -/
theorem xor_lt_xor_iff {x y z k : ℕ} (hx : LeadingBit x k) (hy : y < 2 ^ k) :
    x ^^^ z < y ^^^ z ↔ z.testBit k = true := by
  have hyk : ∀ j, k ≤ j → y.testBit j = false := fun j hj =>
    Nat.testBit_lt_two_pow (hy.trans_le (Nat.pow_le_pow_right (by decide) hj))
  have habove : ∀ j, k < j → (x ^^^ z).testBit j = (y ^^^ z).testBit j := by
    intro j hj
    rw [Nat.testBit_xor, Nat.testBit_xor, hx.testBit_of_lt hj, hyk j hj.le]
  have hxz : (x ^^^ z).testBit k = !z.testBit k := by
    rw [Nat.testBit_xor, hx.testBit, Bool.true_xor]
  have hyz : (y ^^^ z).testBit k = z.testBit k := by
    rw [Nat.testBit_xor, hyk k le_rfl, Bool.false_xor]
  cases hz : z.testBit k with
  | true =>
      refine iff_of_true (Nat.lt_of_testBit k ?_ ?_ habove) rfl
      · rw [hxz, hz]
        rfl
      · rw [hyz, hz]
  | false =>
      refine iff_of_false (Nat.lt_asymm (Nat.lt_of_testBit k ?_ ?_ fun j hj => (habove j hj).symm))
        Bool.false_ne_true
      · rw [hyz, hz]
      · rw [hxz, hz]
        rfl

/-- `p` differs from `own` in a higher bit than `q` does. -/
theorem nearer_iff {own p q target k : ℕ} (hp : LeadingBit (own ^^^ p) k)
    (hq : own ^^^ q < 2 ^ k) :
    p ^^^ target < q ^^^ target ↔ (own ^^^ target).testBit k = true := by
  have hvia : ∀ x, (own ^^^ x) ^^^ (own ^^^ target) = x ^^^ target := by
    intro x
    rw [Nat.xor_comm own x, Nat.xor_assoc, ← Nat.xor_assoc own, Nat.xor_self, Nat.zero_xor]
  rw [← xor_lt_xor_iff hp hq, hvia, hvia]

theorem xor_mul_add {n a b r s : ℕ} (hr : r < 2 ^ n) (hs : s < 2 ^ n) :
    (2 ^ n * a + r) ^^^ (2 ^ n * b + s) = 2 ^ n * (a ^^^ b) + (r ^^^ s) := by
  apply Nat.eq_of_testBit_eq
  intro j
  rw [Nat.testBit_xor, Nat.testBit_two_pow_mul_add _ hr, Nat.testBit_two_pow_mul_add _ hs,
    Nat.testBit_two_pow_mul_add _ (Nat.xor_lt_two_pow hr hs)]
  split_ifs
  · rw [Nat.testBit_xor]
  · rw [Nat.testBit_xor]

end Kademlia.Foundations
