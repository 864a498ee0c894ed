import Mathlib

/-!
Bubble sort with a caller-supplied comparison.

One pass compares neighbours from the front and carries the greater of the two
along; a neighbouring pair stays as it is exactly when `lt` says its first
element is smaller. `Order` is what the comparison has to satisfy for the
result to be sorted. Elements that compare equal are exchanged, so nothing is
said about their relative order.
-/

namespace Kademlia.Foundations.BubbleSort

variable {α : Type*} (lt : α → α → Bool)

/-- `k` comparisons along the front of a list. -/
def pass : ℕ → List α → List α
  | k + 1, a :: b :: l =>
      if lt a b then a :: pass k (b :: l) else b :: pass k (a :: l)
  | _, l => l

/-- `k` passes over a list whose last `done` elements are in place. -/
def rounds : ℕ → ℕ → List α → List α
  | 0, _, l => l
  | k + 1, done, l => rounds k (done + 1) (pass lt (l.length - 1 - done) l)

def sort (l : List α) : List α := rounds lt (l.length - 1) 0 l

/-- A strict weak order: asymmetric, and incomparability is transitive. -/
structure Order (lt : α → α → Bool) : Prop where
  asymm : ∀ a b, lt a b = true → lt b a = false
  trans_not : ∀ a b c, lt b a = false → lt c b = false → lt c a = false

variable {lt} in
theorem Order.irrefl (h : Order lt) (a : α) : lt a a = false := by
  by_contra ha
  have hlt : lt a a = true := by simpa using ha
  rw [h.asymm a a hlt] at hlt
  cases hlt

variable {lt} in
theorem Order.lt_or_lt (h : Order lt) {a b : α} (hab : lt a b = true) (c : α) :
    lt a c = true ∨ lt c b = true := by
  cases hac : lt a c with
  | true => exact Or.inl rfl
  | false =>
      refine Or.inr (Bool.eq_true_of_not_eq_false fun hcb => ?_)
      rw [h.trans_not b c a hcb hac] at hab
      cases hab

@[simp] theorem pass_zero (l : List α) : pass lt 0 l = l := by
  cases l <;> rfl

theorem pass_cons_cons (k : ℕ) (a b : α) (l : List α) :
    pass lt (k + 1) (a :: b :: l) =
      if lt a b then a :: pass lt k (b :: l) else b :: pass lt k (a :: l) := rfl

theorem pass_perm (k : ℕ) (l : List α) : (pass lt k l).Perm l := by
  induction k generalizing l with
  | zero => rw [pass_zero]
  | succ k ih =>
      match l with
      | [] => exact .refl _
      | [a] => exact .refl _
      | a :: b :: l =>
          rw [pass_cons_cons]
          split
          · exact (ih (b :: l)).cons a
          · exact ((ih (a :: l)).cons b).trans (.swap a b l)

@[simp] theorem pass_length (k : ℕ) (l : List α) : (pass lt k l).length = l.length :=
  (pass_perm lt k l).length_eq

theorem rounds_perm (k done : ℕ) (l : List α) : (rounds lt k done l).Perm l := by
  induction k generalizing done l with
  | zero => exact .refl _
  | succ k ih => exact (ih _ _).trans (pass_perm lt _ l)

theorem sort_perm (l : List α) : (sort lt l).Perm l := rounds_perm lt _ _ l

theorem pass_append (l rest : List α) {k : ℕ} (hk : k < l.length) :
    pass lt k (l ++ rest) = pass lt k l ++ rest := by
  induction k generalizing l with
  | zero => simp
  | succ k ih =>
      match l with
      | [] => simp at hk
      | [a] => simp at hk
      | a :: b :: l =>
          have hlen : k < (b :: l).length := by simpa using hk
          have hlen' : k < (a :: l).length := by simpa using hk
          simp only [List.cons_append, pass_cons_cons]
          split
          · rw [← List.cons_append, ih (b :: l) hlen, List.cons_append]
          · rw [← List.cons_append, ih (a :: l) hlen', List.cons_append]

variable {lt}

theorem pass_eq_append_greatest (h : Order lt) (l : List α) (hl : l ≠ []) :
    ∃ front greatest, pass lt (l.length - 1) l = front ++ [greatest] ∧
      ∀ a ∈ l, lt greatest a = false := by
  obtain ⟨a, l, rfl⟩ := List.exists_cons_of_ne_nil hl
  clear hl
  induction l generalizing a with
  | nil => exact ⟨[], a, rfl, by simpa using h.irrefl a⟩
  | cons b l ih =>
      simp only [List.length_cons, Nat.add_sub_cancel] at ih ⊢
      rw [pass_cons_cons]
      split
      · rename_i hab
        obtain ⟨front, greatest, hpass, hmax⟩ := ih b
        refine ⟨a :: front, greatest, by rw [hpass, List.cons_append], ?_⟩
        intro x hx
        rcases List.mem_cons.mp hx with rfl | hx
        · exact h.trans_not _ _ _ (h.asymm _ _ hab) (hmax b (by simp))
        · exact hmax x hx
      · rename_i hab
        obtain ⟨front, greatest, hpass, hmax⟩ := ih a
        refine ⟨b :: front, greatest, by rw [hpass, List.cons_append], ?_⟩
        intro x hx
        simp only [List.mem_cons] at hx
        rcases hx with rfl | rfl | hx
        · exact hmax x (by simp)
        · exact h.trans_not _ _ _ (by simpa using hab) (hmax a (by simp))
        · exact hmax x (by simp [hx])

/-- No element is strictly smaller than an earlier one. -/
def Sorted (lt : α → α → Bool) (l : List α) : Prop := l.Pairwise fun a b => lt b a = false

/-- The invariant of the passes: behind `front` stands a sorted `back` whose
elements are not smaller than any of `front`. -/
theorem rounds_sorted (h : Order lt) (k : ℕ) (front back : List α)
    (hk : front.length = k + 1) (hback : Sorted lt back)
    (hle : ∀ a ∈ front, ∀ b ∈ back, lt b a = false) :
    Sorted lt (rounds lt k back.length (front ++ back)) := by
  induction k generalizing front back with
  | zero =>
      rw [rounds, Sorted, List.pairwise_append]
      refine ⟨?_, hback, hle⟩
      obtain ⟨a, rfl⟩ := List.length_eq_one_iff.mp hk
      exact List.pairwise_singleton _ _
  | succ k ih =>
      have hcount : (front ++ back).length - 1 - back.length = front.length - 1 := by
        rw [List.length_append]; omega
      have hnil : front ≠ [] := List.ne_nil_of_length_eq_add_one hk
      obtain ⟨front', greatest, hpass, hmax⟩ := pass_eq_append_greatest h front hnil
      have hperm : (front' ++ [greatest]).Perm front := hpass ▸ pass_perm lt _ front
      rw [rounds, hcount, pass_append lt front back (by omega), hpass, List.append_assoc,
        List.singleton_append]
      have hgreatest : greatest ∈ front := hperm.subset (by simp)
      have hlen := hperm.length_eq
      rw [List.length_append, List.length_singleton] at hlen
      refine ih front' (greatest :: back) (by omega) ?_ ?_
      · exact List.pairwise_cons.mpr ⟨fun b hb => hle greatest hgreatest b hb, hback⟩
      · intro a ha b hb
        have ha' : a ∈ front := hperm.subset (by simp [ha])
        rcases List.mem_cons.mp hb with rfl | hb
        · exact hmax a ha'
        · exact hle a ha' b hb

theorem sort_sorted (h : Order lt) (l : List α) : Sorted lt (sort lt l) := by
  cases l with
  | nil => exact .nil
  | cons a l =>
      have := rounds_sorted h l.length (a :: l) [] rfl .nil (by simp)
      simpa [sort] using this

end Kademlia.Foundations.BubbleSort
