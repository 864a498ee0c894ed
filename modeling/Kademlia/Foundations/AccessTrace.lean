import Mathlib

/-!
Computations that record the array elements they touch.

A C function that indexes past the end of an array has no defined result, so
a total function cannot model it on its own. `Traced ι α` pairs the value a
computation returns with the log of the elements it used, in order: an array
is named by an element of `ι` and an element by an integer index, negative
ones included. "Never outside" is then a statement about the log, and it
composes: a sequence stays within bounds exactly when both of its parts do.
-/

namespace Kademlia.Foundations

structure Access (ι : Type*) where
  array : ι
  index : ℤ
  deriving DecidableEq, Repr

def Access.Within {ι : Type*} (a : Access ι) (size : ℕ) : Prop :=
  0 ≤ a.index ∧ a.index < size

instance {ι : Type*} (a : Access ι) (size : ℕ) : Decidable (a.Within size) :=
  inferInstanceAs (Decidable (_ ∧ _))

/-- A value together with the accesses made to compute it, oldest first. -/
structure Traced (ι : Type*) (α : Type*) where
  val : α
  log : List (Access ι)

namespace Traced

universe u v w

variable {ι : Type u} {α β σ : Type v} {γ : Type w}

instance : Monad (Traced ι) where
  pure a := ⟨a, []⟩
  bind x f := ⟨(f x.val).val, x.log ++ (f x.val).log⟩

def touch (array : ι) (index : ℤ) : Traced ι PUnit.{v + 1} := ⟨⟨⟩, [⟨array, index⟩]⟩

@[simp] theorem val_pure (a : α) : (pure a : Traced ι α).val = a := rfl

@[simp] theorem log_pure (a : α) : (pure a : Traced ι α).log = [] := rfl

@[simp] theorem val_bind (x : Traced ι α) (f : α → Traced ι β) :
    (x >>= f).val = (f x.val).val := rfl

@[simp] theorem log_bind (x : Traced ι α) (f : α → Traced ι β) :
    (x >>= f).log = x.log ++ (f x.val).log := rfl

@[simp] theorem log_touch (array : ι) (index : ℤ) :
    (touch array index).log = [⟨array, index⟩] := rfl

/-! ### Loops -/

@[simp] theorem val_foldlM (f : σ → γ → Traced ι σ) (xs : List γ) (s : σ) :
    (xs.foldlM f s).val = xs.foldl (fun s x => (f s x).val) s := by
  induction xs generalizing s with
  | nil => rfl
  | cons x xs ih => rw [List.foldlM_cons, val_bind, ih, List.foldl_cons]

/-- Membership in the log of a loop: some iteration, run from the state the
earlier ones left, made the access. -/
theorem mem_log_foldlM {f : σ → γ → Traced ι σ} {xs : List γ} {s : σ} {a : Access ι} :
    a ∈ (xs.foldlM f s).log ↔
      ∃ before x after, xs = before ++ x :: after ∧
        a ∈ (f (before.foldl (fun s y => (f s y).val) s) x).log := by
  induction xs generalizing s with
  | nil => simp [List.foldlM_nil]
  | cons x xs ih =>
      rw [List.foldlM_cons, log_bind, List.mem_append, ih]
      constructor
      · rintro (h | ⟨before, y, after, rfl, h⟩)
        · exact ⟨[], x, xs, rfl, h⟩
        · exact ⟨x :: before, y, after, rfl, h⟩
      · rintro ⟨before, y, after, heq, h⟩
        cases before with
        | nil =>
            obtain ⟨rfl, rfl⟩ := List.cons.inj heq
            exact Or.inl h
        | cons z before =>
            obtain ⟨rfl, rfl⟩ := List.cons.inj heq
            exact Or.inr ⟨before, y, after, rfl, h⟩

/-- What holds of all accesses of a loop, when the accesses of an iteration do
not depend on the state. -/
theorem forall_mem_log_foldlM {motive : Access ι → Prop} {f : σ → γ → Traced ι σ} {xs : List γ}
    (holds : γ → Prop) (h : ∀ s, ∀ x ∈ xs, (∀ a ∈ (f s x).log, motive a) ↔ holds x) (s : σ) :
    (∀ a ∈ (xs.foldlM f s).log, motive a) ↔ ∀ x ∈ xs, holds x := by
  induction xs generalizing s with
  | nil => simp
  | cons x xs ih =>
      have hrest := ih (fun s y hy => h s y (List.mem_cons_of_mem x hy)) (f s x).val
      rw [List.foldlM_cons, log_bind, List.forall_mem_append, h s x List.mem_cons_self, hrest,
        List.forall_mem_cons]

/-- The log of a loop that uses one element of an array in each iteration. -/
theorem log_foldlM_touch (array : ι) (g : σ → ℕ → σ) (is : List ℕ) (s : σ) :
    (is.foldlM (fun s (i : ℕ) => do touch array i; pure (g s i)) s).log =
      is.map fun i => ⟨array, (i : ℤ)⟩ := by
  induction is generalizing s with
  | nil => rfl
  | cons i is ih => simp [List.foldlM_cons, ih]

/-! ### Staying within bounds -/

/-- Every use of `array` in the log is one of its first `size` elements. -/
def Stays (x : Traced ι α) (array : ι) (size : ℕ) : Prop :=
  ∀ a ∈ x.log, a.array = array → a.Within size

@[simp] theorem stays_pure (a : α) (array : ι) (size : ℕ) :
    (pure a : Traced ι α).Stays array size := by
  simp [Stays]

@[simp] theorem stays_bind {x : Traced ι α} {f : α → Traced ι β} {array : ι} {size : ℕ} :
    (x >>= f).Stays array size ↔ x.Stays array size ∧ (f x.val).Stays array size := by
  simp only [Stays, log_bind, List.mem_append]
  constructor
  · intro h
    exact ⟨fun a ha => h a (Or.inl ha), fun a ha => h a (Or.inr ha)⟩
  · rintro ⟨hx, hf⟩ a (ha | ha)
    · exact hx a ha
    · exact hf a ha

@[simp] theorem stays_touch {array array' : ι} {index : ℤ} {size : ℕ} :
    (touch array' index).Stays array size ↔
      (array' = array → 0 ≤ index ∧ index < size) := by
  simp [Stays, Access.Within]

/-- A loop stays within bounds exactly when each iteration does in the state that
the earlier ones leave. -/
theorem stays_foldlM_iff {f : σ → γ → Traced ι σ} {xs : List γ} {s : σ} {array : ι} {size : ℕ} :
    (xs.foldlM f s).Stays array size ↔ ∀ before x after, xs = before ++ x :: after →
      (f (before.foldl (fun s y => (f s y).val) s) x).Stays array size := by
  constructor
  · intro h before x after hxs a ha
    exact h a (mem_log_foldlM.mpr ⟨before, x, after, hxs, ha⟩)
  · intro h a ha
    obtain ⟨before, x, after, hxs, hmem⟩ := mem_log_foldlM.mp ha
    exact h before x after hxs a hmem

theorem stays_foldlM {f : σ → γ → Traced ι σ} {xs : List γ} {array : ι} {size : ℕ}
    (h : ∀ s, ∀ x ∈ xs, (f s x).Stays array size) (s : σ) :
    (xs.foldlM f s).Stays array size := by
  refine stays_foldlM_iff.mpr fun before x after hxs => h _ x ?_
  rw [hxs]
  simp

/-- A counted loop over an array stays within it exactly when its count does
not exceed the size. -/
theorem stays_foldlM_touch {array : ι} {g : σ → ℕ → σ} {n size : ℕ} {s : σ} :
    ((List.range n).foldlM (fun s (i : ℕ) => do touch array i; pure (g s i)) s).Stays
      array size ↔ n ≤ size := by
  simp only [Stays, log_foldlM_touch, List.mem_map, List.mem_range, Access.Within]
  constructor
  · intro h
    by_contra hlt
    have hbehind : (size : ℤ) < size := (h ⟨array, size⟩ ⟨size, by omega, rfl⟩ rfl).2
    omega
  · rintro h a ⟨i, hi, rfl⟩ -
    dsimp only
    omega

/-! ### Ranges -/

def touchRange (array : ι) : ℕ → ℕ → Traced ι PUnit.{v + 1}
  | _, 0 => pure ⟨⟩
  | start, n + 1 => do
      touch array start
      touchRange array (start + 1) n

theorem stays_touchRange {array : ι} {start n size : ℕ} (hn : 0 < n) :
    (touchRange.{u, v} array start n).Stays array size ↔ start + n ≤ size := by
  induction n generalizing start with
  | zero => cases hn
  | succ n ih =>
      rw [touchRange, stays_bind, stays_touch]
      rcases Nat.eq_zero_or_pos n with rfl | hn
      · have hnone : (touchRange.{u, v} array (start + 1) 0).Stays array size := stays_pure _ _ _
        rw [and_iff_left hnone]
        constructor
        · intro h
          have hlt := (h rfl).2
          omega
        · intro h _
          omega
      · rw [ih hn]
        constructor
        · rintro ⟨-, h⟩
          omega
        · intro h
          exact ⟨fun _ => by omega, by omega⟩

end Traced

end Kademlia.Foundations
