import Mathlib.Data.List.Basic
import Mathlib.Data.List.FinRange

/-!
Records written one behind the other.

`LiesAt l start part` says that `part` is written in `l` from `start` on. A part
that is itself made of parts is taken apart by `left` and `right`, and an array
of parts of one size by `LiesAt.block`.
-/

namespace Kademlia.Foundations

variable {α : Type} {l part part' : List α} {start : ℕ}

/-- `part` lies in `l` from `start` on. -/
def LiesAt (l : List α) (start : ℕ) (part : List α) : Prop :=
  ∃ before after, l = before ++ part ++ after ∧ before.length = start

theorem liesAt_self (l : List α) : LiesAt l 0 l := ⟨[], [], by simp, rfl⟩

theorem LiesAt.left (h : LiesAt l start (part ++ part')) : LiesAt l start part := by
  obtain ⟨before, after, rfl, hlen⟩ := h
  exact ⟨before, part' ++ after, by simp only [List.append_assoc], hlen⟩

theorem LiesAt.right (h : LiesAt l start (part ++ part')) :
    LiesAt l (start + part.length) part' := by
  obtain ⟨before, after, rfl, hlen⟩ := h
  exact ⟨before ++ part, after, by simp only [List.append_assoc],
    by rw [List.length_append, hlen]⟩

theorem LiesAt.next {n : ℕ} (h : LiesAt l start (part ++ part')) (hn : part.length = n) :
    LiesAt l (start + n) part' := hn ▸ h.right

theorem LiesAt.le (h : LiesAt l start part) : start + part.length ≤ l.length := by
  obtain ⟨before, after, rfl, rfl⟩ := h
  simp only [List.length_append]
  omega

theorem LiesAt.take_drop (h : LiesAt l start part) : (l.drop start).take part.length = part := by
  obtain ⟨before, after, rfl, rfl⟩ := h
  rw [List.append_assoc, List.drop_left, List.take_left]

theorem LiesAt.getElem {x : α} (h : LiesAt l start [x]) : l[start]? = some x := by
  obtain ⟨before, after, rfl, rfl⟩ := h
  rw [List.append_assoc, List.getElem?_append_right le_rfl, Nat.sub_self]
  rfl

section Blocks

variable {β : Type} {width : ℕ} {f : β → List α}

theorem LiesAt.block (hf : ∀ x, (f x).length = width) {blocks : List β}
    (h : LiesAt l start (blocks.flatMap f)) {i : ℕ} {x : β} (hi : blocks[i]? = some x) :
    LiesAt l (start + width * i) (f x) := by
  induction blocks generalizing start i with
  | nil => cases hi
  | cons b blocks ih =>
      rw [List.flatMap_cons] at h
      cases i with
      | zero =>
          obtain rfl : b = x := by simpa using hi
          exact h.left
      | succ i =>
          have hrest := ih (h.next (hf b)) (by simpa using hi)
          rwa [Nat.add_assoc, Nat.add_comm width, ← Nat.mul_succ] at hrest

theorem length_flatMap_blocks (hf : ∀ x, (f x).length = width) (blocks : List β) :
    (blocks.flatMap f).length = width * blocks.length := by
  induction blocks with
  | nil => rfl
  | cons b blocks ih =>
      rw [List.flatMap_cons, List.length_append, hf, ih, List.length_cons, Nat.mul_succ,
        Nat.add_comm]

end Blocks

end Kademlia.Foundations
