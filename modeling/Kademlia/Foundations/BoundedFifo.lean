import Kademlia.Foundations.Machine
import Mathlib.Data.List.Range
import Mathlib.Data.Int.ModEq
import Mathlib.Tactic

/-!
The bounded queue as a list, and the ring that represents it.

`fifo` keeps its elements in the order in which they came and refuses more
than `capacity` of them. `ring` reads the elements of a ring of cells off from
its first index and their number.
-/

namespace Kademlia.Foundations

section Fifo

variable {α : Type}

inductive FifoCall (α : Type)
  | offer (x : α)
  | take
  deriving DecidableEq, Repr

inductive FifoAnswer (α : Type)
  | offered (kept : Bool)
  | taken (x : Option α)
  deriving DecidableEq, Repr

def fifo (capacity : ℕ) : Machine (List α) (FifoCall α) (FifoAnswer α)
  | pending, .offer x =>
      if pending.length = capacity then (.offered false, pending)
      else (.offered true, pending ++ [x])
  | pending, .take => (.taken pending.head?, pending.tail)

/-- The elements that were offered and kept, in this order. -/
def kept : List (FifoCall α) → List (FifoAnswer α) → List α
  | .offer x :: calls, .offered true :: answers => x :: kept calls answers
  | _ :: calls, _ :: answers => kept calls answers
  | _, _ => []

/-- The elements that were taken, in this order. -/
def taken : List (FifoAnswer α) → List α
  | [] => []
  | .taken (some x) :: answers => x :: taken answers
  | _ :: answers => taken answers

/-- Nothing is lost and nothing is doubled: what was kept is what was taken
and, behind it, what is still there. -/
theorem append_kept_eq (capacity : ℕ) (pending : List α) (calls : List (FifoCall α)) :
    pending ++ kept calls ((fifo capacity).run pending calls).1 =
      taken ((fifo capacity).run pending calls).1 ++ ((fifo capacity).run pending calls).2 := by
  induction calls generalizing pending with
  | nil => simp [kept, taken]
  | cons call calls ih =>
      cases call with
      | offer x =>
          by_cases hfull : pending.length = capacity
          · simpa [fifo, hfull, kept, taken] using ih pending
          · simpa [fifo, hfull, kept, taken] using ih (pending ++ [x])
      | take =>
          cases pending with
          | nil => simpa [fifo, kept, taken] using ih []
          | cons x pending => simpa [fifo, kept, taken] using ih pending

end Fifo

section Ring

variable {α : Type} (cells : ℤ → α) {capacity : ℤ} (head : ℤ)

/-- The `count` elements from index `head` on, around the end of the cells. -/
def ring (capacity head : ℤ) (count : ℕ) : List α :=
  (List.range count).map fun (k : ℕ) => cells ((head + k) % capacity)

@[simp] theorem length_ring (count : ℕ) : (ring cells capacity head count).length = count := by
  simp [ring]

/-- The first element goes, and the ring starts one cell later. -/
theorem ring_succ (count : ℕ) :
    ring cells capacity head (count + 1) =
      cells (head % capacity) :: ring cells capacity ((head + 1) % capacity) count := by
  unfold ring
  rw [List.range_succ_eq_map, List.map_cons, List.map_map]
  congr 1
  · rw [Nat.cast_zero, add_zero]
  · apply List.map_congr_left
    intro k _
    simp only [Function.comp_apply, Int.emod_add_emod, Nat.cast_succ]
    congr 2
    ring_nf

theorem ring_index_ne {j k : ℕ} (hjk : j < k) (hk : (k : ℤ) < capacity) :
    (head + j) % capacity ≠ (head + k) % capacity := by
  intro h
  have hdvd : capacity ∣ (head + k) - (head + j) := (Int.ModEq.dvd h)
  have hle := Int.le_of_dvd (by omega) hdvd
  omega

/-- A store behind the last element adds one, as long as a cell is free. -/
theorem ring_update {count : ℕ} (hfree : (count : ℤ) < capacity) (x : α) :
    ring (Function.update cells ((head + count) % capacity) x) capacity head (count + 1) =
      ring cells capacity head count ++ [x] := by
  unfold ring
  rw [List.range_succ, List.map_append, List.map_singleton, Function.update_self]
  congr 1
  apply List.map_congr_left
  intro k hk
  exact Function.update_of_ne (ring_index_ne head (List.mem_range.mp hk) hfree) _ _

end Ring

end Kademlia.Foundations
