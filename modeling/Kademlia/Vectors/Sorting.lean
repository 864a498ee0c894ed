import Kademlia.Foundations.Ties
import Kademlia.Model.Vector

/-!
What `vector_sort` does for every comparator that is a strict weak order.

The vector is sorted. The sort is called stable in the source, but elements that
compare equal are exchanged whenever they meet, and whether they end in the order
in which they came depends on the greater elements between and behind them.
-/

namespace Kademlia.Vectors

open Foundations BubbleSort Model

variable {α : Type*} {cmp : α → α → Bool}

/-! ### Order -/

theorem vectorSort_sorts (h : Order cmp) (vec : VectorPtr α) :
    (vectorSort vec cmp).data.Perm vec.data ∧ Sorted cmp (vectorSort vec cmp).data := by
  rw [data_vectorSort]
  exact ⟨sort_perm cmp vec.data, sort_sorted h vec.data⟩

def numbers (data : List ℕ) : VectorPtr ℕ := ⟨data, data.length, le_rfl⟩

theorem order_ltb : Order fun a b : ℕ => decide (a < b) where
  asymm a b h := by
    simp at h ⊢
    omega
  trans_not a b c hab hbc := by
    simp at hab hbc ⊢
    omega

theorem vectorSort_sorts_numbers :
    (vectorSort (numbers [3, 1, 2, 1]) fun a b => decide (a < b)).data.Perm [3, 1, 2, 1] ∧
      Sorted (fun a b => decide (a < b))
        (vectorSort (numbers [3, 1, 2, 1]) fun a b => decide (a < b)).data :=
  vectorSort_sorts order_ltb (numbers [3, 1, 2, 1])

/-! ### Stability -/

/-- The elements with their places in the vector. -/
def numbered (vec : VectorPtr α) : VectorPtr (α × ℕ) :=
  ⟨vec.data.zipIdx, vec.capacity, by rw [List.length_zipIdx]; exact vec.size_le⟩

/-- The elements as `vector_sort` leaves them, each with the place that it came from. -/
def sortedPlaces (cmp : α → α → Bool) (vec : VectorPtr α) : List (α × ℕ) :=
  (vectorSort (numbered vec) fun a b => cmp a.1 b.1).data

theorem map_fst_sortedPlaces (vec : VectorPtr α) :
    (sortedPlaces cmp vec).map Prod.fst = (vectorSort vec cmp).data := by
  rw [sortedPlaces, data_vectorSort, data_vectorSort, ← sort_map, numbered, List.zipIdx_map_fst]

/-- Two elements that compare equal keep their relative order. -/
def Stable (cmp : α → α → Bool) (vec : VectorPtr α) : Prop :=
  (sortedPlaces cmp vec).Pairwise fun a b => tied cmp a.1 b.1 = true → a.2 < b.2

theorem pairwise_numbered (vec : VectorPtr α) :
    (numbered vec).data.Pairwise fun a b => a.2 < b.2 := by
  have hplaces : ((numbered vec).data.map Prod.snd).Pairwise (· < ·) := by
    rw [numbered, List.zipIdx_map_snd]
    exact List.pairwise_lt_range' _ Nat.one_pos
  exact List.pairwise_map.mp hplaces

theorem stable_iff (h : Order cmp) (vec : VectorPtr α) :
    Stable cmp vec ↔ RestoresTies cmp vec.data := by
  have hplaced : Order fun a b : α × ℕ => cmp a.1 b.1 :=
    ⟨fun a b => h.asymm a.1 b.1, fun a b c => h.trans_not a.1 b.1 c.1⟩
  have hstable := sort_stable_iff (fun a b hab => Nat.lt_asymm hab) hplaced
    (pairwise_numbered vec)
  have hdata : vec.data = (numbered vec).data.map Prod.fst := (List.zipIdx_map_fst _ _).symm
  rw [hdata, restoresTies_map, ← hstable, Stable, sortedPlaces, data_vectorSort]
  rfl

theorem stable_iff_numbers :
    Stable (fun a b => decide (a < b)) (numbers [1, 1, 2]) ↔
      RestoresTies (fun a b => decide (a < b)) [1, 1, 2] :=
  stable_iff order_ltb (numbers [1, 1, 2])

/-- Two equal elements are exchanged. -/
theorem not_stable_twoEqual : ¬ Stable (fun a b => decide (a < b)) (numbers [1, 1]) := by
  rw [Stable]
  decide

end Kademlia.Vectors
