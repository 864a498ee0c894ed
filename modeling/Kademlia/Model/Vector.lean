import Kademlia.Foundations.BubbleSort

/-!
`vector.c`: the growing array of pointers, and its sort.

The elements in use come with the capacity that was allocated for them. No
element of a vector in this program is `NULL`.
-/

namespace Kademlia.Model

open Foundations

/-- `VectorPtr`; `size` is the length of `data`. -/
structure VectorPtr (α : Type*) where
  data : List α
  capacity : ℕ
  size_le : data.length ≤ capacity

variable {α : Type*}

def vectorInit : VectorPtr α := ⟨[], 0, le_rfl⟩

def VectorPtr.size (vec : VectorPtr α) : ℕ := vec.data.length

def vectorPush (vec : VectorPtr α) (elem : α) : VectorPtr α where
  data := vec.data ++ [elem]
  capacity :=
    if vec.size = vec.capacity then if vec.capacity = 0 then 8 else vec.capacity * 2
    else vec.capacity
  size_le := by
    have hle : vec.size ≤ vec.capacity := vec.size_le
    rw [List.length_append, List.length_singleton]
    show vec.size + 1 ≤ _
    split
    · split <;> omega
    · omega

def vectorGet (vec : VectorPtr α) (index : ℕ) : Option α := vec.data[index]?

/-- A store through the pointer that `vector_get` returned. -/
def VectorPtr.store (vec : VectorPtr α) (index : ℕ) (elem : α) : VectorPtr α where
  data := vec.data.set index elem
  capacity := vec.capacity
  size_le := by
    rw [List.length_set]
    exact vec.size_le

/-- The body of the inner loop of `vector_sort`. -/
def compareAndSwap (cmp : α → α → Bool) (data : List α) (j : ℕ) : List α :=
  match data[j]?, data[j + 1]? with
  | some a, some b => if cmp a b then data else (data.set j b).set (j + 1) a
  | _, _ => data

/-- The two loops of `vector_sort`. -/
def sortLoops (cmp : α → α → Bool) (size : ℕ) (data : List α) : List α :=
  (List.range (size - 1)).foldl
    (fun data i => (List.range (size - 1 - i)).foldl (compareAndSwap cmp) data) data

/-! ### The sort is a bubble sort -/

theorem compareAndSwap_append (cmp : α → α → Bool) (front : List α) (a b : α) (l : List α) :
    compareAndSwap cmp (front ++ a :: b :: l) front.length =
      front ++ if cmp a b then a :: b :: l else b :: a :: l := by
  have hfirst : (front ++ a :: b :: l)[front.length]? = some a := by simp
  have hsecond : (front ++ a :: b :: l)[front.length + 1]? = some b := by
    rw [List.getElem?_append_right (by omega)]
    simp
  rw [compareAndSwap, hfirst, hsecond]
  dsimp only
  split
  · rfl
  · rw [List.set_append_right _ _ le_rfl, List.set_append_right _ _ (by omega),
      Nat.sub_self, Nat.add_sub_cancel_left]
    rfl

theorem foldl_compareAndSwap (cmp : α → α → Bool) (k : ℕ) (front l : List α)
    (hk : k + 1 ≤ l.length ∨ k = 0) :
    (List.range' front.length k).foldl (compareAndSwap cmp) (front ++ l) =
      front ++ BubbleSort.pass cmp k l := by
  induction k generalizing front l with
  | zero => simp
  | succ k ih =>
      match l with
      | [] => simp at hk
      | [a] => simp at hk
      | a :: b :: l =>
          have hlen : k ≤ l.length := by simpa using hk
          rw [List.range'_succ, List.foldl_cons, compareAndSwap_append,
            BubbleSort.pass_cons_cons]
          split
          · have hnext := ih (front ++ [a]) (b :: l) (by simp; omega)
            simpa using hnext
          · have hnext := ih (front ++ [b]) (a :: l) (by simp; omega)
            simpa using hnext

/-- The passes that are left of the outer loop. -/
theorem foldl_pass (cmp : α → α → Bool) (k done : ℕ) (l : List α)
    (h : done + k + 1 = l.length ∨ k = 0) :
    (List.range' done k).foldl
        (fun data i => (List.range (l.length - 1 - i)).foldl (compareAndSwap cmp) data) l =
      BubbleSort.rounds cmp k done l := by
  generalize hsize : l.length = size at *
  induction k generalizing done l with
  | zero => rfl
  | succ k ih =>
      have hpass := foldl_compareAndSwap cmp (size - 1 - done) [] l (by omega)
      rw [List.length_nil, ← List.range_eq_range', List.nil_append, List.nil_append] at hpass
      rw [List.range'_succ, List.foldl_cons, hpass, BubbleSort.rounds, hsize]
      apply ih
      · rw [BubbleSort.pass_length, hsize]
      · omega

theorem sortLoops_eq_sort (cmp : α → α → Bool) (l : List α) :
    sortLoops cmp l.length l = BubbleSort.sort cmp l := by
  rw [sortLoops, List.range_eq_range']
  exact foldl_pass cmp (l.length - 1) 0 l (by omega)

def vectorSort (vec : VectorPtr α) (cmp : α → α → Bool) : VectorPtr α where
  data := if vec.size < 2 then vec.data else sortLoops cmp vec.size vec.data
  capacity := vec.capacity
  size_le := by
    split
    · exact vec.size_le
    · rw [VectorPtr.size, sortLoops_eq_sort, (BubbleSort.sort_perm cmp vec.data).length_eq]
      exact vec.size_le

@[simp] theorem data_vectorInit : (vectorInit : VectorPtr α).data = [] := rfl

@[simp] theorem data_vectorPush (vec : VectorPtr α) (elem : α) :
    (vectorPush vec elem).data = vec.data ++ [elem] := rfl

@[simp] theorem data_store (vec : VectorPtr α) (index : ℕ) (elem : α) :
    (vec.store index elem).data = vec.data.set index elem := rfl

theorem data_vectorSort (vec : VectorPtr α) (cmp : α → α → Bool) :
    (vectorSort vec cmp).data = BubbleSort.sort cmp vec.data := by
  unfold vectorSort
  dsimp only
  split
  · next hsize =>
      rw [VectorPtr.size] at hsize
      rw [BubbleSort.sort, show vec.data.length - 1 = 0 by omega]
      rfl
  · exact sortLoops_eq_sort cmp vec.data

end Kademlia.Model
