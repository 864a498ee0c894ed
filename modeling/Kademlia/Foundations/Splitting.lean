import Kademlia.Foundations.ByteSource

/-!
How a source is split, apart from what it delivers.

The splitting of a source has its chunks with their sizes, its interruptions
and its failures, and none of its elements. `label` goes the other way: it
fills a splitting with elements that are given by their positions. So a reader
that loses elements can be shown a source with the same splitting on which the
loss makes a difference.
-/

namespace Kademlia.Foundations

namespace Source

variable {α β : Type*}

def map (f : α → β) : Source α → Source β
  | [] => []
  | .chunk a l :: s => .chunk (f a) (l.map f) :: map f s
  | .interrupt :: s => .interrupt :: map f s
  | .failure :: s => .failure :: map f s

theorem map_unread (f : α → β) (l : List α) (s : Source α) :
    map f (unread l s) = unread (l.map f) (map f s) := by
  cases l <;> rfl

theorem delivered_map (f : α → β) (s : Source α) :
    delivered (map f s) = (delivered s).map f := by
  induction s with
  | nil => rfl
  | cons event s ih =>
      cases event with
      | chunk a l => rw [map, delivered_chunk, ih, delivered_chunk, List.map_append, List.map_cons]
      | interrupt => exact ih
      | failure => rfl

theorem carried_map (f : α → β) (s : Source α) : carried (map f s) = (carried s).map f := by
  induction s with
  | nil => rfl
  | cons event s ih =>
      cases event with
      | chunk a l => rw [map, carried, ih, carried, List.map_append, List.map_cons]
      | interrupt => exact ih
      | failure => exact ih

theorem fails_map (f : α → β) (s : Source α) : fails (map f s) = fails s := by
  induction s with
  | nil => rfl
  | cons event s ih =>
      cases event with
      | chunk a l => exact ih
      | interrupt => exact ih
      | failure => rfl

theorem afterFailure_map (f : α → β) (s : Source α) :
    afterFailure (map f s) = map f (afterFailure s) := by
  induction s with
  | nil => rfl
  | cons event s ih =>
      cases event with
      | chunk a l => exact ih
      | interrupt => exact ih
      | failure => rfl

theorem firstChunk_map (f : α → β) (s : Source α) :
    firstChunk (map f s) = (firstChunk s).map f := by
  induction s with
  | nil => rfl
  | cons event s ih =>
      cases event with
      | chunk a l => rw [map, firstChunk, firstChunk, List.map_cons]
      | interrupt => exact ih
      | failure => rfl

theorem skip_map (f : α → β) (n : ℕ) (s : Source α) : skip n (map f s) = map f (skip n s) := by
  induction s generalizing n with
  | nil => rw [map, skip_nil, skip_nil, map]
  | cons event s ih =>
      cases event with
      | chunk a l =>
          have hmap : map f (.chunk a l :: s) = unread ((a :: l).map f) (map f s) :=
            map_unread f (a :: l) s
          have hlen : ((a :: l).map f).length = (a :: l).length := List.length_map f
          rw [hmap, ← unread_cons]
          by_cases hn : n < (a :: l).length
          · rw [skip_unread_of_lt _ (hlen.symm ▸ hn), skip_unread_of_lt s hn, map_unread,
              List.map_drop]
          · rw [skip_unread_of_le _ (by omega), skip_unread_of_le s (by omega), hlen, ih]
      | interrupt =>
          cases n with
          | zero => rw [skip_zero, skip_zero]
          | succ n => exact ih (n + 1)
      | failure => cases n <;> rfl

/-! ### Between two failures -/

/-- What is carried is delivered, or it is behind the first failure. -/
theorem carried_eq (s : Source α) : carried s = delivered s ++ carried (afterFailure s) := by
  induction s with
  | nil => rfl
  | cons event s ih =>
      cases event with
      | chunk a l => rw [carried, ih, delivered_chunk, afterFailure, List.append_assoc]
      | interrupt => exact ih
      | failure => rfl

theorem take_carried {n : ℕ} {s : Source α} (h : n ≤ (delivered s).length) :
    (carried s).take n = (delivered s).take n := by
  rw [carried_eq, List.take_append_of_le_length h]

/-- The size of the last read when `n` elements are fetched read by read. -/
def lastRead : ℕ → Source α → ℕ
  | n, .chunk a l :: s =>
      if n ≤ (a :: l).length then n else lastRead (n - (a :: l).length) s
  | n, .interrupt :: s => lastRead n s
  | _, _ => 0

theorem lastRead_map (f : α → β) (n : ℕ) (s : Source α) : lastRead n (map f s) = lastRead n s := by
  induction s generalizing n with
  | nil => rfl
  | cons event s ih =>
      cases event with
      | chunk a l =>
          rw [map, lastRead, lastRead, List.length_cons, List.length_map, ih]
          rfl
      | interrupt => exact ih n
      | failure => rfl

theorem lastRead_chunk_of_le {n : ℕ} {a : α} {l : List α} (h : n ≤ (a :: l).length)
    (s : Source α) : lastRead n (.chunk a l :: s) = n := if_pos h

theorem lastRead_chunk_of_lt {n : ℕ} {a : α} {l : List α} (h : (a :: l).length < n)
    (s : Source α) : lastRead n (.chunk a l :: s) = lastRead (n - (a :: l).length) s :=
  if_neg (not_le.mpr h)

/-- The last read has something, and it has everything if it is the first one, too. -/
theorem lastRead_spec {n : ℕ} {s : Source α} (hpos : 0 < n) (h : n ≤ (delivered s).length) :
    0 < lastRead n s ∧ lastRead n s ≤ n ∧ (lastRead n s = n ↔ n ≤ (firstChunk s).length) := by
  induction s generalizing n with
  | nil => exact absurd hpos (not_lt.mpr h)
  | cons event s ih =>
      cases event with
      | chunk a l =>
          by_cases hn : n ≤ (a :: l).length
          · rw [lastRead_chunk_of_le hn]
            exact ⟨hpos, le_rfl, iff_of_true rfl hn⟩
          · rw [delivered_chunk, List.length_append] at h
            rw [lastRead_chunk_of_lt (not_le.mp hn)]
            obtain ⟨hread, hle, -⟩ := ih (show 0 < n - (a :: l).length by omega) (by omega)
            have hchunk : 0 < (a :: l).length := List.length_pos_of_ne_nil (List.cons_ne_nil a l)
            exact ⟨hread, by omega, iff_of_false (by omega) hn⟩
      | interrupt => exact ih hpos h
      | failure => exact absurd hpos (not_lt.mpr h)

/-! ### The splitting alone -/

def splitting (s : Source α) : Source Unit := map (fun _ => ()) s

variable (s : Source α)

@[simp] theorem length_delivered_splitting :
    (delivered (splitting s)).length = (delivered s).length := by
  rw [splitting, delivered_map, List.length_map]

@[simp] theorem length_firstChunk_splitting :
    (firstChunk (splitting s)).length = (firstChunk s).length := by
  rw [splitting, firstChunk_map, List.length_map]

@[simp] theorem size_splitting : size (splitting s) = size s := by
  rw [size, splitting, carried_map, List.length_map, size]

@[simp] theorem fails_splitting : fails (splitting s) = fails s := fails_map _ s

@[simp] theorem lastRead_splitting (n : ℕ) : lastRead n (splitting s) = lastRead n s :=
  lastRead_map _ n s

theorem afterFailure_splitting : afterFailure (splitting s) = splitting (afterFailure s) :=
  afterFailure_map _ s

theorem skip_splitting (n : ℕ) : skip n (splitting s) = splitting (skip n s) := skip_map _ n s

@[simp] theorem delivered_splitting_eq_nil_iff : delivered (splitting s) = [] ↔ delivered s = [] := by
  rw [← List.length_eq_zero_iff, length_delivered_splitting, List.length_eq_zero_iff]

/-! ### Elements by position -/

/-- The source with this splitting that carries `f n`, `f (n + 1)` and so on. -/
def label (f : ℕ → α) : ℕ → Source Unit → Source α
  | _, [] => []
  | n, .chunk _ l :: s =>
      .chunk (f n) ((List.range' (n + 1) l.length).map f) :: label f (n + 1 + l.length) s
  | n, .interrupt :: s => .interrupt :: label f n s
  | n, .failure :: s => .failure :: label f n s

theorem splitting_label (f : ℕ → α) (n : ℕ) (s : Source Unit) : splitting (label f n s) = s := by
  induction s generalizing n with
  | nil => rfl
  | cons event s ih =>
      cases event with
      | chunk a l =>
          have hunits : ((List.range' (n + 1) l.length).map f).map (fun _ => ()) = l :=
            List.ext_getElem (by simp) fun _ _ _ => rfl
          rw [label, splitting, map, hunits]
          exact congrArg (Event.chunk () l :: ·) (ih (n + 1 + l.length))
      | interrupt => exact congrArg (Event.interrupt :: ·) (ih n)
      | failure => exact congrArg (Event.failure :: ·) (ih n)

theorem carried_label (f : ℕ → α) (n : ℕ) (s : Source Unit) :
    carried (label f n s) = (List.range' n (size s)).map f := by
  induction s generalizing n with
  | nil => rfl
  | cons event s ih =>
      cases event with
      | chunk a l =>
          have hsize : size (.chunk a l :: s) = l.length + 1 + size s := by
            rw [size, carried, List.length_append, List.length_cons, size]
          rw [label, carried, ih, hsize, ← List.map_cons, ← List.map_append, ← List.range'_succ,
            Nat.add_right_comm n 1, Nat.add_assoc n, List.range'_append_1]
      | interrupt => exact ih n
      | failure => exact ih n

end Source

end Kademlia.Foundations
