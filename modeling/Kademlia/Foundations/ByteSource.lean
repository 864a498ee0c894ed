import Mathlib

/-!
Sources that deliver their elements in chunks.

A source is the list of what successive reads meet: a chunk, an interruption
after which the reader may try again, or a failure. The end of the list is the
end of the input. A chunk is never empty, so a read that delivers nothing is
always one of the other outcomes; a reader that wants less than the chunk
leaves the remainder in front of the source. Every way of splitting a list
into positive pieces, with any interruptions in between, is a source.
-/

namespace Kademlia.Foundations

/-- What one read meets. The chunk is `first :: others`. -/
inductive Event (α : Type*)
  | chunk (first : α) (others : List α)
  | interrupt
  | failure
  deriving DecidableEq, Repr

abbrev Source (α : Type*) := List (Event α)

namespace Source

variable {α : Type*}

/-- Put elements back in front of a source. -/
def unread : List α → Source α → Source α
  | [], s => s
  | a :: l, s => .chunk a l :: s

/-- The elements delivered before the first failure or the end. -/
def delivered : Source α → List α
  | [] => []
  | .chunk a l :: s => a :: l ++ delivered s
  | .interrupt :: s => delivered s
  | .failure :: _ => []

/-- The source stops by a failure, not by its end. -/
def fails : Source α → Bool
  | [] => false
  | .chunk _ _ :: s => fails s
  | .interrupt :: s => fails s
  | .failure :: _ => true

/-- What later reads meet once the first failure was reported. -/
def afterFailure : Source α → Source α
  | [] => []
  | .chunk _ _ :: s => afterFailure s
  | .interrupt :: s => afterFailure s
  | .failure :: s => s

/-- The elements of all chunks, also behind failures. -/
def carried : Source α → List α
  | [] => []
  | .chunk a l :: s => a :: l ++ carried s
  | .interrupt :: s => carried s
  | .failure :: s => carried s

def size (s : Source α) : ℕ := (carried s).length

def failures : Source α → ℕ
  | [] => 0
  | .chunk _ _ :: s => failures s
  | .interrupt :: s => failures s
  | .failure :: s => failures s + 1

/-- What a read that asks for everything delivers, interruptions skipped. -/
def firstChunk : Source α → List α
  | .chunk a l :: _ => a :: l
  | .interrupt :: s => firstChunk s
  | _ => []

def skip : ℕ → Source α → Source α
  | 0, s => s
  | _, [] => []
  | n + 1, .chunk a l :: s =>
      if n + 1 < (a :: l).length then unread ((a :: l).drop (n + 1)) s
      else skip (n + 1 - (a :: l).length) s
  | n + 1, .interrupt :: s => skip (n + 1) s
  | _ + 1, .failure :: s => .failure :: s

@[simp] theorem delivered_nil : delivered ([] : Source α) = [] := rfl
@[simp] theorem delivered_chunk (a : α) (l : List α) (s : Source α) :
    delivered (.chunk a l :: s) = a :: l ++ delivered s := rfl
@[simp] theorem delivered_interrupt (s : Source α) :
    delivered (.interrupt :: s) = delivered s := rfl
@[simp] theorem delivered_failure (s : Source α) : delivered (.failure :: s) = [] := rfl

@[simp] theorem fails_nil : fails ([] : Source α) = false := rfl
@[simp] theorem fails_chunk (a : α) (l : List α) (s : Source α) :
    fails (.chunk a l :: s) = fails s := rfl
@[simp] theorem fails_interrupt (s : Source α) : fails (.interrupt :: s) = fails s := rfl
@[simp] theorem fails_failure (s : Source α) : fails (.failure :: s) = true := rfl

@[simp] theorem skip_zero (s : Source α) : skip 0 s = s := by
  cases s <;> rfl

@[simp] theorem skip_nil (n : ℕ) : skip n ([] : Source α) = [] := by
  cases n <;> rfl

theorem skip_unread_of_lt {n : ℕ} {l : List α} (s : Source α) (hn : n < l.length) :
    skip n (unread l s) = unread (l.drop n) s := by
  cases l with
  | nil => simp at hn
  | cons a l =>
      cases n with
      | zero => rfl
      | succ n => rw [unread, skip, if_pos hn]

theorem skip_unread_of_le {n : ℕ} {l : List α} (s : Source α) (hn : l.length ≤ n) :
    skip n (unread l s) = skip (n - l.length) s := by
  cases l with
  | nil => rfl
  | cons a l =>
      cases n with
      | zero => simp at hn
      | succ n => rw [unread, skip, if_neg (by omega)]

theorem skip_unread_append (l l' : List α) (s : Source α) :
    skip l.length (unread (l ++ l') s) = unread l' s := by
  cases l' with
  | nil => rw [List.append_nil, skip_unread_of_le s le_rfl, Nat.sub_self, skip_zero, unread]
  | cons a l' => rw [skip_unread_of_lt s (by simp), List.drop_left]

theorem skip_interrupt {n : ℕ} (s : Source α) (hn : 0 < n) :
    skip n (.interrupt :: s) = skip n s := by
  cases n with
  | zero => omega
  | succ n => rfl

theorem unread_cons (a : α) (l : List α) (s : Source α) :
    unread (a :: l) s = .chunk a l :: s := rfl

@[simp] theorem delivered_unread (l : List α) (s : Source α) :
    delivered (unread l s) = l ++ delivered s := by
  cases l <;> rfl

@[simp] theorem fails_unread (l : List α) (s : Source α) : fails (unread l s) = fails s := by
  cases l <;> rfl

@[simp] theorem carried_unread (l : List α) (s : Source α) :
    carried (unread l s) = l ++ carried s := by
  cases l <;> rfl

@[simp] theorem failures_unread (l : List α) (s : Source α) :
    failures (unread l s) = failures s := by
  cases l <;> rfl

theorem delivered_isPrefix_carried (s : Source α) : delivered s <+: carried s := by
  induction s with
  | nil => exact List.prefix_refl _
  | cons event s ih =>
      cases event with
      | chunk a l => exact (List.prefix_append_right_inj (a :: l)).mpr ih
      | interrupt => exact ih
      | failure => exact List.nil_prefix

theorem failures_eq_zero_iff (s : Source α) : failures s = 0 ↔ fails s = false := by
  induction s with
  | nil => simp [failures]
  | cons event s ih =>
      cases event with
      | chunk a l => exact ih
      | interrupt => exact ih
      | failure => simp [failures]

theorem failures_afterFailure {s : Source α} (h : fails s = true) :
    failures s = failures (afterFailure s) + 1 := by
  induction s with
  | nil => cases h
  | cons event s ih =>
      cases event with
      | chunk a l => exact ih h
      | interrupt => exact ih h
      | failure => rfl

theorem failures_skip (n : ℕ) (s : Source α) : failures (skip n s) = failures s := by
  induction s generalizing n with
  | nil => simp
  | cons event s ih =>
      cases event with
      | chunk a l =>
          rw [← unread_cons, failures_unread]
          by_cases hn : n < (a :: l).length
          · rw [skip_unread_of_lt s hn, failures_unread]
          · rw [skip_unread_of_le s (by omega), ih]
      | interrupt =>
          cases n with
          | zero => rfl
          | succ n => exact ih (n + 1)
      | failure => cases n <;> rfl

theorem carried_skip {n : ℕ} {s : Source α} (h : n ≤ (delivered s).length) :
    carried (skip n s) = (carried s).drop n := by
  induction s generalizing n with
  | nil => simp [carried]
  | cons event s ih =>
      cases event with
      | chunk a l =>
          rw [← unread_cons, carried_unread]
          by_cases hn : n < (a :: l).length
          · rw [skip_unread_of_lt s hn, carried_unread, List.drop_append_of_le_length (by omega)]
          · have hnil : (a :: l).drop n = [] := List.drop_eq_nil_of_le (by omega)
            rw [delivered_chunk, List.length_append] at h
            rw [skip_unread_of_le s (by omega), ih (by omega), List.drop_append, hnil,
              List.nil_append]
      | interrupt =>
          cases n with
          | zero => simp
          | succ n => exact ih h
      | failure =>
          obtain rfl : n = 0 := Nat.le_zero.mp h
          simp

theorem delivered_skip (n : ℕ) (s : Source α) :
    delivered (skip n s) = (delivered s).drop n := by
  induction s generalizing n with
  | nil => simp
  | cons event s ih =>
      cases event with
      | chunk a l =>
          rw [← unread_cons, delivered_unread]
          by_cases hn : n < (a :: l).length
          · rw [skip_unread_of_lt s hn, delivered_unread,
              List.drop_append_of_le_length (by omega)]
          · have hnil : (a :: l).drop n = [] := List.drop_eq_nil_of_le (by omega)
            rw [skip_unread_of_le s (by omega), ih, List.drop_append, hnil, List.nil_append]
      | interrupt =>
          cases n with
          | zero => simp
          | succ n => exact ih (n + 1)
      | failure => cases n <;> simp [skip]

theorem fails_skip (n : ℕ) (s : Source α) : fails (skip n s) = fails s := by
  induction s generalizing n with
  | nil => simp
  | cons event s ih =>
      cases event with
      | chunk a l =>
          rw [← unread_cons, fails_unread]
          by_cases hn : n < (a :: l).length
          · rw [skip_unread_of_lt s hn, fails_unread]
          · rw [skip_unread_of_le s (by omega), ih]
      | interrupt =>
          cases n with
          | zero => rfl
          | succ n => exact ih (n + 1)
      | failure => cases n <;> rfl

theorem skip_skip (m n : ℕ) (s : Source α) : skip n (skip m s) = skip (m + n) s := by
  induction s generalizing m with
  | nil => simp
  | cons event s ih =>
      cases event with
      | chunk a l =>
          rw [← unread_cons]
          by_cases hm : m < (a :: l).length
          · rw [skip_unread_of_lt s hm]
            have hlen : ((a :: l).drop m).length = (a :: l).length - m := List.length_drop
            by_cases hn : m + n < (a :: l).length
            · rw [skip_unread_of_lt s (by omega), skip_unread_of_lt s hn, List.drop_drop]
            · rw [skip_unread_of_le s (by omega), skip_unread_of_le s (by omega), hlen]
              congr 1
              omega
          · rw [skip_unread_of_le s (by omega), skip_unread_of_le s (by omega), ih]
            congr 1
            omega
      | interrupt =>
          cases m with
          | zero => simp
          | succ m =>
              rw [skip_interrupt s (by omega), skip_interrupt s (by omega)]
              exact ih (m + 1)
      | failure =>
          cases m with
          | zero => simp
          | succ m => cases n <;> simp [skip]

theorem firstChunk_isPrefix_of (s : Source α) : firstChunk s <+: delivered s := by
  induction s with
  | nil => exact ⟨_, List.nil_append _⟩
  | cons event s ih =>
      cases event with
      | chunk a l => exact List.prefix_append _ _
      | interrupt => exact ih
      | failure => exact ⟨_, List.nil_append _⟩

end Source

end Kademlia.Foundations
