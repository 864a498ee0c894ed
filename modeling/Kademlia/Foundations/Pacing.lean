import Mathlib.Algebra.Order.Ring.Int

/-!
Something that runs at most once in an interval.

A clock is read again and again, and may be set back or forward in between. A
reading is used if it has reached what is due, and then nothing is due until an
interval later. So two readings that are used are an interval apart, which bounds
how many there are in a window, and a reading that is not used is less than an
interval behind the last that was.
-/

namespace Kademlia.Foundations

/-- The readings that are used, with the next due at `due`. -/
def paced (interval : ℤ) : ℤ → List ℤ → List ℤ
  | _, [] => []
  | due, now :: clock =>
      if due ≤ now then now :: paced interval (now + interval) clock
      else paced interval due clock

/-- What is due behind the readings that were used. -/
def dueAfter (interval due : ℤ) (used : List ℤ) : ℤ :=
  used.getLast?.elim due (· + interval)

variable {interval due lo hi : ℤ} {clock : List ℤ}

theorem le_of_mem_paced (hinterval : 0 ≤ interval) {t : ℤ} (h : t ∈ paced interval due clock) :
    due ≤ t := by
  induction clock generalizing due with
  | nil => cases h
  | cons now clock ih =>
      rw [paced] at h
      split at h
      · next hdue =>
          rcases List.mem_cons.mp h with rfl | hmem
          · exact hdue
          · have hlater := ih hmem
            omega
      · exact ih h

/-- What is used is an interval apart, whatever the clock does. -/
theorem pairwise_paced (hinterval : 0 ≤ interval) (due : ℤ) (clock : List ℤ) :
    (paced interval due clock).Pairwise fun s t => s + interval ≤ t := by
  induction clock generalizing due with
  | nil => exact List.Pairwise.nil
  | cons now clock ih =>
      rw [paced]
      split
      · exact List.pairwise_cons.mpr ⟨fun t ht => le_of_mem_paced hinterval ht, ih _⟩
      · exact ih due

theorem dueAfter_cons (now : ℤ) (used : List ℤ) :
    dueAfter interval due (now :: used) = dueAfter interval (now + interval) used := by
  cases used with
  | nil => rfl
  | cons next used => rw [dueAfter, dueAfter, List.getLast?_cons_cons]; rfl

/-- One more reading is used if and only if it has reached what is due. -/
theorem paced_append_singleton (due : ℤ) (clock : List ℤ) (now : ℤ) :
    paced interval due (clock ++ [now]) =
      paced interval due clock ++
        if dueAfter interval due (paced interval due clock) ≤ now then [now] else [] := by
  induction clock generalizing due with
  | nil => rfl
  | cons first clock ih =>
      rw [List.cons_append, paced, paced]
      split
      · rw [ih, List.cons_append, dueAfter_cons]
      · exact ih due

/-- How many elements that are an interval apart a window has room for. -/
theorem length_mul_le_of_pairwise {used : List ℤ} (hwindow : lo ≤ hi + interval)
    (hused : used.Pairwise fun s t => s + interval ≤ t) (hlo : ∀ t ∈ used, lo ≤ t)
    (hhi : ∀ t ∈ used, t ≤ hi) : used.length * interval ≤ hi - lo + interval := by
  induction used generalizing lo with
  | nil =>
      rw [List.length_nil, Nat.cast_zero, zero_mul]
      omega
  | cons t used ih =>
      obtain ⟨hlater, hused⟩ := List.pairwise_cons.mp hused
      have hfirst := hlo t List.mem_cons_self
      have hlast := hhi t List.mem_cons_self
      have hrest : used.length * interval ≤ hi - (t + interval) + interval :=
        ih (by omega) hused hlater fun s hs => hhi s (List.mem_cons_of_mem _ hs)
      rw [List.length_cons, Nat.cast_add, Nat.cast_one, add_mul, one_mul]
      omega

end Kademlia.Foundations
