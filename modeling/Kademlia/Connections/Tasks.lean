import Kademlia.Foundations.Pacing
import Kademlia.Model.Schedule

/-!
How often the tasks of the network thread run.

Each task keeps its own time, and the loop over them ends at the first that has
no function. So over the updates each is paced by its interval.
-/

namespace Kademlia.Connections

open Foundations Model

variable {F : Type}

def live (tasks : List (Schedule F)) : List (Schedule F) :=
  tasks.takeWhile fun task => task.func.isSome

/-- The readings of the clock at which the task runs. -/
def ran (i : ℕ) (tasks : List (Schedule F)) (clock : List ℤ) : List ℤ :=
  ((clock.zip (handleTasks.run tasks clock).1).filter fun update => i ∈ update.2).map Prod.fst

/-! ### One update -/

theorem le_of_mem_handleTasksFrom {now : ℤ} {i j : ℕ} {tasks : List (Schedule F)}
    (h : j ∈ (handleTasksFrom now i tasks).1) : i ≤ j := by
  induction tasks generalizing i with
  | nil => cases h
  | cons task tasks ih =>
      rw [handleTasksFrom] at h
      split_ifs at h
      · cases h
      · rcases List.mem_cons.mp h with rfl | hmem
        · exact le_rfl
        · exact (Nat.le_succ i).trans (ih hmem)
      · exact (Nat.le_succ i).trans (ih h)

/-- A task runs if it is due, and then waits; nothing else changes it. -/
theorem handleTasksFrom_live {now : ℤ} {j : ℕ} {tasks : List (Schedule F)} {task : Schedule F}
    (h : (live tasks)[j]? = some task) (i : ℕ) :
    (i + j ∈ (handleTasksFrom now i tasks).1 ↔ task.nextRun ≤ now) ∧
      (live (handleTasksFrom now i tasks).2)[j]? =
        some (if task.nextRun ≤ now then { task with nextRun := now + task.intervalSecs }
          else task) := by
  induction tasks generalizing i j with
  | nil => cases h
  | cons first tasks ih =>
      rw [live, List.takeWhile_cons] at h
      cases hfunc : first.func with
      | none =>
          rw [hfunc] at h
          cases h
      | some func =>
          rw [hfunc, if_pos Option.isSome_some] at h
          rw [handleTasksFrom, hfunc, if_neg (by simp)]
          cases j with
          | zero =>
              obtain rfl : first = task := by simpa using h
              have hlater : i ∉ (handleTasksFrom now (i + 1) tasks).1 := fun hmem =>
                absurd (le_of_mem_handleTasksFrom hmem) (by omega)
              split
              · next hdue => simp [live, hfunc, show first.nextRun ≤ now from hdue]
              · next hdue => simp [live, hfunc, show ¬ first.nextRun ≤ now from hdue, hlater]
          | succ j =>
              have hnext := ih (i := i + 1) (j := j) (by simpa [live] using h)
              have hindex : i + (j + 1) = i + 1 + j := by omega
              have hother : i + 1 + j ≠ i := by omega
              split
              · simpa [live, hfunc, hindex, hother] using hnext
              · simpa [live, hfunc, hindex] using hnext

/-! ### Every update -/

theorem ran_cons (i : ℕ) (tasks : List (Schedule F)) (now : ℤ) (clock : List ℤ) :
    ran i tasks (now :: clock) =
      if i ∈ (handleTasksFrom now 0 tasks).1 then
        now :: ran i (handleTasksFrom now 0 tasks).2 clock
      else ran i (handleTasksFrom now 0 tasks).2 clock := by
  rw [ran, Machine.run_cons, List.zip_cons_cons, List.filter_cons, handleTasks]
  simp only [decide_eq_true_eq]
  split
  · rfl
  · rfl

theorem ran_eq_paced {i : ℕ} {tasks : List (Schedule F)} {task : Schedule F}
    (h : (live tasks)[i]? = some task) (clock : List ℤ) :
    ran i tasks clock = paced task.intervalSecs task.nextRun clock := by
  induction clock generalizing tasks task with
  | nil => rfl
  | cons now clock ih =>
      obtain ⟨hran, hnext⟩ := handleTasksFrom_live h 0
      rw [Nat.zero_add] at hran
      rw [ran_cons, ih hnext, paced]
      rcases Decidable.em (task.nextRun ≤ now) with hdue | hdue
      · rw [if_pos (hran.mpr hdue), if_pos hdue, if_pos hdue]
      · rw [if_neg (fun hmem => hdue (hran.mp hmem)), if_neg hdue, if_neg hdue]

/-- A task never runs twice within its interval, however often the network is updated and
whatever the clock does; so it runs at most once more in a window than the window has intervals.
And it runs in the first update at which its interval is over. -/
theorem tasks_paced {i : ℕ} {tasks : List (Schedule F)} {task : Schedule F}
    (h : (live tasks)[i]? = some task) (hinterval : 0 ≤ task.intervalSecs) (clock : List ℤ) :
    ((ran i tasks clock).Pairwise fun s t => s + task.intervalSecs ≤ t) ∧
      (∀ lo hi, lo ≤ hi → ((ran i tasks clock).filter fun t => lo ≤ t ∧ t ≤ hi).length *
        task.intervalSecs ≤ hi - lo + task.intervalSecs) ∧
      ∀ now, ran i tasks (clock ++ [now]) = ran i tasks clock ++
        if dueAfter task.intervalSecs task.nextRun (ran i tasks clock) ≤ now then [now]
        else [] := by
  simp only [ran_eq_paced h]
  have happart := pairwise_paced hinterval task.nextRun clock
  refine ⟨happart, fun lo hi hwindow => ?_, paced_append_singleton task.nextRun clock⟩
  apply length_mul_le_of_pairwise (by omega) (happart.filter _)
  · exact fun t ht => (by simpa using (List.mem_filter.mp ht).2 : lo ≤ t ∧ t ≤ hi).1
  · exact fun t ht => (by simpa using (List.mem_filter.mp ht).2 : lo ≤ t ∧ t ≤ hi).2

/-- The broadcasts of the program, over a clock that is set back. -/
theorem tasks_paced_broadcast :
    ((ran 0 tasks [100, 120, 131, 5, 140, 161]).Pairwise fun s t => s + 30 ≤ t) ∧
      (∀ lo hi, lo ≤ hi → ((ran 0 tasks [100, 120, 131, 5, 140, 161]).filter fun t =>
        lo ≤ t ∧ t ≤ hi).length * 30 ≤ hi - lo + 30) ∧
      ∀ now, ran 0 tasks ([100, 120, 131, 5, 140, 161] ++ [now]) =
        ran 0 tasks [100, 120, 131, 5, 140, 161] ++
          if dueAfter 30 0 (ran 0 tasks [100, 120, 131, 5, 140, 161]) ≤ now then [now] else [] :=
  have htask : (live tasks)[0]? = some ⟨0, 30, some .broadcastDiscoveryRequest⟩ := rfl
  tasks_paced htask (by decide) _

example : ran 0 tasks [100, 120, 131, 5, 140, 161] = [100, 131, 161] := by decide

end Kademlia.Connections
