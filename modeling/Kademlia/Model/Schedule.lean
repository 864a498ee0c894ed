import Kademlia.Foundations.Machine
import Mathlib.Data.Int.Notation

/-!
`schedule.h`, and `handle_tasks` of `network.c`.

The functions of the tasks are called for their effect on the network only, so a
call is kept as the index of its task. The clock is what `time` returns, which
nothing keeps from going back.
-/

namespace Kademlia.Model

open Foundations

/-- `struct Schedule`, without the name, which nothing reads. -/
structure Schedule (F : Type) where
  nextRun : ℤ
  intervalSecs : ℤ
  func : Option F

inductive ScheduledFunc
  | broadcastDiscoveryRequest

/-- `tasks`, when the program starts. -/
def tasks : List (Schedule ScheduledFunc) :=
  [⟨0, 30, some .broadcastDiscoveryRequest⟩, ⟨0, 0, none⟩]

variable {F : Type}

/-- The loop of `handle_tasks` from `tasks[i]` on: the tasks that are called, and those after
it. -/
def handleTasksFrom (now : ℤ) : ℕ → List (Schedule F) → List ℕ × List (Schedule F)
  | _, [] => ([], [])
  | i, task :: tasks =>
      if task.func.isNone then ([], task :: tasks)
      else if now ≥ task.nextRun then
        (i :: (handleTasksFrom now (i + 1) tasks).1,
          { task with nextRun := now + task.intervalSecs } ::
            (handleTasksFrom now (i + 1) tasks).2)
      else
        ((handleTasksFrom now (i + 1) tasks).1, task :: (handleTasksFrom now (i + 1) tasks).2)

def handleTasks : Machine (List (Schedule F)) ℤ (List ℕ) := fun tasks now =>
  handleTasksFrom now 0 tasks

end Kademlia.Model
