import Kademlia.Foundations.BoundedFifo
import Kademlia.Model.Commands

/-!
The command queue is a bounded queue.

The three indexes of the ring are kept consistent by every call (`RingOk`), and
the commands between `head` and `tail` are the list that a bounded queue would
hold. So every sequence of calls, of whatever threads, is answered as a bounded
queue answers it.
-/

namespace Kademlia.Commands

open Foundations Model

variable {α Thread : Type}

/-- The commands in the queue, from the first to be popped to the last. -/
def pending (q : CommandQueue α) : List α := ring q.items maxCommandsPending q.head q.count.toNat

structure RingOk (q : CommandQueue α) : Prop where
  head_nonneg : 0 ≤ q.head
  head_lt : q.head < maxCommandsPending
  count_nonneg : 0 ≤ q.count
  count_le : q.count ≤ maxCommandsPending
  tail_eq : q.tail = (q.head + q.count) % maxCommandsPending

/-! ### The two operations on a consistent ring -/

section Ring

variable {q : CommandQueue α}

theorem length_pending (h : RingOk q) : ((pending q).length : ℤ) = q.count := by
  rw [pending, length_ring, Int.toNat_of_nonneg h.count_nonneg]

theorem pending_eq_nil_iff (h : RingOk q) : pending q = [] ↔ q.count = 0 := by
  have hlen := length_pending h
  rw [← List.length_eq_zero_iff]
  omega

theorem ringOk_queueInit (q : CommandQueue α) (mutexInit : ℤ) :
    RingOk (queueInit q mutexInit).2 where
  head_nonneg := le_rfl
  head_lt := show 0 < maxCommandsPending by decide
  count_nonneg := le_rfl
  count_le := show 0 ≤ maxCommandsPending by decide
  tail_eq := rfl

theorem pending_queueInit (q : CommandQueue α) (mutexInit : ℤ) :
    pending (queueInit q mutexInit).2 = [] := rfl

theorem tmod_next {i : ℤ} (h : 0 ≤ i) :
    (i + 1).tmod maxCommandsPending = (i + 1) % maxCommandsPending :=
  Int.tmod_eq_emod_of_nonneg (by omega)

theorem queuePush_full (h : q.count = maxCommandsPending) (cmd : α) :
    queuePush q cmd = (false, q) := if_pos h

theorem queuePush_fst (h : q.count ≠ maxCommandsPending) (cmd : α) :
    (queuePush q cmd).1 = true := by
  rw [queuePush, if_neg h]

theorem ringOk_queuePush (h : RingOk q) (cmd : α) : RingOk (queuePush q cmd).2 := by
  by_cases hfull : q.count = maxCommandsPending
  · rwa [queuePush_full hfull]
  · have htail : 0 ≤ q.tail := by
      rw [h.tail_eq]
      exact Int.emod_nonneg _ (by decide)
    rw [queuePush, if_neg hfull]
    refine ⟨h.head_nonneg, h.head_lt, ?_, ?_, ?_⟩
    · exact Int.add_nonneg h.count_nonneg (by decide)
    · have hle := h.count_le
      change q.count + 1 ≤ maxCommandsPending
      omega
    · rw [tmod_next htail, h.tail_eq, Int.emod_add_emod, add_assoc]

theorem pending_queuePush (h : RingOk q) (hroom : q.count ≠ maxCommandsPending) (cmd : α) :
    pending (queuePush q cmd).2 = pending q ++ [cmd] := by
  have hnat : ((q.count.toNat : ℕ) : ℤ) = q.count := Int.toNat_of_nonneg h.count_nonneg
  have hsucc : (q.count + 1).toNat = q.count.toNat + 1 := by
    have := h.count_nonneg
    omega
  have hlt : (q.count.toNat : ℤ) < maxCommandsPending := by
    have := h.count_le
    omega
  rw [queuePush, if_neg hroom, pending, pending, hsucc, h.tail_eq, ← ring_update _ _ hlt, hnat]

theorem queuePop_empty (h : q.count = 0) : queuePop q = (none, q) := if_pos h

theorem ringOk_queuePop (h : RingOk q) : RingOk (queuePop q).2 := by
  by_cases hempty : q.count = 0
  · rwa [queuePop_empty hempty]
  · have hcount := h.count_nonneg
    have hle := h.count_le
    rw [queuePop, if_neg hempty]
    refine ⟨?_, ?_, ?_, ?_, ?_⟩
    · rw [tmod_next h.head_nonneg]
      exact Int.emod_nonneg _ (by decide)
    · rw [tmod_next h.head_nonneg]
      exact Int.emod_lt_of_pos _ (by decide)
    · change 0 ≤ q.count - 1
      omega
    · change q.count - 1 ≤ maxCommandsPending
      omega
    · change q.tail = _
      rw [tmod_next h.head_nonneg, Int.emod_add_emod, h.tail_eq]
      congr 1
      ring

theorem pending_queuePop (h : RingOk q) :
    (queuePop q).1 = (pending q).head? ∧ pending (queuePop q).2 = (pending q).tail := by
  by_cases hempty : q.count = 0
  · rw [queuePop_empty hempty, (pending_eq_nil_iff h).mpr hempty]
    exact ⟨rfl, rfl⟩
  · have hcount := h.count_nonneg
    have hsucc : q.count.toNat = (q.count - 1).toNat + 1 := by omega
    have hhead : q.head % maxCommandsPending = q.head :=
      Int.emod_eq_of_lt h.head_nonneg h.head_lt
    have hring : pending q = q.items q.head ::
        ring q.items maxCommandsPending ((q.head + 1) % maxCommandsPending)
          (q.count - 1).toNat := by
      rw [pending, hsucc, ring_succ, hhead]
    rw [hring, queuePop, if_neg hempty, pending, tmod_next h.head_nonneg]
    exact ⟨rfl, rfl⟩

end Ring

/-! ### Runs -/

/-- The call of a bounded queue that a call is, whatever the thread. -/
def toFifoCall : QueueCall Thread α → FifoCall α
  | .push _ cmd => .offer cmd
  | .pop => .take

def toFifoAnswer : QueueReturn α → FifoAnswer α
  | .pushed accepted => .offered accepted
  | .popped cmd => .taken cmd

def acceptedPushes (calls : List (QueueCall Thread α)) (returns : List (QueueReturn α)) : List α :=
  kept (calls.map toFifoCall) (returns.map toFifoAnswer)

def poppedCommands (returns : List (QueueReturn α)) : List α := taken (returns.map toFifoAnswer)

abbrev commandFifo : Machine (List α) (FifoCall α) (FifoAnswer α) := fifo maxCommandsPending.toNat

def Represents (q : CommandQueue α) (commands : List α) : Prop := RingOk q ∧ pending q = commands

theorem length_pending_eq_iff {q : CommandQueue α} (h : RingOk q) :
    (pending q).length = maxCommandsPending.toNat ↔ q.count = maxCommandsPending := by
  rw [← length_pending h, maxCommandsPending]
  omega

theorem callQueue_refines :
    Machine.Refines (callQueue : Machine _ (QueueCall Thread α) _) commandFifo toFifoCall
      toFifoAnswer (fun _ _ => True) Represents := by
  refine ⟨?_, ?_⟩
  · rintro q _ (⟨thread, cmd⟩ | _) ⟨hq, rfl⟩ -
    · by_cases hfull : q.count = maxCommandsPending
      · simp [callQueue, toFifoCall, toFifoAnswer, fifo, queuePush_full hfull,
          length_pending_eq_iff hq, hfull]
      · simp [callQueue, toFifoCall, toFifoAnswer, fifo, queuePush_fst hfull,
          length_pending_eq_iff hq, hfull]
    · simp [callQueue, toFifoCall, toFifoAnswer, fifo, (pending_queuePop hq).1]
  · rintro q _ (⟨thread, cmd⟩ | _) ⟨hq, rfl⟩ -
    · refine ⟨ringOk_queuePush hq cmd, ?_⟩
      by_cases hfull : q.count = maxCommandsPending
      · simp [callQueue, toFifoCall, fifo, queuePush_full hfull, length_pending_eq_iff hq, hfull]
      · simp [callQueue, toFifoCall, fifo, pending_queuePush hq hfull, length_pending_eq_iff hq,
          hfull]
    · exact ⟨ringOk_queuePop hq, (pending_queuePop hq).2⟩

/-- What a bounded queue of commands promises when `calls` were answered by
`returns` and left `q`. -/
structure BoundedQueue (calls : List (QueueCall Thread α)) (returns : List (QueueReturn α))
    (q : CommandQueue α) : Prop where
  /-- every call is answered as the bounded queue answers it -/
  returns_eq : returns.map toFifoAnswer = (commandFifo.run [] (calls.map toFifoCall)).1
  accepted_eq : acceptedPushes calls returns = poppedCommands returns ++ pending q
  push_rejected_iff : ∀ cmd, (queuePush q cmd).1 = false ↔ (pending q).length = maxCommandsPending
  push_rejected : ∀ cmd, (queuePush q cmd).1 = false → (queuePush q cmd).2 = q
  pop_rejected_iff : (queuePop q).1 = none ↔ pending q = []
  pop_rejected : (queuePop q).1 = none → (queuePop q).2 = q
  count_nonneg : 0 ≤ q.count
  count_le : q.count ≤ maxCommandsPending
  tail_eq : q.tail = (q.head + q.count) % maxCommandsPending

theorem queuePush_eq_false_iff (q : CommandQueue α) (cmd : α) :
    (queuePush q cmd).1 = false ↔ q.count = maxCommandsPending := by
  by_cases hfull : q.count = maxCommandsPending
  · simp [queuePush_full hfull, hfull]
  · simp [queuePush_fst hfull, hfull]

theorem queuePop_eq_none_iff (q : CommandQueue α) : (queuePop q).1 = none ↔ q.count = 0 := by
  by_cases hempty : q.count = 0 <;> simp [queuePop, hempty]

theorem boundedQueue_run (q : CommandQueue α) (mutexInit : ℤ)
    (calls : List (QueueCall Thread α)) :
    BoundedQueue calls (callQueue.run (queueInit q mutexInit).2 calls).1
      (callQueue.run (queueInit q mutexInit).2 calls).2 := by
  obtain ⟨hreturns, hring, hpending⟩ := callQueue_refines.run calls
    ⟨ringOk_queueInit q mutexInit, pending_queueInit q mutexInit⟩ Machine.meets_true
  refine ⟨hreturns, ?_, fun cmd => ?_, fun cmd h => ?_, ?_, fun h => ?_, hring.count_nonneg,
    hring.count_le, hring.tail_eq⟩
  · rw [acceptedPushes, poppedCommands, hreturns, hpending]
    exact append_kept_eq _ [] _
  · rw [queuePush_eq_false_iff, length_pending hring]
  · rw [queuePush_full ((queuePush_eq_false_iff _ cmd).mp h)]
  · rw [queuePop_eq_none_iff, pending_eq_nil_iff hring]
  · rw [queuePop_empty ((queuePop_eq_none_iff _).mp h)]

end Kademlia.Commands
