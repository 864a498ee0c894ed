import Mathlib.Data.List.Basic
import Mathlib.Algebra.Order.Group.Nat

/-!
Sinks that take their elements in pieces.

A sink is the list of what successive writes meet: some elements are taken, or
the write is interrupted and may be tried again, or it fails. At the end of the
list a write never returns. A sink whose failures are for good takes a prefix of
what is written to it, also when the writer goes on to the next text after a
failure.
-/

namespace Kademlia.Foundations

/-- What one write meets; it takes no more than it is given. -/
inductive Writing
  | took (n : ℕ)
  | interrupt
  | failure
  deriving DecidableEq, Repr

abbrev Sink := List Writing

namespace Sink

variable {α : Type*}

def Dead (s : Sink) : Prop := ∀ n, Writing.took n ∉ s

/-- Behind the first failure nothing is taken. -/
def Final : Sink → Prop
  | [] => True
  | .took _ :: s => Final s
  | .interrupt :: s => Final s
  | .failure :: s => Dead s

/-- What is taken of a text that is written until it is taken or a write fails, and the sink
behind it. -/
def push : List α → Sink → List α × Sink
  | [], s => ([], s)
  | _ :: _, [] => ([], [])
  | l@(_ :: _), .interrupt :: s => push l s
  | _ :: _, .failure :: s => ([], s)
  | l@(_ :: _), .took n :: s => (l.take n ++ (push (l.drop n) s).1, (push (l.drop n) s).2)

def pushEach : List (List α) → Sink → List α × Sink
  | [], s => ([], s)
  | l :: ls, s => ((push l s).1 ++ (pushEach ls (push l s).2).1, (pushEach ls (push l s).2).2)

def TakesEach : List (List α) → Sink → Prop
  | [], _ => True
  | l :: ls, s => (push l s).1 = l ∧ TakesEach ls (push l s).2

@[simp] theorem push_nil (s : Sink) : push ([] : List α) s = ([], s) := by
  rw [push]

@[simp] theorem pushEach_nil (s : Sink) : pushEach ([] : List (List α)) s = ([], s) := rfl

theorem pushEach_cons (l : List α) (ls : List (List α)) (s : Sink) :
    pushEach (l :: ls) s =
      ((push l s).1 ++ (pushEach ls (push l s).2).1, (pushEach ls (push l s).2).2) := rfl

theorem push_isPrefix (l : List α) (s : Sink) : (push l s).1 <+: l := by
  induction s generalizing l with
  | nil =>
      cases l with
      | nil => simp only [push_nil, List.nil_prefix]
      | cons a l => rw [push]; exact List.nil_prefix
  | cons event s ih =>
      cases l with
      | nil => simp only [push_nil, List.nil_prefix]
      | cons a l =>
          cases event with
          | took n =>
              rw [push]
              conv_rhs => rw [← List.take_append_drop n (a :: l)]
              exact (List.prefix_append_right_inj _).mpr (ih _)
          | interrupt => rw [push]; exact ih _
          | failure => rw [push]; exact List.nil_prefix

theorem Dead.push {s : Sink} (h : Dead s) (l : List α) :
    (Sink.push l s).1 = [] ∧ Dead (Sink.push l s).2 := by
  induction s with
  | nil => cases l <;> rw [Sink.push] <;> exact ⟨rfl, h⟩
  | cons event s ih =>
      have hs : Dead s := fun n hn => h n (List.mem_cons_of_mem _ hn)
      cases l with
      | nil => rw [Sink.push]; exact ⟨rfl, h⟩
      | cons a l =>
          cases event with
          | took n => exact absurd List.mem_cons_self (h n)
          | interrupt => rw [Sink.push]; exact ih hs
          | failure => rw [Sink.push]; exact ⟨rfl, hs⟩

theorem Dead.pushEach {s : Sink} (h : Dead s) (ls : List (List α)) :
    (Sink.pushEach ls s).1 = [] := by
  induction ls generalizing s with
  | nil => rfl
  | cons l ls ih =>
      obtain ⟨htaken, hrest⟩ := h.push l
      rw [pushEach_cons, htaken, ih hrest]
      rfl

/-- A text that is not taken whole is the last of which anything is. -/
theorem Final.push {s : Sink} (h : Final s) (l : List α) :
    ((Sink.push l s).1 = l ∧ Final (Sink.push l s).2) ∨ Dead (Sink.push l s).2 := by
  induction s generalizing l with
  | nil => cases l <;> rw [Sink.push] <;> exact Or.inr fun _ hn => absurd hn List.not_mem_nil
  | cons event s ih =>
      cases l with
      | nil => rw [Sink.push]; exact Or.inl ⟨rfl, h⟩
      | cons a l =>
          cases event with
          | took n =>
              rw [Sink.push]
              refine (ih h _).imp_left fun ⟨htaken, hrest⟩ => ⟨?_, hrest⟩
              rw [htaken, List.take_append_drop]
          | interrupt => rw [Sink.push]; exact ih h _
          | failure => rw [Sink.push]; exact Or.inr h

/-- What a sink with final failures takes is a prefix of all the texts together. -/
theorem Final.pushEach_isPrefix {s : Sink} (h : Final s) (ls : List (List α)) :
    (Sink.pushEach ls s).1 <+: ls.flatten := by
  induction ls generalizing s with
  | nil => exact List.prefix_rfl
  | cons l ls ih =>
      rw [pushEach_cons, List.flatten_cons]
      rcases h.push l with ⟨htaken, hrest⟩ | hdead
      · rw [htaken]
        exact (List.prefix_append_right_inj _).mpr (ih hrest)
      · rw [hdead.pushEach, List.append_nil]
        exact (push_isPrefix l s).trans (List.prefix_append _ _)

theorem length_pushEach_le (ls : List (List α)) (s : Sink) :
    (pushEach ls s).1.length ≤ ls.flatten.length := by
  induction ls generalizing s with
  | nil => exact le_rfl
  | cons l ls ih =>
      rw [pushEach_cons, List.flatten_cons, List.length_append, List.length_append]
      exact Nat.add_le_add (push_isPrefix l s).length_le (ih _)

/-- All is taken only if each text is. -/
theorem pushEach_eq_flatten_iff (ls : List (List α)) (s : Sink) :
    (pushEach ls s).1 = ls.flatten ↔ TakesEach ls s := by
  induction ls generalizing s with
  | nil => exact iff_of_true rfl trivial
  | cons l ls ih =>
      rw [pushEach_cons, List.flatten_cons, TakesEach, ← ih]
      constructor
      · intro heq
        have hlen := congrArg List.length heq
        rw [List.length_append, List.length_append] at hlen
        have hfirst := (push_isPrefix l s).length_le
        have hothers := length_pushEach_le ls (push l s).2
        have htaken : (push l s).1 = l := (push_isPrefix l s).eq_of_length (by omega)
        rw [htaken] at heq ⊢
        exact ⟨rfl, List.append_cancel_left heq⟩
      · rintro ⟨htaken, hothers⟩
        rw [htaken, hothers]

end Sink

end Kademlia.Foundations
