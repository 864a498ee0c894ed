import Mathlib.Data.List.Basic

/-!
Machines that answer: from a state and an input to an answer and the next
state.

A run feeds a machine a list of inputs. What every step keeps, every run keeps
(`invariant`), and a machine that answers as a simpler one does, step by step
and in related states, answers every run as the simpler one does (`Refines`).
Both come with a condition on the steps, because some machines keep their
promises only on some runs.
-/

namespace Kademlia.Foundations

abbrev Machine (S I O : Type) := S → I → O × S

namespace Machine

variable {S T I O I' O' : Type}

def run (m : Machine S I O) : S → List I → List O × S
  | s, [] => ([], s)
  | s, i :: is => ((m s i).1 :: (run m (m s i).2 is).1, (run m (m s i).2 is).2)

/-- Every step of the run is taken where `ok` holds. -/
def Meets (m : Machine S I O) (ok : S → I → Prop) : S → List I → Prop
  | _, [] => True
  | s, i :: is => ok s i ∧ Meets m ok (m s i).2 is

def Always (m : Machine S I O) (P : S → Prop) : S → List I → Prop
  | s, [] => P s
  | s, i :: is => P s ∧ Always m P (m s i).2 is

/-- Along a run `m` answers as `spec` does, and the states before and after each step are
related. -/
def Follows (m : Machine S I O) (spec : Machine T I O) (R : S → T → Prop) :
    S → T → List I → Prop
  | s, t, [] => R s t
  | s, t, i :: is => R s t ∧ (m s i).1 = (spec t i).1 ∧ Follows m spec R (m s i).2 (spec t i).2 is

variable (m : Machine S I O) (s : S) (i : I) (is js : List I)

@[simp] theorem run_nil : m.run s [] = ([], s) := rfl

@[simp] theorem run_cons :
    m.run s (i :: is) = ((m s i).1 :: (m.run (m s i).2 is).1, (m.run (m s i).2 is).2) := rfl

@[simp] theorem meets_nil (ok : S → I → Prop) : m.Meets ok s [] := trivial

@[simp] theorem meets_cons (ok : S → I → Prop) :
    m.Meets ok s (i :: is) ↔ ok s i ∧ m.Meets ok (m s i).2 is := Iff.rfl

theorem run_append_state : (m.run s (is ++ js)).2 = (m.run (m.run s is).2 js).2 := by
  induction is generalizing s with
  | nil => rfl
  | cons i is ih => exact ih _

theorem meets_append (ok : S → I → Prop) :
    m.Meets ok s (is ++ js) ↔ m.Meets ok s is ∧ m.Meets ok (m.run s is).2 js := by
  induction is generalizing s with
  | nil => simp
  | cons i is ih => simp only [List.cons_append, meets_cons, ih, run_cons, and_assoc]

variable {m s is}

/-- What every step keeps, every run keeps. -/
theorem invariant {ok : S → I → Prop} {Inv : S → Prop}
    (hstep : ∀ s i, Inv s → ok s i → Inv (m s i).2) (hs : Inv s) (hok : m.Meets ok s is) :
    Inv (m.run s is).2 := by
  induction is generalizing s with
  | nil => exact hs
  | cons i is ih => exact ih (hstep s i hs hok.1) hok.2

theorem always_of_invariant {ok : S → I → Prop} {Inv P : S → Prop}
    (hstep : ∀ s i, Inv s → ok s i → Inv (m s i).2) (hP : ∀ s, Inv s → P s) (hs : Inv s)
    (hok : m.Meets ok s is) : m.Always P s is := by
  induction is generalizing s with
  | nil => exact hP s hs
  | cons i is ih => exact ⟨hP s hs, ih (hstep s i hs hok.1) hok.2⟩

/-- Two conditions that agree wherever a run can get to are met by the same runs. -/
theorem meets_congr {ok ok' : S → I → Prop} {Inv : S → Prop}
    (hstep : ∀ s i, Inv s → Inv (m s i).2) (hok : ∀ s i, Inv s → (ok s i ↔ ok' s i)) (hs : Inv s) :
    m.Meets ok s is ↔ m.Meets ok' s is := by
  induction is generalizing s with
  | nil => rfl
  | cons i is ih => exact and_congr (hok s i hs) (ih (hstep s i hs))

theorem Always.last {P : S → Prop} (h : m.Always P s is) : P (m.run s is).2 := by
  induction is generalizing s with
  | nil => exact h
  | cons i is ih => exact ih h.2

/-- `m` answers as `spec` does, up to the names of inputs and answers, on steps that
meet `ok`, and the states stay related. -/
structure Refines (m : Machine S I O) (spec : Machine T I' O') (input : I → I') (answer : O → O')
    (ok : T → I' → Prop) (R : S → T → Prop) : Prop where
  answers : ∀ {s t i}, R s t → ok t (input i) → answer (m s i).1 = (spec t (input i)).1
  keeps : ∀ {s t i}, R s t → ok t (input i) → R (m s i).2 (spec t (input i)).2

theorem Refines.run {spec : Machine T I' O'} {input : I → I'} {answer : O → O'}
    {ok : T → I' → Prop} {R : S → T → Prop} (h : m.Refines spec input answer ok R)
    (is : List I) {t : T} (hR : R s t) (hok : spec.Meets ok t (is.map input)) :
    (m.run s is).1.map answer = (spec.run t (is.map input)).1 ∧
      R (m.run s is).2 (spec.run t (is.map input)).2 := by
  induction is generalizing s t with
  | nil => exact ⟨rfl, hR⟩
  | cons i is ih =>
      obtain ⟨hanswers, hlast⟩ := ih (h.keeps hR hok.1) hok.2
      refine ⟨?_, hlast⟩
      rw [run_cons, List.map_cons, h.answers hR hok.1, hanswers, List.map_cons, run_cons]

section Follows

variable {spec : Machine T I O} {R : S → T → Prop} {t : T}

theorem Follows.start (h : m.Follows spec R s t is) : R s t := by
  cases is with
  | nil => exact h
  | cons i is => exact h.1

/-- If steps that meet `ok` keep an invariant and all others end in states that are not
related, then exactly the runs that meet `ok` follow `spec`. -/
theorem follows_iff_meets {Inv : S → T → Prop} {env : S → I → Prop} {ok : T → I → Prop}
    (hR : ∀ {s t}, Inv s t → R s t)
    (hkeep : ∀ {s t i}, Inv s t → env s i → ok t i →
      (m s i).1 = (spec t i).1 ∧ Inv (m s i).2 (spec t i).2)
    (hbreak : ∀ {s t i}, Inv s t → env s i → ¬ ok t i → ¬ R (m s i).2 (spec t i).2)
    (hs : Inv s t) (henv : m.Meets env s is) : m.Follows spec R s t is ↔ spec.Meets ok t is := by
  induction is generalizing s t with
  | nil => exact iff_of_true (hR hs) trivial
  | cons i is ih =>
      by_cases hok : ok t i
      · obtain ⟨hanswer, hnext⟩ := hkeep hs henv.1 hok
        have hrest := ih hnext henv.2
        exact ⟨fun h => ⟨hok, hrest.mp h.2.2⟩, fun h => ⟨hR hs, hanswer, hrest.mpr h.2⟩⟩
      · exact iff_of_false (fun h => hbreak hs henv.1 hok h.2.2.start) fun h => hok h.1

end Follows

theorem meets_true : m.Meets (fun _ _ => True) s is := by
  induction is generalizing s with
  | nil => trivial
  | cons i is ih => exact ⟨trivial, ih⟩

end Machine

end Kademlia.Foundations
