import Mathlib.Data.List.Forall2
import Mathlib.Data.List.GetD
import Mathlib.Data.List.Infix
import Mathlib.Data.Nat.Find

/-!
Sequences that end at a terminator, and where one sequence occurs in another.

The elements of an occurrence need not be equal to those that are looked for: a
relation says which of them stand for each other.
-/

namespace Kademlia.Foundations

/-- A sequence in memory that is over at the first element that is `stop`. -/
structure Terminated {α : Type*} (stop : α) where
  cells : ℕ → α
  length : ℕ
  terminated : cells length = stop
  before : ∀ i < length, cells i ≠ stop

namespace Terminated

variable {α : Type*} {stop : α} (s : Terminated stop) {i : ℕ}

def text : List α := (List.range s.length).map s.cells

@[simp] theorem length_text : s.text.length = s.length := by
  rw [text, List.length_map, List.length_range]

theorem cells_eq_iff (hi : i ≤ s.length) : s.cells i = stop ↔ i = s.length := by
  constructor
  · intro hstop
    by_contra hne
    exact s.before i (lt_of_le_of_ne hi hne) hstop
  · rintro rfl
    exact s.terminated

theorem lt_length (hi : i ≤ s.length) (h : s.cells i ≠ stop) : i < s.length :=
  lt_of_le_of_ne hi fun heq => h ((s.cells_eq_iff hi).mpr heq)

theorem drop_text (hi : i < s.length) : s.text.drop i = s.cells i :: s.text.drop (i + 1) := by
  have hlen : i < s.text.length := by rwa [length_text]
  rw [List.drop_eq_getElem_cons hlen]
  simp [text]

@[simp] theorem drop_length_text : s.text.drop s.length = [] :=
  List.drop_of_length_le s.length_text.le

def ofList (l : List α) (h : stop ∉ l) : Terminated stop where
  cells i := l.getD i stop
  length := l.length
  terminated := List.getD_eq_default l stop le_rfl
  before i hi heq := by
    rw [List.getD_eq_getElem l stop hi] at heq
    exact h (heq ▸ List.getElem_mem hi)

theorem text_ofList {l : List α} (h : stop ∉ l) : (ofList l h).text = l := by
  apply List.ext_getElem
  · exact length_text _
  · intro i _ hi
    simp [text, ofList, hi]

end Terminated

/-! ### Occurrences -/

section Occurrences

variable {α β : Type*} {r : α → β → Prop} {s : List α} {needle : List β} {a : α} {b : β} {k : ℕ}

def BeginsWith (r : α → β → Prop) (s : List α) (needle : List β) : Prop :=
  ∃ part, part <+: s ∧ List.Forall₂ r part needle

theorem beginsWith_nil (s : List α) : BeginsWith r s [] := ⟨[], List.nil_prefix, .nil⟩

theorem not_beginsWith_cons : ¬ BeginsWith r [] (b :: needle) := by
  rintro ⟨part, hpart, hall⟩
  rw [List.prefix_nil.mp hpart] at hall
  cases hall

theorem beginsWith_cons_cons :
    BeginsWith r (a :: s) (b :: needle) ↔ r a b ∧ BeginsWith r s needle := by
  constructor
  · rintro ⟨part, hpart, hall⟩
    cases hall with
    | cons hfirst hrest =>
        obtain ⟨rfl, hbehind⟩ := List.cons_prefix_cons.mp hpart
        exact ⟨hfirst, _, hbehind, hrest⟩
  · rintro ⟨hfirst, part, hpart, hall⟩
    exact ⟨a :: part, List.cons_prefix_cons.mpr ⟨rfl, hpart⟩, .cons hfirst hall⟩

def OccursAt (r : α → β → Prop) (s : List α) (needle : List β) (k : ℕ) : Prop :=
  ∃ before part after, s = before ++ part ++ after ∧ before.length = k ∧
    List.Forall₂ r part needle

theorem occursAt_iff : OccursAt r s needle k ↔ k ≤ s.length ∧ BeginsWith r (s.drop k) needle := by
  constructor
  · rintro ⟨before, part, after, rfl, rfl, hall⟩
    rw [List.append_assoc, List.drop_left]
    exact ⟨by simp, part, List.prefix_append _ _, hall⟩
  · rintro ⟨hk, part, ⟨after, hafter⟩, hall⟩
    refine ⟨s.take k, part, after, ?_, List.length_take_of_le hk, hall⟩
    rw [List.append_assoc, hafter, List.take_append_drop]

theorem occursAt_nil : OccursAt r s [] k ↔ k ≤ s.length := by
  rw [occursAt_iff, and_iff_left (beginsWith_nil _)]

/-- An occurrence ends inside of `s`, if only at its end. -/
theorem OccursAt.add_length_le (h : OccursAt r s needle k) : k + needle.length ≤ s.length := by
  obtain ⟨before, part, after, rfl, rfl, hall⟩ := h
  rw [List.length_append, List.length_append, hall.length_eq]
  omega

structure FirstAt (r : α → β → Prop) (s : List α) (needle : List β) (k : ℕ) : Prop where
  occurs : OccursAt r s needle k
  first : ∀ j < k, ¬ OccursAt r s needle j

theorem firstAt_nil (s : List α) : FirstAt r s ([] : List β) 0 where
  occurs := occursAt_nil.mpr (Nat.zero_le _)
  first j hj := absurd hj (Nat.not_lt_zero j)

theorem FirstAt.unique {k' : ℕ} (h : FirstAt r s needle k) (h' : FirstAt r s needle k') :
    k = k' := by
  apply le_antisymm
  · exact not_lt.mp fun hlt => h.first k' hlt h'.occurs
  · exact not_lt.mp fun hlt => h'.first k hlt h.occurs

theorem exists_firstAt (h : OccursAt r s needle k) : ∃ j, FirstAt r s needle j := by
  classical
  exact ⟨Nat.find ⟨k, h⟩, Nat.find_spec ⟨k, h⟩, fun _ hj => Nat.find_min ⟨k, h⟩ hj⟩

end Occurrences

end Kademlia.Foundations
