import Mathlib.Data.Fintype.Card
import Mathlib.Data.List.Nodup

/-!
Doubly linked lists in a heap.

A heap maps an address to the node that is there, if any. The same nodes can be
read in both directions: what is said of a list from its head, along `next`, is
said of the reversed list from its tail, along `prev`, by turning the shape of
the nodes around (`Chain.reverse`). So the rules are stated for one end only.
-/

namespace Kademlia.Foundations

structure Shape (N ι α : Type) where
  value : N → α
  next : N → Option ι
  prev : N → Option ι

variable {N ι α : Type}

def Shape.flip (s : Shape N ι α) : Shape N ι α := ⟨s.value, s.prev, s.next⟩

/-- Following `next` from a pointer meets nodes with these values, and then the null pointer. -/
inductive Enumerates (s : Shape N ι α) (heap : ι → Option N) : Option ι → List α → Prop
  | null : Enumerates s heap none []
  | node {a : ι} {n : N} {xs : List α} (h : heap a = some n)
      (rest : Enumerates s heap (s.next n) xs) : Enumerates s heap (some a) (s.value n :: xs)

def Cell (s : Shape N ι α) (heap : ι → Option N) (a : ι) (x : α) (prev next : Option ι) : Prop :=
  ∃ n, heap a = some n ∧ s.value n = x ∧ s.prev n = prev ∧ s.next n = next

/-! ### The ends of a list of nodes -/

def firstOr : List (ι × α) → Option ι → Option ι
  | [], after => after
  | p :: _, _ => some p.1

def lastOr : List (ι × α) → Option ι → Option ι
  | [], before => before
  | p :: l, _ => lastOr l (some p.1)

theorem firstOr_append (l l' : List (ι × α)) (after : Option ι) :
    firstOr (l ++ l') after = firstOr l (firstOr l' after) := by
  cases l with
  | nil => rfl
  | cons p l => rfl

theorem firstOr_reverse (l : List (ι × α)) (before : Option ι) :
    firstOr l.reverse before = lastOr l before := by
  induction l generalizing before with
  | nil => rfl
  | cons p l ih =>
      rw [List.reverse_cons, firstOr_append]
      exact ih _

theorem lastOr_reverse (l : List (ι × α)) (after : Option ι) :
    lastOr l.reverse after = firstOr l after := by
  rw [← firstOr_reverse, List.reverse_reverse]

theorem firstOr_none_iff {l : List (ι × α)} : firstOr l none = none ↔ l = [] := by
  cases l with
  | nil => exact iff_of_true rfl rfl
  | cons p l => exact iff_of_false (Option.some_ne_none _) (List.cons_ne_nil _ _)

/-! ### Segments -/

/-- The nodes of `l` are linked to each other in both directions, the first one back to
`before` and the last one on to `after`. -/
def Linked (s : Shape N ι α) (heap : ι → Option N) : Option ι → List (ι × α) → Option ι → Prop
  | _, [], _ => True
  | before, p :: l, after =>
      Cell s heap p.1 p.2 before (firstOr l after) ∧ Linked s heap (some p.1) l after

variable {s : Shape N ι α} {heap heap' : ι → Option N} {before after : Option ι}
  {l l' : List (ι × α)}

theorem Cell.flip {a : ι} {x : α} {prev next : Option ι} (h : Cell s heap a x prev next) :
    Cell s.flip heap a x next prev := by
  obtain ⟨n, hn, hvalue, hprev, hnext⟩ := h
  exact ⟨n, hn, hvalue, hnext, hprev⟩

theorem Cell.ne {a b : ι} {x : α} {prev next : Option ι} (h : Cell s heap a x prev next)
    (hb : heap b = none) : a ≠ b := by
  rintro rfl
  obtain ⟨n, hn, -⟩ := h
  rw [hn] at hb
  cases hb

theorem linked_append :
    Linked s heap before (l ++ l') after ↔
      Linked s heap before l (firstOr l' after) ∧ Linked s heap (lastOr l before) l' after := by
  induction l generalizing before with
  | nil => simp [Linked, lastOr]
  | cons p l ih =>
      rw [List.cons_append, Linked, Linked, ih, firstOr_append, and_assoc]
      rfl

/-- A segment depends on its own nodes only. -/
theorem Linked.frame (h : Linked s heap before l after)
    (hsame : ∀ p ∈ l, heap' p.1 = heap p.1) : Linked s heap' before l after := by
  induction l generalizing before with
  | nil => trivial
  | cons p l ih =>
      obtain ⟨⟨n, hn, hfields⟩, hrest⟩ := h
      refine ⟨⟨n, ?_, hfields⟩, ih hrest fun q hq => hsame q (List.mem_cons_of_mem p hq)⟩
      rw [hsame p List.mem_cons_self, hn]

theorem Linked.frame_of_ne (h : Linked s heap before l after) {a b : ι}
    (ha : a ∉ l.map Prod.fst) (hb : b ∉ l.map Prod.fst)
    (hsame : ∀ c, c ≠ a → c ≠ b → heap' c = heap c) : Linked s heap' before l after := by
  refine h.frame fun p hp => ?_
  have hmem := List.mem_map_of_mem (f := Prod.fst) hp
  apply hsame
  · rintro rfl
    exact ha hmem
  · rintro rfl
    exact hb hmem

theorem Linked.reverse (h : Linked s heap before l after) :
    Linked s.flip heap after l.reverse before := by
  induction l generalizing before with
  | nil => trivial
  | cons p l ih =>
      rw [List.reverse_cons, linked_append]
      refine ⟨ih h.2, ?_, trivial⟩
      rw [lastOr_reverse]
      exact h.1.flip

/-! ### Whole lists -/

/-- The nodes of a list between its two null pointers. -/
structure Chain (s : Shape N ι α) (heap : ι → Option N) (head tail : Option ι)
    (l : List (ι × α)) : Prop where
  linked : Linked s heap none l none
  distinct : (l.map Prod.fst).Nodup
  head_eq : head = firstOr l none
  tail_eq : tail = lastOr l none

namespace Chain

variable {head tail : Option ι} {a b : ι} {x y : α}

theorem empty : Chain s heap none none [] := ⟨trivial, List.nodup_nil, rfl, rfl⟩

theorem reverse (h : Chain s heap head tail l) : Chain s.flip heap tail head l.reverse where
  linked := h.linked.reverse
  distinct := by
    rw [List.map_reverse]
    exact List.nodup_reverse.mpr h.distinct
  head_eq := by rw [firstOr_reverse, h.tail_eq]
  tail_eq := by rw [lastOr_reverse, h.head_eq]

theorem head_eq_none_iff (h : Chain s heap head tail l) : head = none ↔ l = [] := by
  rw [h.head_eq, firstOr_none_iff]

theorem tail_eq_none_iff (h : Chain s heap head tail l) : tail = none ↔ l = [] := by
  rw [h.reverse.head_eq_none_iff, List.reverse_eq_nil_iff]

theorem length_le [Fintype ι] (h : Chain s heap head tail l) : l.length ≤ Fintype.card ι := by
  rw [← List.length_map Prod.fst]
  exact h.distinct.length_le_card

theorem enumerates (h : Chain s heap head tail l) : Enumerates s heap head (l.map Prod.snd) := by
  have hfrom : ∀ before, Linked s heap before l none →
      Enumerates s heap (firstOr l none) (l.map Prod.snd) := by
    clear h
    induction l with
    | nil => exact fun _ _ => .null
    | cons p l ih =>
        rintro before ⟨⟨n, hn, hvalue, -, hnext⟩, hrest⟩
        rw [List.map_cons, ← hvalue]
        refine .node hn ?_
        rw [hnext]
        exact ih _ hrest
  rw [h.head_eq]
  exact hfrom none h.linked

theorem enumerates_reverse (h : Chain s heap head tail l) :
    Enumerates s.flip heap tail (l.map Prod.snd).reverse := by
  rw [← List.map_reverse]
  exact h.reverse.enumerates

theorem single (h : Cell s heap a x none none) : Chain s heap (some a) (some a) [(a, x)] :=
  ⟨⟨h, trivial⟩, List.nodup_singleton a, rfl, rfl⟩

theorem cell (h : Chain s heap head tail ((a, x) :: l)) :
    Cell s heap a x none (firstOr l none) :=
  h.linked.1

theorem second_cell (h : Chain s heap head tail ((a, x) :: (b, y) :: l)) :
    Cell s heap b y (some a) (firstOr l none) :=
  h.linked.2.1

theorem ne_of_free (h : Chain s heap head tail l) (ha : heap a = none) :
    a ∉ l.map Prod.fst := by
  intro hmem
  have hcell : ∀ before, Linked s heap before l none → ∃ n, heap a = some n := by
    clear h
    induction l with
    | nil => cases hmem
    | cons p l ih =>
        rintro before ⟨⟨n, hn, -⟩, hrest⟩
        rcases List.mem_cons.mp hmem with rfl | hmem
        · exact ⟨n, hn⟩
        · exact ih hmem _ hrest
  obtain ⟨n, hn⟩ := hcell none h.linked
  rw [hn] at ha
  cases ha

theorem first_ne_second (h : Chain s heap head tail ((a, x) :: (b, y) :: l)) : a ≠ b := by
  have hdistinct := h.distinct
  rw [List.map_cons, List.map_cons, List.nodup_cons, List.mem_cons, not_or] at hdistinct
  exact hdistinct.1.1

variable [DecidableEq ι] {n m : N}

/-- The new node `n` at `a` goes in front of the head, which becomes `m`. -/
theorem push (h : Chain s heap head tail ((b, y) :: l)) (ha : heap a = none)
    (hn : s.value n = x ∧ s.prev n = none ∧ s.next n = some b)
    (hm : s.value m = y ∧ s.prev m = some a ∧ s.next m = firstOr l none) :
    Chain s (Function.update (Function.update heap a (some n)) b (some m)) (some a) tail
      ((a, x) :: (b, y) :: l) where
  linked := by
    have hfree := h.ne_of_free ha
    have hdistinct := h.distinct
    rw [List.map_cons, List.mem_cons, not_or] at hfree
    rw [List.map_cons, List.nodup_cons] at hdistinct
    refine ⟨⟨n, ?_, hn⟩, ⟨m, Function.update_self _ _ _, hm⟩, ?_⟩
    · rw [Function.update_of_ne hfree.1, Function.update_self]
    · refine h.linked.2.frame_of_ne hfree.2 hdistinct.1 fun c hca hcb => ?_
      rw [Function.update_of_ne hcb, Function.update_of_ne hca]
  distinct := List.nodup_cons.mpr ⟨h.ne_of_free ha, h.distinct⟩
  head_eq := rfl
  tail_eq := h.tail_eq

/-- The head at `a` is freed, and the node behind it becomes `m`. -/
theorem pop (h : Chain s heap head tail ((a, x) :: (b, y) :: l))
    (hm : s.value m = y ∧ s.prev m = none ∧ s.next m = firstOr l none) :
    Chain s (Function.update (Function.update heap b (some m)) a none) (some b) tail
      ((b, y) :: l) where
  linked := by
    have hdistinct := h.distinct
    rw [List.map_cons, List.map_cons, List.nodup_cons, List.nodup_cons, List.mem_cons,
      not_or] at hdistinct
    refine ⟨⟨m, ?_, hm⟩, ?_⟩
    · rw [Function.update_of_ne (Ne.symm hdistinct.1.1), Function.update_self]
    · refine h.linked.2.2.frame_of_ne hdistinct.1.2 hdistinct.2.1 fun c hca hcb => ?_
      rw [Function.update_of_ne hca, Function.update_of_ne hcb]
  distinct := (List.nodup_cons.mp h.distinct).2
  head_eq := rfl
  tail_eq := h.tail_eq

end Chain

end Kademlia.Foundations
