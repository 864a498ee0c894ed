import Kademlia.Foundations.BubbleSort
import Kademlia.Foundations.Turning

/-!
What bubble sort does to elements that compare equal.

A pass carries one element along, and those that compare equal to it go past it.
So the elements that tie with `v` line up as the list is gone through, each
greater element turns the ones in front of it, and the passes in which no greater
element is left take them off the front of the row, to stand in reverse order.
-/

namespace Kademlia.Foundations.BubbleSort

open Turning

variable {α : Type*} (lt : α → α → Bool)

/-- Neither element is smaller than the other one. -/
def tied (a b : α) : Bool := !lt a b && !lt b a

/-- The elements that tie with `v`, turned by the greater ones. -/
abbrev tiesTurned (v : α) (l : List α) : List α := turned (tied lt v) (lt v) l

/-- A pass from the element `c` on: what it leaves behind, and what it carries to the end. -/
def carry : α → List α → List α × α
  | c, [] => ([], c)
  | c, a :: l =>
      if lt c a then (c :: (carry a l).1, (carry a l).2) else (a :: (carry c l).1, (carry c l).2)

theorem pass_eq_carry (c : α) (l : List α) :
    pass lt l.length (c :: l) = (carry lt c l).1 ++ [(carry lt c l).2] := by
  induction l generalizing c with
  | nil => rfl
  | cons a l ih =>
      rw [List.length_cons, pass_cons_cons, carry]
      split_ifs
      · rw [ih, List.cons_append]
      · rw [ih, List.cons_append]

theorem carry_length (c : α) (l : List α) : (carry lt c l).1.length = l.length := by
  have hlen := congrArg List.length (pass_eq_carry lt c l)
  rw [pass_length, List.length_append, List.length_singleton, List.length_cons] at hlen
  omega

variable {lt} {v : α}

theorem tied_iff {a b : α} : tied lt a b = true ↔ lt a b = false ∧ lt b a = false := by
  simp [tied]

theorem trichotomy (lt : α → α → Bool) (v a : α) :
    tied lt v a = true ∨ lt v a = true ∨ lt v a = false ∧ lt a v = true := by
  rw [tied_iff]
  cases lt v a with
  | true => simp
  | false => cases lt a v <;> simp

theorem tied_self (h : Order lt) (a : α) : tied lt a a = true :=
  tied_iff.mpr ⟨h.irrefl a, h.irrefl a⟩

/-! ### One element of a row -/

theorem turnStep_of_tied {row : List α} {a : α} (ha : tied lt v a = true) :
    turnStep (tied lt v) (lt v) row a = row ++ [a] := if_pos ha

theorem turnStep_of_greater {row : List α} {a : α} (ha : lt v a = true) :
    turnStep (tied lt v) (lt v) row a = row.rotate 1 := by
  simp [turnStep, tied, ha]

theorem turnStep_of_smaller {row : List α} {a : α} (ha : lt v a = false) (ha' : lt a v = true) :
    turnStep (tied lt v) (lt v) row a = row := by
  simp [turnStep, tied, ha, ha']

/-! ### One pass -/

theorem greater_of_lt (h : Order lt) {c a : α} (hc : lt c v = false) (hca : lt c a = true) :
    lt v a = true :=
  (h.lt_or_lt hca v).resolve_left (by simp [hc])

theorem carry_of_lt {c a : α} (h : lt c a = true) (l : List α) :
    carry lt c (a :: l) = (c :: (carry lt a l).1, (carry lt a l).2) := if_pos h

theorem carry_of_not_lt {c a : α} (h : lt c a = false) (l : List α) :
    carry lt c (a :: l) = (a :: (carry lt c l).1, (carry lt c l).2) := by
  simp [carry, h]

variable (lt v) in
/-- The element that a pass carries to the end, if it ties with `v`. -/
def carriedTie (c : α) (l : List α) : List α := [(carry lt c l).2].filter (tied lt v)

/-- A greater element is carried: it turns the row at the end instead of at its place. -/
theorem foldl_carry_of_greater (h : Order lt) {c : α} (hc : lt v c = true) (l row : List α) :
    (carry lt c l).1.foldl (turnStep (tied lt v) (lt v)) row =
        l.foldl (turnStep (tied lt v) (lt v)) row ∧
      lt v (carry lt c l).2 = true := by
  induction l generalizing c row with
  | nil => exact ⟨rfl, hc⟩
  | cons a l ih =>
      cases hca : lt c a with
      | true =>
          have ha : lt v a = true := greater_of_lt h (h.asymm v c hc) hca
          obtain ⟨hfold, hlast⟩ := ih ha (row.rotate 1)
          rw [carry_of_lt hca]
          refine ⟨?_, hlast⟩
          rw [List.foldl_cons, List.foldl_cons, turnStep_of_greater hc, turnStep_of_greater ha,
            hfold]
      | false =>
          obtain ⟨hfold, hlast⟩ := ih hc (turnStep (tied lt v) (lt v) row a)
          rw [carry_of_not_lt hca]
          exact ⟨hfold, hlast⟩

theorem carriedTie_of_greater (h : Order lt) {c : α} (hc : lt v c = true) (l : List α) :
    carriedTie lt v c l = [] := by
  have hlast := (foldl_carry_of_greater h hc l []).2
  simp [carriedTie, tied, hlast]

/-- The first of a row is carried: the others go past it. -/
theorem foldl_carry_of_tied (h : Order lt) {c : α} (hc : tied lt v c = true) (l row : List α) :
    l.foldl (turnStep (tied lt v) (lt v)) (c :: row) =
      carriedTie lt v c l ++ (carry lt c l).1.foldl (turnStep (tied lt v) (lt v)) row := by
  obtain ⟨hvc, hcv⟩ := tied_iff.mp hc
  induction l generalizing row with
  | nil => simp [carriedTie, carry, hc]
  | cons a l ih =>
      cases hca : lt c a with
      | true =>
          have ha : lt v a = true := greater_of_lt h hcv hca
          have htie := carriedTie_of_greater h ha l
          rw [carriedTie] at htie
          rw [carriedTie, carry_of_lt hca, htie, List.nil_append, List.foldl_cons, List.foldl_cons,
            turnStep_of_greater ha, turnStep_of_tied hc, (foldl_carry_of_greater h ha l _).1,
            List.rotate_cons_succ, List.rotate_zero]
      | false =>
          have hnot : lt v a = false := h.trans_not a c v hca hvc
          have hstep : turnStep (tied lt v) (lt v) (c :: row) a =
              c :: turnStep (tied lt v) (lt v) row a := by
            rcases trichotomy lt v a with ha | ha | ⟨ha, ha'⟩
            · rw [turnStep_of_tied ha, turnStep_of_tied ha, List.cons_append]
            · rw [hnot] at ha
              cases ha
            · rw [turnStep_of_smaller ha ha', turnStep_of_smaller ha ha']
          rw [List.foldl_cons, hstep, ih, carriedTie, carriedTie, carry_of_not_lt hca,
            List.foldl_cons]

/-- A smaller element is carried up to the first one that is not smaller. -/
theorem foldl_carry_of_smaller (h : Order lt) {c : α} (hc : lt v c = false)
    (hc' : lt c v = true) (l : List α) :
    l.foldl (turnStep (tied lt v) (lt v)) [] =
      carriedTie lt v c l ++ (carry lt c l).1.foldl (turnStep (tied lt v) (lt v)) [] := by
  induction l generalizing c with
  | nil => simp [carriedTie, carry, tied, hc']
  | cons a l ih =>
      cases hca : lt c a with
      | true =>
          have hfront : carriedTie lt v c (a :: l) = carriedTie lt v a l := by
            rw [carriedTie, carriedTie, carry_of_lt hca]
          rw [hfront, carry_of_lt hca, List.foldl_cons, List.foldl_cons,
            turnStep_of_smaller hc hc']
          rcases trichotomy lt v a with ha | ha | ⟨ha, ha'⟩
          · rw [turnStep_of_tied ha, List.nil_append, foldl_carry_of_tied h ha]
          · rw [turnStep_of_greater ha, List.rotate_nil, carriedTie_of_greater h ha,
              (foldl_carry_of_greater h ha l []).1, List.nil_append]
          · rw [turnStep_of_smaller ha ha', ih ha ha']
      | false =>
          have ha' : lt a v = true := (h.lt_or_lt hc' a).resolve_left (by simp [hca])
          rw [carriedTie, carry_of_not_lt hca, List.foldl_cons, List.foldl_cons,
            turnStep_of_smaller (h.asymm a v ha') ha', ih hc hc', carriedTie]

/-- A pass takes the first of the row away if there is no greater element. -/
theorem tiesTurned_cons (h : Order lt) (v c : α) (l : List α) :
    tiesTurned lt v (c :: l) = carriedTie lt v c l ++ tiesTurned lt v (carry lt c l).1 := by
  rw [tiesTurned, turned, List.foldl_cons]
  rcases trichotomy lt v c with hc | hc | ⟨hc, hc'⟩
  · rw [turnStep_of_tied hc, List.nil_append, foldl_carry_of_tied h hc]
    rfl
  · rw [turnStep_of_greater hc, List.rotate_nil, carriedTie_of_greater h hc, List.nil_append,
      tiesTurned, turned, (foldl_carry_of_greater h hc l []).1]
  · rw [turnStep_of_smaller hc hc', foldl_carry_of_smaller h hc hc']
    rfl

/-! ### The whole sort -/

/-- The invariant of the passes: the row of `front` is still to come, in reverse order. -/
theorem filter_rounds (h : Order lt) (v : α) (k : ℕ) (front back : List α)
    (hk : front.length = k + 1) :
    (rounds lt k back.length (front ++ back)).filter (tied lt v) =
      (tiesTurned lt v front).reverse ++ back.filter (tied lt v) := by
  induction k generalizing front back with
  | zero =>
      obtain ⟨a, rfl⟩ := List.length_eq_one_iff.mp hk
      have hrow : tiesTurned lt v [a] = [a].filter (tied lt v) := by
        have hpass := tiesTurned_cons h v a []
        rw [hpass]
        exact List.append_nil _
      have hrev : ([a].filter (tied lt v)).reverse = [a].filter (tied lt v) := by
        rw [List.filter_cons, List.filter_nil]
        split_ifs
        · rfl
        · rfl
      rw [rounds, List.filter_append, hrow, hrev]
  | succ k ih =>
      obtain ⟨c, l, rfl⟩ := List.exists_cons_of_length_eq_add_one hk
      have hcount : (c :: l ++ back).length - 1 - back.length = l.length := by
        rw [List.length_append, List.length_cons]
        omega
      have hlen : (carry lt c l).1.length = k + 1 := by
        rw [carry_length]
        simpa using hk
      have hnext := ih (carry lt c l).1 ((carry lt c l).2 :: back) hlen
      rw [rounds, hcount, pass_append lt (c :: l) back (by simp), pass_eq_carry,
        List.append_assoc, List.singleton_append]
      rw [List.length_cons] at hnext
      rw [hnext, tiesTurned_cons h, List.reverse_append, List.append_assoc]
      congr 1
      rw [carriedTie, List.filter_cons, List.filter_cons, List.filter_nil]
      split_ifs
      · rfl
      · rfl

/-- The elements that tie with `v` stand in the reverse order of their row. -/
theorem filter_sort (h : Order lt) (v : α) (l : List α) :
    (sort lt l).filter (tied lt v) = (tiesTurned lt v l).reverse := by
  cases l with
  | nil => rfl
  | cons a l =>
      have hrounds := filter_rounds h v l.length (a :: l) [] rfl
      rw [List.append_nil, List.filter_nil, List.append_nil, List.length_nil] at hrounds
      exact hrounds

/-! ### Stability -/

/-- The elements that tie with `a` are compared with all others as `a` is. -/
theorem tied_congr (h : Order lt) {a : α} (ha : tied lt v a = true) :
    tied lt v = tied lt a ∧ lt v = lt a := by
  obtain ⟨hva, hav⟩ := tied_iff.mp ha
  have hfrom : lt v = lt a := by
    ext x
    rw [Bool.eq_iff_iff]
    exact ⟨fun hx => (h.lt_or_lt hx a).resolve_left (by simp [hva]),
      fun hx => (h.lt_or_lt hx v).resolve_left (by simp [hav])⟩
  have hto : ∀ x, lt x v = lt x a := by
    intro x
    rw [Bool.eq_iff_iff]
    exact ⟨fun hx => (h.lt_or_lt hx a).resolve_right (by simp [hav]),
      fun hx => (h.lt_or_lt hx v).resolve_right (by simp [hva])⟩
  refine ⟨?_, hfrom⟩
  ext x
  rw [tied, tied, hfrom, hto]

/-- An element that is the `s`th of those that tie with it has greater ones behind it, up to the
next one that ties with it, whose number and one is a multiple of `s`. -/
def RestoresTies (lt : α → α → Bool) (l : List α) : Prop :=
  ∀ front a rest, l = front ++ a :: rest →
    (front.countP (tied lt a) + 1) ∣ turnsBefore (tied lt a) (lt a) 0 rest + 1

theorem restoresTies_iff (h : Order lt) (l : List α) :
    RestoresTies lt l ↔ ∀ v, BroughtToFront (tied lt v) (lt v) 0 l := by
  constructor
  · intro hl v front a rest hsplit ha
    obtain ⟨htied, hlt⟩ := tied_congr h ha
    rw [htied, hlt]
    exact hl front a rest hsplit
  · intro hl front a rest hsplit
    exact hl a front a rest hsplit (tied_self h a)

theorem filter_sort_eq_iff (h : Order lt) {l : List α} (hl : l.Nodup) (v : α) :
    (sort lt l).filter (tied lt v) = l.filter (tied lt v) ↔
      BroughtToFront (tied lt v) (lt v) 0 l := by
  rw [filter_sort h, ← turned_rotate_eq_reverse_iff 0 l (hl.filter _), List.rotate_zero,
    List.reverse_eq_iff]

section Before

variable {before : α → α → Prop} (hasymm : ∀ a b, before a b → ¬ before b a)
include hasymm

theorem pairwise_tied_iff (h : Order lt) {l sorted : List α} (hl : l.Pairwise before)
    (hperm : sorted.Perm l) :
    (sorted.Pairwise fun a b => tied lt a b = true → before a b) ↔
      ∀ v, sorted.filter (tied lt v) = l.filter (tied lt v) := by
  constructor
  · intro hsorted v
    have hbefore : (sorted.filter (tied lt v)).Pairwise before := by
      rw [List.pairwise_filter]
      refine hsorted.imp fun {a b} hab ha hb => hab ?_
      rwa [(tied_congr h ha).1] at hb
    exact List.Perm.eq_of_pairwise (fun a b _ _ hab hba => absurd hba (hasymm a b hab)) hbefore
      (hl.filter _) (hperm.filter _)
  · intro hsame
    rw [List.pairwise_iff_forall_sublist]
    intro a b hsub htie
    have hpair : [a, b].filter (tied lt a) = [a, b] := by
      simp [tied_self h a, htie]
    have hfilter := hsub.filter (tied lt a)
    rw [hpair, hsame a] at hfilter
    exact List.pairwise_iff_forall_sublist.mp (hl.filter _) hfilter

theorem sort_stable_iff (h : Order lt) {l : List α} (hl : l.Pairwise before) :
    ((sort lt l).Pairwise fun a b => tied lt a b = true → before a b) ↔ RestoresTies lt l := by
  have hnodup : l.Nodup := hl.imp fun {a b} hab => by
    rintro rfl
    exact hasymm a a hab hab
  rw [pairwise_tied_iff hasymm h hl (sort_perm lt l), restoresTies_iff h]
  exact forall_congr' (filter_sort_eq_iff h hnodup)

end Before

/-! ### Elements with labels -/

section Map

variable {β : Type*} (f : β → α)

theorem pass_map (k : ℕ) (l : List β) :
    pass lt k (l.map f) = (pass (fun a b => lt (f a) (f b)) k l).map f := by
  induction k generalizing l with
  | zero => simp
  | succ k ih =>
      match l with
      | [] => rfl
      | [a] => rfl
      | a :: b :: l =>
          simp only [List.map_cons, pass_cons_cons]
          split_ifs
          · rw [List.map_cons, ← ih, List.map_cons]
          · rw [List.map_cons, ← ih, List.map_cons]

theorem rounds_map (k done : ℕ) (l : List β) :
    rounds lt k done (l.map f) = (rounds (fun a b => lt (f a) (f b)) k done l).map f := by
  induction k generalizing done l with
  | zero => rfl
  | succ k ih => rw [rounds, rounds, List.length_map, pass_map, ih]

theorem sort_map (l : List β) :
    sort lt (l.map f) = (sort (fun a b => lt (f a) (f b)) l).map f := by
  rw [sort, sort, List.length_map, rounds_map]

theorem turnsBefore_map (joins turns : α → Bool) (more : ℕ) (l : List β) :
    turnsBefore joins turns more (l.map f) =
      turnsBefore (fun a => joins (f a)) (fun a => turns (f a)) more l := by
  induction l with
  | nil => rfl
  | cons a l ih => rw [List.map_cons, turnsBefore, turnsBefore, ih]

theorem restoresTies_map (l : List β) :
    RestoresTies lt (l.map f) ↔ RestoresTies (fun a b => lt (f a) (f b)) l := by
  constructor
  · intro hl front a rest hsplit
    have hat := hl (front.map f) (f a) (rest.map f) (by rw [hsplit, List.map_append, List.map_cons])
    rwa [List.countP_map, turnsBefore_map] at hat
  · intro hl front a rest hsplit
    obtain ⟨front, behind, rfl, rfl, hbehind⟩ := List.map_eq_append_iff.mp hsplit
    obtain ⟨a, rest, rfl, rfl, rfl⟩ := List.map_eq_cons_iff.mp hbehind
    rw [List.countP_map, turnsBefore_map]
    exact hl front a rest rfl

end Map

end Kademlia.Foundations.BubbleSort
