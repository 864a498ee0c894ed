import Mathlib.Data.List.Rotate
import Mathlib.Tactic.SplitIfs

/-!
Rows that are turned while they are lined up.

Some elements of a list line up one behind the other. Others, the turners, move
whoever is first at that time to the end of the row. If as many turners follow
each newcomer as bring him to the front of the row, then the row stands in
reverse order at the end, and only then.
-/

namespace Kademlia.Foundations.Turning

variable {α : Type*} (joins turns : α → Bool)

/-- The row after one more element of the list. -/
def turnStep (row : List α) (a : α) : List α :=
  if joins a then row ++ [a] else if turns a then row.rotate 1 else row

def turned (l : List α) : List α := l.foldl (turnStep joins turns) []

/-- The turners in a list up to the next newcomer, where `more` follow at its end. -/
def turnsBefore (more : ℕ) : List α → ℕ
  | [] => more
  | a :: l =>
      if joins a then 0
      else if turns a then turnsBefore more l + 1
      else turnsBefore more l

/-- Each newcomer is brought to the front of the row before the next one comes. -/
def BroughtToFront (more : ℕ) (l : List α) : Prop :=
  ∀ front a rest, l = front ++ a :: rest → joins a = true →
    (front.countP joins + 1) ∣ turnsBefore joins turns more rest + 1

theorem turned_append_singleton (l : List α) (a : α) :
    turned joins turns (l ++ [a]) = turnStep joins turns (turned joins turns l) a := by
  rw [turned, List.foldl_append]
  rfl

theorem turned_perm (l : List α) : (turned joins turns l).Perm (l.filter joins) := by
  induction l using List.reverseRecOn with
  | nil => exact .nil
  | append_singleton l a ih =>
      rw [turned_append_singleton, turnStep, List.filter_append, List.filter_cons, List.filter_nil]
      split_ifs with hjoins
      · exact ih.append_right [a]
      · rw [List.append_nil]
        exact (List.rotate_perm _ _).trans ih
      · rw [List.append_nil]
        exact ih

theorem turnsBefore_append (more : ℕ) (l rest : List α) :
    turnsBefore joins turns more (l ++ rest) =
      turnsBefore joins turns (turnsBefore joins turns more rest) l := by
  induction l with
  | nil => rfl
  | cons a l ih => rw [List.cons_append, turnsBefore, turnsBefore, ih]

variable {joins turns}

/-- The last of a row comes to its front, and all others behind him. -/
theorem rotate_eq_cons_iff {row others : List α} {a : α} (h : (row ++ [a]).Nodup) (n : ℕ) :
    (row ++ [a]).rotate n = a :: others ↔ (row.length + 1) ∣ n + 1 ∧ row = others := by
  have hlen : (row ++ [a]).length = row.length + 1 := List.length_append
  have hfront : (row ++ [a]).rotate row.length = a :: row := List.rotate_append_length_eq _ _
  have hcount : (row.length + 1) ∣ n + 1 ↔ n % (row.length + 1) = row.length := by
    constructor
    · rintro ⟨k, hk⟩
      obtain ⟨k, rfl⟩ : ∃ k', k = k' + 1 := Nat.exists_eq_succ_of_ne_zero (by rintro rfl; omega)
      have hn : n = row.length + (row.length + 1) * k := by
        rw [Nat.mul_succ] at hk
        omega
      rw [hn, Nat.add_mul_mod_self_left, Nat.mod_eq_of_lt (Nat.lt_succ_self _)]
    · intro hmod
      have hdiv := Nat.div_add_mod n (row.length + 1)
      refine ⟨n / (row.length + 1) + 1, ?_⟩
      rw [Nat.mul_succ]
      omega
  have hrotate : (row ++ [a]).rotate n = a :: row ↔ (row.length + 1) ∣ n + 1 := by
    rw [← hfront, h.rotate_congr_iff, hlen, Nat.mod_eq_of_lt (Nat.lt_succ_self _), hcount]
    simp
  rw [← hrotate]
  constructor
  · intro heq
    -- the element in front is the one at place `n` of the row
    have hat : (row ++ [a])[n % (row.length + 1)]? = some a := by
      have hhead := congrArg List.head? heq
      rwa [← List.rotate_mod, List.head?_rotate (by rw [hlen]; exact Nat.mod_lt _ (by omega)),
        hlen] at hhead
    have hlast : (row ++ [a])[row.length]? = some a := by simp
    have hplace : n % (row.length + 1) = row.length :=
      (List.getElem?_inj (by rw [hlen]; exact Nat.mod_lt _ (by omega)) h).mp
        (hat.trans hlast.symm)
    have hrow : (row ++ [a]).rotate n = a :: row := hrotate.mpr (hcount.mpr hplace)
    exact ⟨hrow, (List.cons.inj (hrow.symm.trans heq)).2⟩
  · rintro ⟨heq, rfl⟩
    exact heq

theorem broughtToFront_append_singleton (more : ℕ) (l : List α) (a : α) :
    BroughtToFront joins turns more (l ++ [a]) ↔
      BroughtToFront joins turns (turnsBefore joins turns more [a]) l ∧
        (joins a = true → (l.countP joins + 1) ∣ more + 1) := by
  constructor
  · intro h
    refine ⟨fun front b rest hl hb => ?_, fun ha => h l a [] rfl ha⟩
    rw [← turnsBefore_append]
    exact h front b (rest ++ [a]) (by rw [hl, List.append_assoc, List.cons_append]) hb
  · rintro ⟨hinner, hlast⟩ front b rest hl hb
    rcases List.eq_nil_or_concat rest with rfl | ⟨rest, c, rfl⟩
    · obtain ⟨rfl, hsame⟩ := List.append_inj' hl rfl
      obtain rfl : a = b := (List.cons.inj hsame).1
      exact hlast hb
    · rw [List.concat_eq_append, ← List.cons_append, ← List.append_assoc] at hl
      obtain ⟨rfl, hsame⟩ := List.append_inj' hl rfl
      obtain rfl : a = c := (List.cons.inj hsame).1
      rw [List.concat_eq_append, turnsBefore_append]
      exact hinner front b rest rfl hb

/-- The row is reversed exactly if each newcomer is brought to its front. -/
theorem turned_rotate_eq_reverse_iff (more : ℕ) (l : List α) (h : (l.filter joins).Nodup) :
    (turned joins turns l).rotate more = (l.filter joins).reverse ↔
      BroughtToFront joins turns more l := by
  induction l using List.reverseRecOn generalizing more with
  | nil =>
      refine iff_of_true (List.rotate_nil _) fun front a rest hl => ?_
      simp at hl
  | append_singleton l a ih =>
      have hperm := turned_perm joins turns l
      rw [List.filter_append] at h
      have ih := fun more => ih more (List.Nodup.of_append_left h)
      rw [turned_append_singleton, turnStep, broughtToFront_append_singleton, List.filter_append,
        List.filter_cons, List.filter_nil, turnsBefore, turnsBefore]
      by_cases hjoins : joins a = true
      · have hrow : (turned joins turns l ++ [a]).Nodup := by
          rw [List.filter_cons, List.filter_nil, if_pos hjoins] at h
          exact (hperm.append_right [a]).nodup_iff.mpr h
        have hcount : (turned joins turns l).length = l.countP joins := by
          rw [hperm.length_eq, List.countP_eq_length_filter]
        rw [if_pos hjoins, if_pos hjoins, if_pos hjoins, List.reverse_append,
          List.reverse_singleton, List.singleton_append, rotate_eq_cons_iff hrow, hcount, ← ih 0,
          List.rotate_zero]
        simp only [hjoins, forall_const]
        exact And.comm
      · rw [if_neg hjoins, if_neg hjoins, if_neg hjoins, List.append_nil]
        simp only [hjoins, false_implies, and_true, Bool.false_eq_true]
        split_ifs
        · rw [List.rotate_rotate, Nat.add_comm 1, ih]
        · rw [ih]

end Kademlia.Foundations.Turning
