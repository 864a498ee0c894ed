import Mathlib

/-!
Worklists that grow while they are being walked.

A list of items is visited by position, front to back. Visiting position `n`
yields further items, `expand n p`; each is appended unless an item with the
same key is already there. `expand` may depend on the position, so it also
covers an environment that answers differently every time it is asked.

`Reaches` is the walk itself. Its end points are described in two ways: by the
order in which the walk meets the items, and, forgetting the order, as a
`Closure` of the initial list. With finitely many keys every walk ends: an
append uses up a key and a visit uses up a position, so the sum of the length
and the number of unused keys never changes.
-/

namespace Kademlia.Foundations.Worklist

variable {α κ : Type*} [DecidableEq κ] (key : α → κ)

/-- Append `x` unless its key is taken. -/
def push (pending : List α) (x : α) : List α :=
  if key x ∈ pending.map key then pending else pending ++ [x]

def pushAll (pending xs : List α) : List α := xs.foldl (push key) pending

@[simp] theorem pushAll_nil (pending : List α) : pushAll key pending [] = pending := rfl

@[simp] theorem pushAll_cons (pending : List α) (x : α) (xs : List α) :
    pushAll key pending (x :: xs) = pushAll key (push key pending x) xs := rfl

theorem getElem?_of_isPrefix_of {xs ys : List α} (h : xs <+: ys) {i : ℕ} {x : α}
    (hx : xs[i]? = some x) : ys[i]? = some x := by
  obtain ⟨rest, rfl⟩ := h
  rw [List.getElem?_append_left (List.getElem?_eq_some_iff.mp hx).1, hx]

theorem prefix_push (pending : List α) (x : α) : pending <+: push key pending x := by
  unfold push
  split
  · exact List.prefix_refl _
  · exact List.prefix_append _ _

theorem prefix_pushAll (pending xs : List α) : pending <+: pushAll key pending xs := by
  induction xs generalizing pending with
  | nil => exact List.prefix_refl _
  | cons x xs ih => exact (prefix_push key pending x).trans (ih _)

theorem nodup_push {pending : List α} (h : (pending.map key).Nodup) (x : α) :
    ((push key pending x).map key).Nodup := by
  unfold push
  split
  · exact h
  · rename_i hx
    rw [List.map_append, List.map_singleton, List.nodup_append]
    refine ⟨h, List.nodup_singleton _, ?_⟩
    intro a ha b hb
    rw [List.mem_singleton] at hb
    subst hb
    intro hab
    exact hx (hab ▸ ha)

theorem nodup_pushAll {pending : List α} (h : (pending.map key).Nodup) (xs : List α) :
    ((pushAll key pending xs).map key).Nodup := by
  induction xs generalizing pending with
  | nil => exact h
  | cons x xs ih => exact ih (nodup_push key h x)

theorem key_mem_push (pending : List α) (x : α) : key x ∈ (push key pending x).map key := by
  unfold push
  split
  · assumption
  · simp

theorem key_mem_pushAll (pending : List α) {xs : List α} {x : α} (hx : x ∈ xs) :
    key x ∈ (pushAll key pending xs).map key := by
  induction xs generalizing pending with
  | nil => cases hx
  | cons y xs ih =>
      rcases List.mem_cons.mp hx with rfl | hx
      · exact ((prefix_pushAll key _ xs).map key).subset (key_mem_push key pending x)
      · exact ih _ hx

/-- What `pushAll` appends: items of `xs` with distinct unused keys. -/
theorem pushAll_eq_append (pending xs : List α) :
    ∃ fresh, pushAll key pending xs = pending ++ fresh ∧ (fresh.map key).Nodup ∧
      ∀ q ∈ fresh, q ∈ xs ∧ key q ∉ pending.map key := by
  induction xs generalizing pending with
  | nil => exact ⟨[], by simp⟩
  | cons x xs ih =>
      obtain ⟨fresh, hpush, hfresh, hnew⟩ := ih (push key pending x)
      by_cases hx : key x ∈ pending.map key
      · rw [push, if_pos hx] at hpush hnew
        refine ⟨fresh, by rw [pushAll_cons, push, if_pos hx, hpush], hfresh, ?_⟩
        intro q hq
        exact ⟨List.mem_cons_of_mem _ (hnew q hq).1, (hnew q hq).2⟩
      · rw [push, if_neg hx] at hpush hnew
        refine ⟨x :: fresh, ?_, ?_, ?_⟩
        · rw [pushAll_cons, push, if_neg hx, hpush, List.append_assoc, List.singleton_append]
        · rw [List.map_cons, List.nodup_cons]
          refine ⟨fun hmem => ?_, hfresh⟩
          obtain ⟨q, hq, heq⟩ := List.mem_map.mp hmem
          exact (hnew q hq).2 (by simp [heq])
        · intro q hq
          rcases List.mem_cons.mp hq with rfl | hq
          · exact ⟨by simp, hx⟩
          · refine ⟨List.mem_cons_of_mem _ (hnew q hq).1, fun hmem => (hnew q hq).2 ?_⟩
            simp [hmem]

/-! ### The closure of a list -/

variable (expand : ℕ → α → List α)

/-- One more item: yielded by an item of the list, under a key not yet used. -/
def Adds (pending pending' : List α) : Prop :=
  ∃ i p q, pending[i]? = some p ∧ q ∈ expand i p ∧ key q ∉ pending.map key ∧
    pending' = pending ++ [q]

/-- Everything the items of the list yield has its key in the list. -/
def Saturated (pending : List α) : Prop :=
  ∀ i p, pending[i]? = some p → ∀ q ∈ expand i p, key q ∈ pending.map key

/-- `final` arises from `initial` by adding yielded items with unused keys,
one at a time, until there is none left to add. -/
structure Closure (initial final : List α) : Prop where
  grown : Relation.ReflTransGen (Adds key expand) initial final
  saturated : Saturated key expand final

/-- Additions repeat no key: what is twice in the list was so from the start. -/
theorem duplicate_of_grown {pending final : List α}
    (h : Relation.ReflTransGen (Adds key expand) pending final) {k : κ}
    (hk : (final.map key).Duplicate k) : (pending.map key).Duplicate k := by
  induction h with
  | refl => exact hk
  | tail _ hstep ih =>
      obtain ⟨_, _, q, -, -, hfresh, rfl⟩ := hstep
      refine ih ?_
      rw [List.duplicate_iff_two_le_count, List.map_append, List.map_singleton,
        List.count_append] at hk
      rw [List.duplicate_iff_two_le_count]
      by_cases hkq : key q = k
      · rw [← hkq, List.count_eq_zero_of_not_mem hfresh, List.count_singleton_self] at hk
        omega
      · rwa [List.count_singleton, if_neg (by simpa using hkq), Nat.add_zero] at hk

theorem adds_pushAll {pending : List α} {n : ℕ} {p : α} (hp : pending[n]? = some p)
    {xs : List α} (hxs : ∀ x ∈ xs, x ∈ expand n p) :
    Relation.ReflTransGen (Adds key expand) pending (pushAll key pending xs) := by
  induction xs generalizing pending with
  | nil => exact .refl
  | cons x xs ih =>
      have hrest : ∀ y ∈ xs, y ∈ expand n p := fun y hy => hxs y (by simp [hy])
      have hp' : (push key pending x)[n]? = some p :=
        getElem?_of_isPrefix_of (prefix_push key pending x) hp
      rw [pushAll_cons]
      by_cases hx : key x ∈ pending.map key
      · rw [push, if_pos hx] at hp' ⊢
        exact ih hp' hrest
      · refine .head ⟨n, p, x, hp, hxs x (by simp), hx, ?_⟩ (ih hp' hrest)
        rw [push, if_neg hx]

/-! ### The walk -/

/-- `Reaches n P m Q`: with positions below `n` of the list `P` visited, the
walk comes to the list `Q` with the positions below `m` visited. -/
inductive Reaches : ℕ → List α → ℕ → List α → Prop
  | refl (n : ℕ) (pending : List α) : Reaches n pending n pending
  | visit {n m : ℕ} {pending final : List α} {p : α} (hp : pending[n]? = some p)
      (rest : Reaches (n + 1) (pushAll key pending (expand n p)) m final) :
      Reaches n pending m final

variable {key expand} {n m : ℕ} {pending final : List α}

theorem Reaches.le (h : Reaches key expand n pending m final) : n ≤ m := by
  induction h with
  | refl => exact le_rfl
  | visit _ _ ih => omega

theorem Reaches.grows (h : Reaches key expand n pending m final) : pending <+: final := by
  induction h with
  | refl => exact List.prefix_refl _
  | visit _ _ ih => exact (prefix_pushAll key _ _).trans ih

theorem Reaches.le_length (h : Reaches key expand n pending m final)
    (hn : n ≤ pending.length) : m ≤ final.length := by
  induction h with
  | refl => exact hn
  | @visit n m pending final p hp _ ih =>
      have hlt : n < pending.length := (List.getElem?_eq_some_iff.mp hp).1
      have hlen := (prefix_pushAll key pending (expand n p)).length_le
      exact ih (by omega)

theorem Reaches.trans {k : ℕ} {middle : List α}
    (h : Reaches key expand n pending k middle) (h' : Reaches key expand k middle m final) :
    Reaches key expand n pending m final := by
  induction h with
  | refl => exact h'
  | visit hp _ ih => exact .visit hp (ih h')

theorem Reaches.grown (h : Reaches key expand n pending m final) :
    Relation.ReflTransGen (Adds key expand) pending final := by
  induction h with
  | refl => exact .refl
  | visit hp _ ih => exact (adds_pushAll key expand hp fun _ hx => hx).trans ih

/-- What the visited positions yield has its key in the list. -/
theorem Reaches.saturated (h : Reaches key expand n pending m final) {i : ℕ} {p : α}
    (hni : n ≤ i) (him : i < m) (hp : final[i]? = some p) {q : α} (hq : q ∈ expand i p) :
    key q ∈ final.map key := by
  induction h with
  | refl => omega
  | @visit n m pending final p' hp' rest ih =>
      by_cases hi : i = n
      · subst hi
        have hprefix := (prefix_pushAll key pending (expand i p')).trans rest.grows
        have heq : some p' = some p := by
          rw [← getElem?_of_isPrefix_of hprefix hp', hp]
        cases heq
        exact (rest.grows.map key).subset (key_mem_pushAll key pending hq)
      · exact ih (by omega) him hp

theorem Reaches.closure (h : Reaches key expand 0 pending m final)
    (hend : final.length ≤ m) : Closure key expand pending final where
  grown := h.grown
  saturated i p hp _ hq := by
    have hi : i < final.length := (List.getElem?_eq_some_iff.mp hp).1
    exact h.saturated (Nat.zero_le i) (by omega) hp hq

/-! ### What is reachable -/

/-- The items that the initial ones lead to, whatever their keys. -/
inductive Leads (next : α → List α) (initial : List α) : α → Prop
  | initial {x : α} (hx : x ∈ initial) : Leads next initial x
  | next {p q : α} (hp : Leads next initial p) (hq : q ∈ next p) : Leads next initial q

omit [DecidableEq κ] in
theorem Adds.leads {next : α → List α} {initial pending pending' : List α}
    (h : Adds key (fun _ => next) pending pending') (hleads : ∀ p ∈ pending, Leads next initial p) :
    ∀ p ∈ pending', Leads next initial p := by
  obtain ⟨i, p, q, hp, hq, -, rfl⟩ := h
  intro x hx
  rcases List.mem_append.mp hx with hx | hx
  · exact hleads x hx
  · obtain rfl := List.mem_singleton.mp hx
    exact .next (hleads p (List.mem_of_getElem? hp)) hq

omit [DecidableEq κ] in
theorem Adds.isPrefix {pending pending' : List α} (h : Adds key expand pending pending') :
    pending <+: pending' := by
  obtain ⟨i, p, q, -, -, -, rfl⟩ := h
  exact List.prefix_append _ _

omit [DecidableEq κ] in
theorem leads_of_grown {next : α → List α} {initial : List α}
    (h : Relation.ReflTransGen (Adds key fun _ => next) initial final) :
    ∀ p ∈ final, Leads next initial p := by
  induction h with
  | refl => exact fun p hp => .initial hp
  | tail _ hadds ih => exact hadds.leads ih

omit [DecidableEq κ] in
theorem prefix_of_grown (h : Relation.ReflTransGen (Adds key expand) pending final) :
    pending <+: final := by
  induction h with
  | refl => exact List.prefix_refl _
  | tail _ hadds ih => exact ih.trans hadds.isPrefix

omit [DecidableEq κ] in
/-- When keys tell apart what can be reached, the closure is what can be reached. -/
theorem Closure.mem_iff {next : α → List α} {initial : List α}
    (h : Closure key (fun _ => next) initial final)
    (hkey : ∀ p q, Leads next initial p → Leads next initial q → key p = key q → p = q) (p : α) :
    p ∈ final ↔ Leads next initial p := by
  have hsound := leads_of_grown h.grown
  have hgrows := prefix_of_grown h.grown
  refine ⟨hsound p, fun hp => ?_⟩
  induction hp with
  | initial hx => exact hgrows.subset hx
  | @next p q hp hq ih =>
      obtain ⟨i, hi⟩ := List.getElem?_of_mem ih
      obtain ⟨q', hq', heq⟩ := List.mem_map.mp (h.saturated i p hi q hq)
      rw [hkey q q' (.next hp hq) (hsound q' hq') heq.symm]
      exact hq'

/-! ### Termination -/

section Finite

variable [Fintype κ]

/-- The length a worklist could still reach: its items and the unused keys. -/
def capacity (key : α → κ) (pending : List α) : ℕ :=
  pending.length + (Fintype.card κ - (pending.map key).toFinset.card)

theorem capacity_push (pending : List α) (x : α) :
    capacity key (push key pending x) = capacity key pending := by
  unfold push
  split
  · rfl
  · rename_i hx
    have hnew : key x ∉ (pending.map key).toFinset := by simpa using hx
    have hcard : (insert (key x) (pending.map key).toFinset).card =
        (pending.map key).toFinset.card + 1 := Finset.card_insert_of_notMem hnew
    have hle : (insert (key x) (pending.map key).toFinset).card ≤ Fintype.card κ :=
      Finset.card_le_univ _
    have hset : ((pending ++ [x]).map key).toFinset =
        insert (key x) (pending.map key).toFinset := by
      ext k
      simp only [List.map_append, List.map_singleton, List.mem_toFinset, List.mem_append,
        List.mem_singleton, Finset.mem_insert]
      tauto
    rw [capacity, capacity, hset, List.length_append, List.length_singleton]
    omega

theorem capacity_pushAll (pending xs : List α) :
    capacity key (pushAll key pending xs) = capacity key pending := by
  induction xs generalizing pending with
  | nil => rfl
  | cons x xs ih => rw [pushAll_cons, ih, capacity_push]

variable (key expand) in
/-- Every walk ends: at a position where `stop` holds, or past the last item. -/
theorem exists_reaches (stop : ℕ → α → Bool) (n : ℕ) (pending : List α) :
    ∃ m final, Reaches key expand n pending m final ∧
      (∀ i p, n ≤ i → i < m → final[i]? = some p → stop i p = false) ∧
      (final.length ≤ m ∨ ∃ p, final[m]? = some p ∧ stop m p = true) := by
  generalize hfuel : capacity key pending - n = fuel
  induction fuel generalizing n pending with
  | zero =>
      refine ⟨n, pending, .refl n pending, fun i p hni hin => by omega, Or.inl ?_⟩
      have : pending.length ≤ capacity key pending := Nat.le_add_right _ _
      omega
  | succ fuel ih =>
      cases hp : pending[n]? with
      | none =>
          exact ⟨n, pending, .refl n pending, fun i p hni hin => by omega,
            Or.inl (List.getElem?_eq_none_iff.mp hp)⟩
      | some p =>
          cases hstop : stop n p with
          | true =>
              exact ⟨n, pending, .refl n pending, fun i p hni hin => by omega,
                Or.inr ⟨p, hp, hstop⟩⟩
          | false =>
              obtain ⟨m, final, hreach, hgo, hend⟩ :=
                ih (n + 1) (pushAll key pending (expand n p))
                  (by rw [capacity_pushAll]; omega)
              refine ⟨m, final, .visit hp hreach, ?_, hend⟩
              intro i p' hni him hp'
              by_cases hi : i = n
              · subst hi
                have hget := getElem?_of_isPrefix_of
                  ((prefix_pushAll key _ _).trans hreach.grows) hp
                rw [hp'] at hget
                cases hget
                exact hstop
              · exact hgo i p' (by omega) him hp'

end Finite

end Kademlia.Foundations.Worklist
