import Mathlib.Data.Finset.Basic
import Mathlib.Data.Multiset.AddSub

/-!
The reasoning kit for programs that acquire and release.

What a program acquires gets a handle of a kind and a number, and to release or
use a handle that is not live is a fault for good. `Owns prog held post` says
that `prog`, which answers for the handles `held` when it starts, makes no fault
and leaves alone what others hold, and that it answers in the end for handles
that `post` allows with its result. Every construct has a rule.
-/

namespace Kademlia.Foundations

/-- The kind of what was acquired, and its number. -/
abbrev Handle (κ : Type) := κ × ℕ

structure Ledger (κ : Type) where
  live : Finset (Handle κ)
  next : ℕ
  faultless : Bool

abbrev Owning (κ : Type) := StateM (Ledger κ)

variable {κ : Type} [DecidableEq κ]

namespace Owning

def acquire (kind : κ) : Owning κ (Handle κ) := fun ledger =>
  ((kind, ledger.next),
    ⟨insert (kind, ledger.next) ledger.live, ledger.next + 1, ledger.faultless⟩)

def release (a : Handle κ) : Owning κ Unit := fun ledger =>
  ((), ⟨ledger.live.erase a, ledger.next, ledger.faultless && decide (a ∈ ledger.live)⟩)

def use (a : Handle κ) : Owning κ Unit := fun ledger =>
  ((), ⟨ledger.live, ledger.next, ledger.faultless && decide (a ∈ ledger.live)⟩)

def releaseAll : List (Handle κ) → Owning κ Unit
  | [] => pure ()
  | a :: as => do
      release a
      releaseAll as

def useAll : List (Handle κ) → Owning κ Unit
  | [] => pure ()
  | a :: as => do
      use a
      useAll as

def acquireMany (kind : κ) : ℕ → Owning κ (List (Handle κ))
  | 0 => pure []
  | n + 1 => do
      let a ← acquire kind
      let as ← acquireMany kind n
      pure (a :: as)

end Owning

/-- No fault so far, and live is what is in `base`, and what is held. -/
structure Holds (ledger : Ledger κ) (base : Finset (Handle κ)) (held : Multiset (Handle κ)) :
    Prop where
  faultless : ledger.faultless = true
  fresh : ∀ a ∈ ledger.live, a.2 < ledger.next
  nodup : held.Nodup
  apart : ∀ a ∈ held, a ∉ base
  live_iff : ∀ a, a ∈ ledger.live ↔ a ∈ base ∨ a ∈ held

/-- `prog` answers for `held` when it starts, and in the end for what `post` allows. -/
def Owns {α : Type} (prog : Owning κ α) (held : Multiset (Handle κ))
    (post : α → Multiset (Handle κ) → Prop) : Prop :=
  ∀ ledger base, Holds ledger base held →
    ∃ held', post (prog ledger).1 held' ∧ Holds (prog ledger).2 base held'

variable {held held' : Multiset (Handle κ)} {as : List (Handle κ)} {a : Handle κ} {kind : κ}

omit [DecidableEq κ] in
theorem Holds.mem_live {ledger : Ledger κ} {base : Finset (Handle κ)}
    (h : Holds ledger base held) (ha : a ∈ held) : a ∈ ledger.live :=
  (h.live_iff a).mpr (Or.inr ha)

namespace Owns

variable {α β ρ σ τ : Type} {prog : Owning κ α} {post mid : α → Multiset (Handle κ) → Prop}

section Structural

omit [DecidableEq κ]

theorem pure {x : α} (h : post x held) : Owns (pure x) held post :=
  fun _ _ hholds => ⟨held, h, hholds⟩

theorem bind {f : α → Owning κ β} {post : β → Multiset (Handle κ) → Prop}
    (h : Owns prog held mid) (hf : ∀ x held', mid x held' → Owns (f x) held' post) :
    Owns (prog >>= f) held post := fun ledger base hholds => by
  obtain ⟨held', hmid, hholds'⟩ := h ledger base hholds
  exact hf _ held' hmid _ base hholds'

theorem mono (h : Owns prog held mid) (hpost : ∀ x held', mid x held' → post x held') :
    Owns prog held post := fun ledger base hholds => by
  obtain ⟨held', hmid, hholds'⟩ := h ledger base hholds
  exact ⟨held', hpost _ _ hmid, hholds'⟩

theorem of_eq (heq : held = held') (h : Owns prog held' post) : Owns prog held post :=
  heq ▸ h

theorem of_nodup (h : held.Nodup → Owns prog held post) : Owns prog held post :=
  fun ledger base hholds => h hholds.nodup ledger base hholds

theorem foldlM {f : σ → τ → Owning κ σ} (g : ρ → τ → ρ)
    (inv : ρ → σ → Multiset (Handle κ) → Prop) (xs : List τ) {r : ρ} {s : σ} (h : inv r s held)
    (hf : ∀ r s held x, inv r s held → Owns (f s x) held (inv (g r x))) :
    Owns (xs.foldlM f s) held (inv (xs.foldl g r)) := by
  induction xs generalizing r s held with
  | nil => exact pure h
  | cons x xs ih =>
      rw [List.foldlM_cons, List.foldl_cons]
      exact bind (hf r s held x h) fun s' held' h' => ih h'

end Structural

theorem acquire :
    Owns (Owning.acquire kind) held fun a held' => a.1 = kind ∧ held' = {a} + held :=
  fun ledger base h => by
    have hfresh : (kind, ledger.next) ∉ ledger.live :=
      fun hmem => absurd (h.fresh _ hmem) (lt_irrefl _)
    refine ⟨(kind, ledger.next) ::ₘ held, ⟨rfl, (Multiset.singleton_add _ _).symm⟩, h.faultless,
      fun b hb => ?_, ?_, fun b hb => ?_, fun b => ?_⟩
    · rcases Finset.mem_insert.mp hb with rfl | hold
      · exact Nat.lt_succ_self _
      · exact (h.fresh b hold).trans (Nat.lt_succ_self _)
    · exact Multiset.nodup_cons.mpr ⟨fun hmem => hfresh (h.mem_live hmem), h.nodup⟩
    · rcases Multiset.mem_cons.mp hb with rfl | hold
      · exact fun hbase => hfresh ((h.live_iff _).mpr (Or.inl hbase))
      · exact h.apart b hold
    · change b ∈ insert (kind, ledger.next) ledger.live ↔ _
      rw [Finset.mem_insert, h.live_iff, Multiset.mem_cons]
      tauto

theorem release : Owns (Owning.release a) ({a} + held) fun _ held' => held' = held := by
  rw [Multiset.singleton_add]
  intro ledger base h
  have hlive := h.mem_live (Multiset.mem_cons_self a held)
  have hbase := h.apart a (Multiset.mem_cons_self a held)
  have hheld := (Multiset.nodup_cons.mp h.nodup).1
  refine ⟨held, rfl, ?_, fun b hb => h.fresh b (Finset.mem_of_mem_erase hb),
    (Multiset.nodup_cons.mp h.nodup).2,
    fun b hb => h.apart b (Multiset.mem_cons_of_mem hb), fun b => ?_⟩
  · change (ledger.faultless && decide (a ∈ ledger.live)) = true
    rw [h.faultless, decide_eq_true hlive]
    rfl
  · change b ∈ ledger.live.erase a ↔ _
    rw [Finset.mem_erase, h.live_iff, Multiset.mem_cons]
    constructor
    · tauto
    · rintro (hb | hb)
      · exact ⟨fun heq => hbase (heq ▸ hb), Or.inl hb⟩
      · exact ⟨fun heq => hheld (heq ▸ hb), Or.inr (Or.inr hb)⟩

theorem use (ha : a ∈ held) : Owns (Owning.use a) held fun _ held' => held' = held :=
  fun ledger base h => by
    refine ⟨held, rfl, ?_, h.fresh, h.nodup, h.apart, h.live_iff⟩
    change (ledger.faultless && decide (a ∈ ledger.live)) = true
    rw [h.faultless, decide_eq_true (h.mem_live ha)]
    rfl

theorem releaseAll :
    Owns (Owning.releaseAll as) (as + held) fun _ held' => held' = held := by
  induction as with
  | nil =>
      rw [Multiset.coe_nil, Multiset.zero_add]
      exact pure rfl
  | cons a as ih =>
      rw [← Multiset.cons_coe, ← Multiset.singleton_add, Multiset.add_assoc]
      refine bind release ?_
      rintro _ _ rfl
      exact ih

theorem useAll (has : ∀ a ∈ as, a ∈ held) :
    Owns (Owning.useAll as) held fun _ held' => held' = held := by
  induction as with
  | nil => exact pure rfl
  | cons a as ih =>
      refine bind (use (has a List.mem_cons_self)) ?_
      rintro _ _ rfl
      exact ih fun b hb => has b (List.mem_cons_of_mem _ hb)

theorem acquireMany {n : ℕ} :
    Owns (Owning.acquireMany kind n) held fun as held' => held' = as + held := by
  induction n generalizing held with
  | zero => exact pure (Multiset.zero_add held).symm
  | succ n ih =>
      refine bind acquire ?_
      rintro a _ ⟨-, rfl⟩
      refine bind ih ?_
      rintro as _ rfl
      refine pure ?_
      rw [← Multiset.cons_coe, Multiset.singleton_add, Multiset.add_cons, Multiset.cons_add]

/-! ### A program that begins with one of them -/

variable {following : Handle κ → Owning κ α}

theorem bind_acquire (h : ∀ a : Handle κ, a.1 = kind → Owns (following a) ({a} + held) post) :
    Owns (Owning.acquire kind >>= following) held post := by
  refine bind acquire ?_
  rintro a _ ⟨hkind, rfl⟩
  exact h a hkind

theorem bind_release (rest : Multiset (Handle κ)) (heq : held = {a} + rest)
    (h : Owns prog rest post) : Owns (Owning.release a >>= fun _ => prog) held post := by
  refine of_eq heq (bind release ?_)
  rintro _ _ rfl
  exact h

theorem bind_releaseAll (rest : Multiset (Handle κ)) (heq : held = as + rest)
    (h : Owns prog rest post) : Owns (Owning.releaseAll as >>= fun _ => prog) held post := by
  refine of_eq heq (bind releaseAll ?_)
  rintro _ _ rfl
  exact h

theorem bind_use (ha : a ∈ held) (h : Owns prog held post) :
    Owns (Owning.use a >>= fun _ => prog) held post := by
  refine bind (use ha) ?_
  rintro _ _ rfl
  exact h

theorem bind_useAll (has : ∀ a ∈ as, a ∈ held) (h : Owns prog held post) :
    Owns (Owning.useAll as >>= fun _ => prog) held post := by
  refine bind (useAll has) ?_
  rintro _ _ rfl
  exact h

end Owns

end Kademlia.Foundations
