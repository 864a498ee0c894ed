import Mathlib.Data.Finset.Card
import Mathlib.Data.Finset.Range
import Mathlib.Data.Nat.ModEq

/-!
Robin Hood hashing in a table of `n` slots.

Each bucket has a home slot and counts the probes it took from there, itself
included; a bucket that counts zero is an empty slot. A bucket is only ever put
behind buckets that took at least as many probes as it had taken there. This is
what `Reaches` says of one bucket, be it seated or still carried by an insertion,
and it survives every slot that becomes fuller.
-/

namespace Kademlia.Foundations.RobinHood

variable {β : Type} (dib home : β → ℕ) (n : ℕ)

/-- The slot that is probed `k` steps from `h`. -/
def probe (h k : ℕ) : ℕ := (h + k) % n

/-- Every slot that `b` probed before slot `i` holds a bucket that took at least as many probes
as `b` had taken there. -/
structure Reaches (T : ℕ → β) (b : β) (i : ℕ) : Prop where
  pos : dib b ≠ 0
  here : probe n (home b) (dib b - 1) = i
  passed : ∀ k, k + 1 < dib b → k < dib (T (probe n (home b) k))

/-- Every bucket of the table can be reached from its home slot. -/
def Seated (T : ℕ → β) : Prop := ∀ i < n, dib (T i) ≠ 0 → Reaches dib home n T (T i) i

def occupied (T : ℕ → β) : Finset ℕ := {i ∈ Finset.range n | dib (T i) ≠ 0}

def HasRoom (T : ℕ → β) : Prop := ∃ i < n, dib (T i) = 0

variable {dib home n} {T : ℕ → β} {b e : β} {i j : ℕ}

theorem probe_lt (hn : 0 < n) (h k : ℕ) : probe n h k < n := Nat.mod_lt _ hn

@[simp] theorem probe_succ (h k : ℕ) : (probe n h k + 1) % n = probe n h (k + 1) := by
  rw [probe, probe, Nat.mod_add_mod, Nat.add_assoc]

theorem probe_injOn (h : ℕ) : Set.InjOn (probe n h) (Set.Iio n) := by
  intro k hk m hm heq
  have hmod : k ≡ m [MOD n] := Nat.ModEq.add_left_cancel' h heq
  exact Nat.ModEq.eq_of_lt_of_lt hmod hk hm

theorem exists_probe_eq (hi : i < n) (h : ℕ) : ∃ k < n, probe n h k = i := by
  have hn : 0 < n := Nat.zero_lt_of_lt hi
  refine ⟨(i + (n - h % n)) % n, Nat.mod_lt _ hn, ?_⟩
  have hlt : h % n < n := Nat.mod_lt h hn
  have hsum : h % n + (i + (n - h % n)) = i + n := by omega
  rw [probe, Nat.add_mod_mod, Nat.add_mod, Nat.add_mod_mod, hsum, Nat.add_mod_right,
    Nat.mod_eq_of_lt hi]

/-! ### Slots that become fuller -/

theorem dib_le_dib_update (hle : dib (T i) ≤ dib b) (j : ℕ) :
    dib (T j) ≤ dib (Function.update T i b j) := by
  by_cases h : j = i
  · subst h
    rwa [Function.update_self]
  · rw [Function.update_of_ne h]

/-- What reached its slot still reaches it when another slot becomes fuller. -/
theorem Reaches.update (h : Reaches dib home n T e j) (hle : dib (T i) ≤ dib b) :
    Reaches dib home n (Function.update T i b) e j where
  pos := h.pos
  here := h.here
  passed k hk := (h.passed k hk).trans_le (dib_le_dib_update hle _)

/-- A carried bucket that took at least as many probes as the one in its way can be seated. -/
theorem Seated.update (hT : Seated dib home n T) (he : Reaches dib home n T e i)
    (hle : dib (T i) ≤ dib e) : Seated dib home n (Function.update T i e) := by
  intro j hj hocc
  by_cases h : j = i
  · subst h
    rw [Function.update_self]
    exact he.update hle
  · rw [Function.update_of_ne h] at hocc ⊢
    exact (hT j hj hocc).update hle

/-- A carried bucket moves on past a bucket that took at least as many probes. -/
theorem Reaches.advance (h : Reaches dib home n T e i) (hle : dib e ≤ dib (T i))
    (hhome : home b = home e) (hdib : dib b = dib e + 1) :
    Reaches dib home n T b ((i + 1) % n) where
  pos := by omega
  here := by
    have hpos := h.pos
    rw [← h.here, probe_succ, hhome, hdib]
    congr 1
    omega
  passed := by
    intro k hk
    rw [hhome]
    by_cases hlast : k + 1 = dib e
    · have hslot : probe n (home e) k = i := by
        rw [← h.here]
        congr 1
        omega
      rw [hslot]
      omega
    · exact h.passed k (by omega)

theorem Reaches.start (T : ℕ → β) (hdib : dib e = 1) :
    Reaches dib home n T e (home e % n) where
  pos := by omega
  here := by rw [hdib, probe, Nat.sub_self, Nat.add_zero]
  passed k hk := by omega

/-- Before its slot, a seated bucket passed only slots that are in use. -/
theorem Reaches.occupied_before (h : Reaches dib home n T e i) {k : ℕ} (hk : k + 1 < dib e) :
    dib (T (probe n (home e) k)) ≠ 0 :=
  Nat.ne_of_gt ((Nat.zero_le k).trans_lt (h.passed k hk))

/-! ### Counting -/

theorem mem_occupied : i ∈ occupied dib n T ↔ i < n ∧ dib (T i) ≠ 0 := by
  rw [occupied, Finset.mem_filter, Finset.mem_range]

theorem hasRoom_of_card_lt (h : (occupied dib n T).card < n) : HasRoom dib n T := by
  by_contra hfull
  have hall : occupied dib n T = Finset.range n := by
    apply Finset.filter_true_of_mem
    intro i hi hzero
    exact hfull ⟨i, Finset.mem_range.mp hi, hzero⟩
  rw [hall, Finset.card_range] at h
  exact Nat.lt_irrefl n h

theorem card_occupied_place (hi : i < n) (hfree : dib (T i) = 0) (he : dib e ≠ 0) :
    (occupied dib n (Function.update T i e)).card = (occupied dib n T).card + 1 := by
  have hnot : i ∉ occupied dib n T := fun h => (mem_occupied.mp h).2 hfree
  rw [← Finset.card_insert_of_notMem hnot]
  congr 1
  ext j
  rw [mem_occupied, Finset.mem_insert, mem_occupied]
  by_cases h : j = i
  · subst h
    simp [hi, he]
  · simp [h]

theorem occupied_exchange (hocc : dib (T i) ≠ 0) (he : dib e ≠ 0) :
    occupied dib n (Function.update T i e) = occupied dib n T := by
  ext j
  rw [mem_occupied, mem_occupied]
  by_cases h : j = i
  · subst h
    simp [he, hocc]
  · simp [h]

/-- While a slot is free, a bucket never takes more probes than there are buckets, plus one. -/
theorem Reaches.dib_le (h : Reaches dib home n T e i) (hroom : HasRoom dib n T) :
    dib e ≤ (occupied dib n T).card + 1 := by
  obtain ⟨free, hfree, hzero⟩ := hroom
  have hn : 0 < n := Nat.zero_lt_of_lt hfree
  have hshort : dib e - 1 ≤ n := by
    by_contra hlong
    obtain ⟨k, hk, hprobe⟩ := exists_probe_eq hfree (home e)
    exact h.occupied_before (k := k) (by omega) (by rw [hprobe, hzero])
  have himage : (Finset.range (dib e - 1)).image (probe n (home e)) ⊆ occupied dib n T := by
    intro slot hslot
    obtain ⟨k, hk, rfl⟩ := Finset.mem_image.mp hslot
    have hk : k < dib e - 1 := Finset.mem_range.mp hk
    exact mem_occupied.mpr ⟨probe_lt hn _ _, h.occupied_before (by omega)⟩
  have hinj : Set.InjOn (probe n (home e)) (Finset.range (dib e - 1)) :=
    (probe_injOn (home e)).mono fun k hk =>
      (Finset.mem_range.mp hk).trans_le hshort
  have hcard := Finset.card_le_card himage
  rw [Finset.card_image_of_injOn hinj, Finset.card_range] at hcard
  omega

/-- While a slot is free, probing from anywhere finds one in fewer than `n` steps. -/
theorem exists_free_probe (hroom : HasRoom dib n T) (i : ℕ) :
    ∃ m < n, dib (T (probe n i m)) = 0 := by
  obtain ⟨free, hfree, hzero⟩ := hroom
  obtain ⟨m, hm, hprobe⟩ := exists_probe_eq hfree i
  exact ⟨m, hm, by rw [hprobe, hzero]⟩

/-- A free slot fewer than `fuel + 1` steps ahead of a slot in use is fewer than `fuel` ahead of the
next one. -/
theorem free_probe_succ {fuel : ℕ} (hi : i < n) (hocc : dib (T i) ≠ 0)
    (h : ∃ m < fuel + 1, dib (T (probe n i m)) = 0) :
    ∃ m < fuel, dib (T (probe n ((i + 1) % n) m)) = 0 := by
  obtain ⟨m, hm, hzero⟩ := h
  obtain ⟨m, rfl⟩ : ∃ k, m = k + 1 := by
    refine Nat.exists_eq_succ_of_ne_zero fun h => hocc ?_
    rwa [h, probe, Nat.add_zero, Nat.mod_eq_of_lt hi] at hzero
  refine ⟨m, by omega, ?_⟩
  rw [probe, Nat.mod_add_mod, Nat.add_assoc, Nat.add_comm 1 m]
  exact hzero

/-! ### What the buckets hold -/

section Load

variable {γ κ : Type} {load : β → γ} {key : γ → κ} {l : γ}

variable (dib n load key)

/-- `l` lies in a bucket of the table. -/
def Holds (T : ℕ → β) (l : γ) : Prop := ∃ i < n, dib (T i) ≠ 0 ∧ load (T i) = l

def Distinct (T : ℕ → β) : Prop :=
  ∀ i < n, ∀ j < n, dib (T i) ≠ 0 → dib (T j) ≠ 0 → key (load (T i)) = key (load (T j)) → i = j

def Fresh (T : ℕ → β) (b : β) : Prop :=
  ∀ i < n, dib (T i) ≠ 0 → key (load (T i)) ≠ key (load b)

variable {dib n load key}

theorem holds_place (hi : i < n) (hfree : dib (T i) = 0) (he : dib e ≠ 0) :
    Holds dib n load (Function.update T i e) l ↔ Holds dib n load T l ∨ l = load e := by
  constructor
  · rintro ⟨j, hj, hocc, rfl⟩
    by_cases h : j = i
    · subst h
      rw [Function.update_self]
      exact Or.inr rfl
    · rw [Function.update_of_ne h] at hocc ⊢
      exact Or.inl ⟨j, hj, hocc, rfl⟩
  · rintro (⟨j, hj, hocc, rfl⟩ | rfl)
    · have h : j ≠ i := fun h => hocc (by rw [h, hfree])
      exact ⟨j, hj, by rwa [Function.update_of_ne h], by rw [Function.update_of_ne h]⟩
    · exact ⟨i, hi, by rwa [Function.update_self], by rw [Function.update_self]⟩

/-- Exchanging a bucket for the carried one loses neither. -/
theorem holds_exchange (hi : i < n) (hocc : dib (T i) ≠ 0) (he : dib e ≠ 0) :
    Holds dib n load (Function.update T i e) l ∨ l = load (T i) ↔
      Holds dib n load T l ∨ l = load e := by
  constructor
  · rintro (⟨j, hj, hjocc, rfl⟩ | rfl)
    · by_cases h : j = i
      · subst h
        rw [Function.update_self]
        exact Or.inr rfl
      · rw [Function.update_of_ne h] at hjocc ⊢
        exact Or.inl ⟨j, hj, hjocc, rfl⟩
    · exact Or.inl ⟨i, hi, hocc, rfl⟩
  · rintro (⟨j, hj, hjocc, rfl⟩ | rfl)
    · by_cases h : j = i
      · exact Or.inr (by rw [h])
      · exact Or.inl ⟨j, hj, by rwa [Function.update_of_ne h], by rw [Function.update_of_ne h]⟩
    · exact Or.inl ⟨i, hi, by rwa [Function.update_self], by rw [Function.update_self]⟩

theorem Distinct.update (hT : Distinct dib n load key T) (he : Fresh dib n load key T e) (i : ℕ) :
    Distinct dib n load key (Function.update T i e) := by
  intro j hj k hk hjocc hkocc hkey
  by_cases hji : j = i <;> by_cases hki : k = i
  · rw [hji, hki]
  · subst hji
    rw [Function.update_self, Function.update_of_ne hki] at hkey
    rw [Function.update_of_ne hki] at hkocc
    exact absurd hkey.symm (he k hk hkocc)
  · subst hki
    rw [Function.update_self, Function.update_of_ne hji] at hkey
    rw [Function.update_of_ne hji] at hjocc
    exact absurd hkey (he j hj hjocc)
  · rw [Function.update_of_ne hji] at hjocc hkey
    rw [Function.update_of_ne hki] at hkocc hkey
    exact hT j hj k hk hjocc hkocc hkey

theorem Fresh.exchange (hT : Distinct dib n load key T) (he : Fresh dib n load key T e)
    (hi : i < n) (hocc : dib (T i) ≠ 0) :
    Fresh dib n load key (Function.update T i e) (T i) := by
  intro j hj hjocc hkey
  by_cases h : j = i
  · subst h
    rw [Function.update_self] at hkey
    exact he j hi hocc hkey.symm
  · rw [Function.update_of_ne h] at hjocc hkey
    exact h (hT j hj i hi hjocc hocc hkey)

theorem Fresh.congr (he : Fresh dib n load key T e) (h : key (load b) = key (load e)) :
    Fresh dib n load key T b := fun j hj hocc => h ▸ he j hj hocc

theorem fresh_iff : Fresh dib n load key T b ↔
    ∀ l, Holds dib n load T l → key l ≠ key (load b) := by
  constructor
  · rintro h l ⟨i, hi, hocc, rfl⟩
    exact h i hi hocc
  · exact fun h i hi hocc => h _ ⟨i, hi, hocc, rfl⟩

theorem card_occupied_le (hT : Distinct dib n load key T) {keys : Finset κ}
    (hkeys : ∀ l, Holds dib n load T l → key l ∈ keys) :
    (occupied dib n T).card ≤ keys.card := by
  apply Finset.card_le_card_of_injOn fun i => key (load (T i))
  · intro i hi
    obtain ⟨hlt, hocc⟩ := mem_occupied.mp hi
    exact hkeys _ ⟨i, hlt, hocc, rfl⟩
  · intro i hi j hj hkey
    obtain ⟨hilt, hiocc⟩ := mem_occupied.mp hi
    obtain ⟨hjlt, hjocc⟩ := mem_occupied.mp hj
    exact hT i hilt j hjlt hiocc hjocc hkey

/-- A table that holds no more than another does not use more slots. -/
theorem card_occupied_mono {n' : ℕ} {T' : ℕ → β} (hT : Distinct dib n load key T)
    (h : ∀ l, Holds dib n load T l → Holds dib n' load T' l) :
    (occupied dib n T).card ≤ (occupied dib n' T').card := by
  classical
  have hkeys : ∀ l, Holds dib n load T l →
      key l ∈ (occupied dib n' T').image fun i => key (load (T' i)) := by
    intro l hl
    obtain ⟨i, hi, hocc, rfl⟩ := h l hl
    exact Finset.mem_image_of_mem (fun i => key (load (T' i))) (mem_occupied.mpr ⟨hi, hocc⟩)
  exact (card_occupied_le hT hkeys).trans Finset.card_image_le

end Load

end Kademlia.Foundations.RobinHood
