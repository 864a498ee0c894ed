import Kademlia.Model.HashMap
import Kademlia.Foundations.RobinHood

/-!
The probe loops of the hash map.

An insertion of a key that is not in the table ends at the first empty bucket and
loses nothing on its way; one of a key that is there, and a lookup of it, stop at
its bucket. The count of probes does not wrap round while fewer than 2^16 - 1
buckets are in use.
-/

namespace Kademlia.Storage

open Model Foundations.RobinHood

variable {α κ : Type}

/-- Where a bucket is probed first, before the mask. -/
def bucketHome (b : Bucket α) : ℕ := b.hash.toNat

/-- What moves with a bucket. -/
def bucketLoad (b : Bucket α) : UInt64 × α := (b.hash, b.item)

/-- Every bucket can be reached, and no key lies in two. -/
structure Tidy (key : α → κ) (n : ℕ) (T : ℕ → Bucket α) : Prop where
  seated : Seated Bucket.dib bucketHome n T
  distinct : Distinct Bucket.dib n bucketLoad (fun l => key l.2) T

/-- The bucket after one more probe, as long as the count does not wrap. -/
def nextProbe (b : Bucket α) : Bucket α := { b with dib := b.dib + 1 }

theorem bump_eq_nextProbe {b : Bucket α} (h : b.dib + 1 < 2 ^ 16) : b.bump = nextProbe b := by
  rw [Bucket.bump, nextProbe, Nat.mod_eq_of_lt h]

theorem and_mask {n j : ℕ} (hn : n = 2 ^ j) (i : ℕ) : i &&& (n - 1) = i % n := by
  rw [hn, Nat.and_two_pow_sub_one_eq_mod]

section Loops

variable {key : α → κ} {same : Bucket α → Bucket α → Bool} {n j fuel : ℕ}
  {T : ℕ → Bucket α} {e : Bucket α} {i : ℕ}

/-- What an insertion at an empty bucket leaves. -/
structure Inserted (key : α → κ) (n : ℕ) (T : ℕ → Bucket α) (e : Bucket α)
    (T' : ℕ → Bucket α) : Prop where
  tidy : Tidy key n T'
  card : (occupied Bucket.dib n T').card = (occupied Bucket.dib n T).card + 1
  holds : ∀ l, Holds Bucket.dib n bucketLoad T' l ↔
    Holds Bucket.dib n bucketLoad T l ∨ l = bucketLoad e

theorem inserted_place (hT : Tidy key n T) (hi : i < n)
    (he : Reaches Bucket.dib bucketHome n T e i)
    (hf : Fresh Bucket.dib n bucketLoad (fun l => key l.2) T e) (hfree : (T i).dib = 0) :
    Inserted key n T e (Function.update T i e) where
  tidy := ⟨hT.seated.update he (by omega), hT.distinct.update hf i⟩
  card := card_occupied_place hi hfree he.pos
  holds _ := holds_place hi hfree he.pos

/-- An insertion after an exchange is one of the bucket that was exchanged. -/
theorem Inserted.of_exchange {T' : ℕ → Bucket α} {b : Bucket α} (hi : i < n)
    (hocc : (T i).dib ≠ 0) (he : e.dib ≠ 0) (h : Inserted key n (Function.update T i e) b T')
    (hb : bucketLoad b = bucketLoad (T i)) : Inserted key n T e T' where
  tidy := h.tidy
  card := by rw [h.card, occupied_exchange hocc he]
  holds l := by rw [h.holds, hb, holds_exchange hi hocc he]

theorem insertLoop_fresh (hn : n = 2 ^ j)
    (hsame : ∀ a b, same a b = true → key a.item = key b.item) (hT : Tidy key n T)
    (he : Reaches Bucket.dib bucketHome n T e i)
    (hf : Fresh Bucket.dib n bucketLoad (fun l => key l.2) T e)
    (hcard : (occupied Bucket.dib n T).card + 1 < 2 ^ 16)
    (hfree : ∃ m < fuel, (T (probe n i m)).dib = 0) :
    ∃ T', insertLoop same (n - 1) fuel T e i = some (T', none) ∧ Inserted key n T e T' := by
  have hpos : 0 < n := by
    rw [hn]
    exact Nat.two_pow_pos j
  induction fuel generalizing T e i with
  | zero => obtain ⟨m, hm, -⟩ := hfree; omega
  | succ fuel ih =>
      have hi : i < n := he.here ▸ probe_lt hpos _ _
      rw [insertLoop]
      by_cases hzero : (T i).dib = 0
      · exact ⟨_, if_pos hzero, inserted_place hT hi he hf hzero⟩
      · have hne : same e (T i) = false := by
          by_contra h
          exact hf i hi hzero (hsame _ _ (by simpa using h)).symm
        obtain ⟨m, hm, hm0⟩ := free_probe_succ hi hzero hfree
        have hother : probe n ((i + 1) % n) m ≠ i := fun h => hzero (by rwa [h] at hm0)
        simp only [hzero, hne, if_false, and_mask hn, Bool.false_eq_true]
        by_cases hlt : (T i).dib < e.dib
        · rw [if_pos hlt]
          have hle : (T i).dib ≤ ((Function.update T i e) i).dib := by
            rw [Function.update_self]
            exact hlt.le
          have hfree' : ((Function.update T i e) (probe n ((i + 1) % n) m)).dib = 0 := by
            rwa [Function.update_of_ne hother]
          have hnext : Reaches Bucket.dib bucketHome n (Function.update T i e)
              (nextProbe (T i)) ((i + 1) % n) :=
            ((hT.seated i hi hzero).update hlt.le).advance hle rfl rfl
          have hcard' : (occupied Bucket.dib n (Function.update T i e)).card + 1 < 2 ^ 16 := by
            rwa [occupied_exchange hzero he.pos]
          have hbump : (T i).bump = nextProbe (T i) :=
            bump_eq_nextProbe ((hnext.dib_le ⟨_, probe_lt hpos _ _, hfree'⟩).trans_lt hcard')
          obtain ⟨T', hrun, hins⟩ := ih
            ⟨hT.seated.update he hlt.le, hT.distinct.update hf i⟩ hnext
            ((hf.exchange hT.distinct hi hzero).congr rfl) hcard'
            ⟨m, hm, hfree'⟩
          rw [hbump]
          exact ⟨T', hrun, .of_exchange hi hzero he.pos hins rfl⟩
        · rw [if_neg hlt]
          have hnext : Reaches Bucket.dib bucketHome n T (nextProbe e) ((i + 1) % n) :=
            he.advance (by omega) rfl rfl
          have hbump : e.bump = nextProbe e :=
            bump_eq_nextProbe ((hnext.dib_le ⟨_, probe_lt hpos _ _, hm0⟩).trans_lt hcard)
          rw [hbump]
          obtain ⟨T', hrun, hins⟩ := ih hT hnext (hf.congr rfl) hcard ⟨m, hm, hm0⟩
          exact ⟨T', hrun, hins.tidy, hins.card, hins.holds⟩

/-- Up to its own slot, a seated bucket is behind buckets that took more probes than it had. -/
theorem probes_before {p k : ℕ} (hp : Reaches Bucket.dib bucketHome n T (T p) p)
    (hk : k < (T p).dib) : k < (T (probe n (bucketHome (T p)) k)).dib := by
  by_cases hlast : k + 1 = (T p).dib
  · have hslot : probe n (bucketHome (T p)) k = p := by
      rw [show k = (T p).dib - 1 by omega]
      exact hp.here
    rwa [hslot]
  · exact hp.passed k (by omega)

theorem insertLoop_found {p k : ℕ} (hn : n = 2 ^ j) (hT : Tidy key n T)
    (hsame : ∀ a b, same a b = true ↔ a.hash = b.hash ∧ key a.item = key b.item)
    (hp : p < n) (hocc : (T p).dib ≠ 0) (hshort : (T p).dib < 2 ^ 16)
    (hhash : e.hash = (T p).hash) (hkey : key e.item = key (T p).item)
    (hk : k < (T p).dib) (hdib : e.dib = k + 1) (hfuel : (T p).dib ≤ fuel + k) :
    insertLoop same (n - 1) fuel T e (probe n (bucketHome (T p)) k) =
      some (Function.update T p { T p with item := e.item }, some (T p).item) := by
  have hreach := hT.seated p hp hocc
  have hpos : 0 < n := Nat.zero_lt_of_lt hp
  induction fuel generalizing e k with
  | zero => omega
  | succ fuel ih =>
      have hfull := probes_before hreach hk
      rw [insertLoop, if_neg (by omega)]
      by_cases h : same e (T (probe n (bucketHome (T p)) k)) = true
      · have hslot : probe n (bucketHome (T p)) k = p :=
          hT.distinct _ (probe_lt hpos _ _) p hp (by omega) hocc
            (((hsame _ _).mp h).2.symm.trans hkey)
        rw [if_pos h, hslot]
      · have hmore : k + 1 < (T p).dib := by
          by_contra hlast
          apply h
          rw [show k = (T p).dib - 1 by omega, hreach.here, hsame]
          exact ⟨hhash, hkey⟩
        rw [if_neg h, if_neg (by omega), and_mask hn, probe_succ,
          bump_eq_nextProbe (by omega)]
        exact ih hhash hkey hmore (by rw [nextProbe, hdib]) (by omega)

theorem tidy_replace {p : ℕ} {x : α} (hT : Tidy key n T) (hp : p < n) (hocc : (T p).dib ≠ 0)
    (hkey : key x = key (T p).item) :
    Tidy key n (Function.update T p { T p with item := x }) := by
  have hreach := hT.seated p hp hocc
  refine ⟨hT.seated.update (e := { T p with item := x })
    ⟨hreach.pos, hreach.here, hreach.passed⟩ le_rfl, ?_⟩
  have hload : ∀ i, key (bucketLoad (Function.update T p { T p with item := x } i)).2 =
      key (bucketLoad (T i)).2 := by
    intro i
    by_cases h : i = p
    · subst h
      rw [Function.update_self]
      exact hkey
    · rw [Function.update_of_ne h]
  have hdib : ∀ i, (Function.update T p { T p with item := x } i).dib = (T i).dib := by
    intro i
    by_cases h : i = p
    · subst h
      rw [Function.update_self]
    · rw [Function.update_of_ne h]
  intro i hi k hk hiocc hkocc heq
  rw [hdib] at hiocc hkocc
  exact hT.distinct i hi k hk hiocc hkocc ((hload i).symm.trans (heq.trans (hload k)))

end Loops

section Lookups

variable {map : Hashmap α} {key : α → κ} {j fuel : ℕ} {x : α} {hash : UInt64}

theorem getLoop_found {p k : ℕ} (hn : map.nbuckets = 2 ^ j) (hmask : map.mask = map.nbuckets - 1)
    (hT : Tidy key map.nbuckets map.buckets)
    (hsame : ∀ a b, map.sameItem a b = true ↔ key a = key b) (hp : p < map.nbuckets)
    (hocc : (map.buckets p).dib ≠ 0) (hhash : (map.buckets p).hash = hash)
    (hkey : key x = key (map.buckets p).item) (hk : k < (map.buckets p).dib)
    (hfuel : (map.buckets p).dib ≤ fuel + k) :
    getLoop map x hash fuel (probe map.nbuckets (bucketHome (map.buckets p)) k) =
      some (some (map.buckets p).item) := by
  have hreach := hT.seated p hp hocc
  have hpos : 0 < map.nbuckets := Nat.zero_lt_of_lt hp
  induction fuel generalizing k with
  | zero => omega
  | succ fuel ih =>
      have hfull := probes_before hreach hk
      rw [getLoop, if_neg (by omega)]
      by_cases h : key x = key (map.buckets (probe map.nbuckets
          (bucketHome (map.buckets p)) k)).item
      · have hslot : probe map.nbuckets (bucketHome (map.buckets p)) k = p :=
          hT.distinct _ (probe_lt hpos _ _) p hp (by omega) hocc (h.symm.trans hkey)
        rw [hslot, if_pos (by simp [hhash, (hsame _ _).mpr hkey])]
      · have hmore : k + 1 < (map.buckets p).dib := by
          by_contra hlast
          apply h
          rw [show k = (map.buckets p).dib - 1 by omega, hreach.here]
          exact hkey
        have hdiff : map.sameItem x (map.buckets (probe map.nbuckets
            (bucketHome (map.buckets p)) k)).item = false := by
          rw [Bool.eq_false_iff, ne_eq, hsame]
          exact h
        rw [if_neg (by simp [hdiff]), hmask, and_mask hn, probe_succ]
        exact ih hmore (by omega)

theorem getLoop_absent {i : ℕ} (hn : map.nbuckets = 2 ^ j) (hmask : map.mask = map.nbuckets - 1)
    (hsame : ∀ a b, map.sameItem a b = true ↔ key a = key b)
    (habsent : ∀ i < map.nbuckets, (map.buckets i).dib ≠ 0 → key x ≠ key (map.buckets i).item)
    (hi : i < map.nbuckets)
    (hfree : ∃ m < fuel, (map.buckets (probe map.nbuckets i m)).dib = 0) :
    getLoop map x hash fuel i = some none := by
  induction fuel generalizing i with
  | zero => obtain ⟨m, hm, -⟩ := hfree; omega
  | succ fuel ih =>
      rw [getLoop]
      by_cases hzero : (map.buckets i).dib = 0
      · rw [if_pos hzero]
      · have hdiff : map.sameItem x (map.buckets i).item = false := by
          rw [Bool.eq_false_iff, ne_eq, hsame]
          exact habsent i hi hzero
        rw [if_neg hzero, if_neg (by simp [hdiff]), hmask, and_mask hn]
        exact ih (Nat.mod_lt _ (Nat.zero_lt_of_lt hi)) (free_probe_succ hi hzero hfree)

end Lookups

end Kademlia.Storage
