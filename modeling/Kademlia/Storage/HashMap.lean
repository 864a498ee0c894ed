import Kademlia.Storage.Probing
import Kademlia.Foundations.Machine

/-!
The hash map is a finite map.

`Sound` is what every operation keeps, `Represents` reads the map as a function
from keys to items. A lookup answers as that function, a set updates it, and a
set that needs more memory than there is changes neither.
-/

namespace Kademlia.Storage

open Model Foundations Foundations.RobinHood

variable {α κ : Type} {key : α → κ} {map map' : Hashmap α} {f : κ → Option α}

def usedSlots (map : Hashmap α) : Finset ℕ := occupied Bucket.dib map.nbuckets map.buckets

/-- `x` lies in the map under the hash `h`. -/
def StoredAt (map : Hashmap α) (h : UInt64) (x : α) : Prop :=
  Holds Bucket.dib map.nbuckets bucketLoad map.buckets (h, x)

/-- `compare` and `hash` are about the key only. -/
structure Keyed (key : α → κ) (map : Hashmap α) : Prop where
  same : ∀ a b, map.sameItem a b = true ↔ key a = key b
  hash : ∀ a b, key a = key b → getHash map a = getHash map b

/-- What every operation keeps. -/
structure Sound (key : α → κ) (map : Hashmap α) : Prop where
  keyed : Keyed key map
  size : ∃ j, map.nbuckets = 2 ^ (j + 4)
  mask : map.mask = map.nbuckets - 1
  growat : map.growat = map.nbuckets * loadFactor / 100
  tidy : Tidy key map.nbuckets map.buckets
  hashes : ∀ h x, StoredAt map h x → h = getHash map x
  count : (usedSlots map).card = map.count
  fits : map.count ≤ map.growat

/-- The map as a function. -/
structure Represents (key : α → κ) (map : Hashmap α) (f : κ → Option α) : Prop where
  keys : ∀ k x, f k = some x → key x = k
  stored : ∀ x, f (key x) = some x ↔ StoredAt map (getHash map x) x

theorem Sound.pos (h : Sound key map) : 16 ≤ map.nbuckets := by
  obtain ⟨j, hj⟩ := h.size
  rw [hj, pow_add]
  exact Nat.le_mul_of_pos_left 16 (Nat.two_pow_pos j)

theorem Sound.growat_lt (h : Sound key map) : map.growat < map.nbuckets := by
  have hpos := h.pos
  rw [h.growat, loadFactor]
  omega

theorem Sound.hasRoom (h : Sound key map) : HasRoom Bucket.dib map.nbuckets map.buckets := by
  apply hasRoom_of_card_lt
  have hcount : (occupied Bucket.dib map.nbuckets map.buckets).card = map.count := h.count
  rw [hcount]
  exact h.fits.trans_lt h.growat_lt

theorem Sound.dib_le (h : Sound key map) {p : ℕ} (hp : p < map.nbuckets)
    (hocc : (map.buckets p).dib ≠ 0) : (map.buckets p).dib ≤ map.count + 1 :=
  h.count ▸ (h.tidy.seated p hp hocc).dib_le h.hasRoom

@[simp] theorem clipHash_clipHash (hash : UInt64) : clipHash (clipHash hash) = clipHash hash := by
  rw [clipHash, clipHash, UInt64.and_assoc, UInt64.and_self]

@[simp] theorem clipHash_getHash (map : Hashmap α) (x : α) :
    clipHash (getHash map x) = getHash map x := clipHash_clipHash _

theorem Represents.congr (hf : Represents key map f)
    (hhash : ∀ x, getHash map' x = getHash map x)
    (h : ∀ h x, StoredAt map' h x ↔ StoredAt map h x) : Represents key map' f where
  keys := hf.keys
  stored x := by rw [hf.stored, h, hhash]

/-- A map that holds `x`, and apart from it what it held under other keys. -/
theorem Represents.update [DecidableEq κ] (hf : Represents key map f) {x : α}
    (hhash : ∀ x, getHash map' x = getHash map x)
    (h : ∀ h y, StoredAt map' h y ↔
      (h, y) = (getHash map x, x) ∨ StoredAt map h y ∧ key y ≠ key x) :
    Represents key map' (Function.update f (key x) (some x)) where
  keys k y hy := by
    by_cases hk : k = key x
    · subst hk
      rw [Function.update_self] at hy
      rw [← Option.some.inj hy]
    · rw [Function.update_of_ne hk] at hy
      exact hf.keys k y hy
  stored y := by
    rw [hhash, h]
    by_cases hkey : key y = key x
    · rw [hkey, Function.update_self]
      constructor
      · intro hy
        exact Or.inl (by rw [Option.some.inj hy])
      · rintro (hy | ⟨-, hne⟩)
        · rw [(Prod.mk.inj hy).2]
        · exact absurd rfl hne
    · rw [Function.update_of_ne hkey, hf.stored]
      constructor
      · exact fun hy => Or.inr ⟨hy, hkey⟩
      · rintro (hy | ⟨hy, -⟩)
        · exact absurd (by rw [(Prod.mk.inj hy).2]) hkey
        · exact hy

section Slots

variable (hmap : Sound key map) (hf : Represents key map f) {x : α}
include hmap hf

theorem exists_slot {y : α} (hy : f (key x) = some y) :
    ∃ p < map.nbuckets, (map.buckets p).dib ≠ 0 ∧ (map.buckets p).item = y ∧
      key y = key x ∧ (map.buckets p).hash = getHash map x := by
  have hkey : key y = key x := hf.keys _ _ hy
  have hy' : f (key y) = some y := by rw [hkey, hy]
  obtain ⟨p, hp, hocc, hload⟩ := (hf.stored y).mp hy'
  refine ⟨p, hp, hocc, congrArg Prod.snd hload, hkey, ?_⟩
  exact (congrArg Prod.fst hload).trans (hmap.keyed.hash _ _ hkey)

theorem no_slot (hnone : f (key x) = none) :
    ∀ i < map.nbuckets, (map.buckets i).dib ≠ 0 → key x ≠ key (map.buckets i).item := by
  intro i hi hocc hkey
  have hstored : StoredAt map (map.buckets i).hash (map.buckets i).item := ⟨i, hi, hocc, rfl⟩
  rw [hmap.hashes _ _ hstored] at hstored
  rw [hkey, (hf.stored _).mpr hstored] at hnone
  cases hnone

theorem hashmapGet_eq (x : α) : hashmapGet map x = some (f (key x)) := by
  obtain ⟨j, hj⟩ := hmap.size
  have hpos := hmap.pos
  rw [hashmapGet, hashmapGetWithHash, clipHash_getHash, hmap.mask, and_mask hj]
  cases hx : f (key x) with
  | none =>
      exact getLoop_absent hj hmap.mask hmap.keyed.same (no_slot hmap hf hx)
        (Nat.mod_lt _ (by omega)) (exists_free_probe hmap.hasRoom _)
  | some y =>
      obtain ⟨p, hp, hocc, rfl, hkey, hhash⟩ := exists_slot hmap hf hx
      have hlt : (map.buckets p).dib ≤ map.nbuckets :=
        (hmap.dib_le hp hocc).trans (hmap.fits.trans_lt hmap.growat_lt)
      have hstart : (getHash map x).toNat % map.nbuckets =
          probe map.nbuckets (bucketHome (map.buckets p)) 0 := by
        rw [probe, Nat.add_zero, bucketHome, hhash]
      rw [hstart]
      exact getLoop_found hj hmap.mask hmap.tidy hmap.keyed.same hp hocc hhash hkey.symm
        (Nat.pos_of_ne_zero hocc) hlt

end Slots

theorem holds_replace {n p : ℕ} {T : ℕ → Bucket α} {x : α} {l : UInt64 × α}
    (hT : Tidy key n T) (hp : p < n) (hocc : (T p).dib ≠ 0) (hkey : key (T p).item = key x) :
    Holds Bucket.dib n bucketLoad (Function.update T p { T p with item := x }) l ↔
      l = ((T p).hash, x) ∨ Holds Bucket.dib n bucketLoad T l ∧ key l.2 ≠ key x := by
  constructor
  · rintro ⟨i, hi, hiocc, rfl⟩
    by_cases h : i = p
    · subst h
      rw [Function.update_self]
      exact Or.inl rfl
    · rw [Function.update_of_ne h] at hiocc ⊢
      exact Or.inr ⟨⟨i, hi, hiocc, rfl⟩, fun heq =>
        h (hT.distinct i hi p hp hiocc hocc (heq.trans hkey.symm))⟩
  · rintro (rfl | ⟨⟨i, hi, hiocc, rfl⟩, hne⟩)
    · exact ⟨p, hp, by rwa [Function.update_self], by rw [Function.update_self]; rfl⟩
    · have h : i ≠ p := fun h => hne (by rw [h]; exact hkey)
      exact ⟨i, hi, by rwa [Function.update_of_ne h], by rw [Function.update_of_ne h]⟩

theorem sameEntry_iff (hkeyed : Keyed key map) (a b : Bucket α) :
    map.sameEntry a b = true ↔ a.hash = b.hash ∧ key a.item = key b.item := by
  rw [Hashmap.sameEntry, Bool.and_eq_true, beq_iff_eq, hkeyed.same]

/-! ### Growing -/

section Rounding

variable {cap : ℕ} (hcap : cap ≤ 2 ^ 63)
include hcap

/-- A number that is still too small is doubled without a carry. -/
theorem doubleTo_succ (fuel ncap : ℕ) :
    doubleTo cap (fuel + 1) ncap = if ncap < cap then doubleTo cap fuel (ncap * 2) else ncap := by
  rw [doubleTo]
  split
  · rw [Nat.mod_eq_of_lt (by omega)]
  · rfl

theorem doubleTo_pow (fuel i : ℕ) : ∃ j, doubleTo cap fuel (2 ^ (i + 4)) = 2 ^ (j + 4) := by
  induction fuel generalizing i with
  | zero => exact ⟨i, rfl⟩
  | succ fuel ih =>
      rw [doubleTo_succ hcap]
      by_cases h : 2 ^ (i + 4) < cap
      · rw [if_pos h, ← pow_succ, show i + 4 + 1 = i + 1 + 4 by omega]
        exact ih (i + 1)
      · exact ⟨i, if_neg h⟩

theorem le_doubleTo {fuel ncap : ℕ} (h : cap ≤ ncap * 2 ^ fuel) :
    cap ≤ doubleTo cap fuel ncap := by
  induction fuel generalizing ncap with
  | zero => simpa [doubleTo] using h
  | succ fuel ih =>
      rw [doubleTo_succ hcap]
      by_cases hlt : ncap < cap
      · rw [if_pos hlt]
        exact ih (by rwa [Nat.mul_assoc, ← pow_succ'])
      · rw [if_neg hlt]
        omega

theorem roundCap_pow : ∃ j, roundCap cap = 2 ^ (j + 4) := by
  rw [roundCap]
  by_cases h : cap < 16
  · exact ⟨0, if_pos h⟩
  · rw [if_neg h]
    exact doubleTo_pow hcap cap 0

theorem le_roundCap : cap ≤ roundCap cap := by
  rw [roundCap]
  by_cases h : cap < 16
  · rw [if_pos h]
    omega
  · rw [if_neg h]
    apply le_doubleTo hcap
    have hpow : cap < 2 ^ cap := Nat.lt_two_pow_self
    omega

end Rounding

variable [Inhabited α]

theorem hashmapNew_sound {cap : ℕ} {seed0 seed1 : UInt64} {hash : α → UInt64 → UInt64 → UInt64}
    {compare : Option (α → α → ℤ)}
    (hcap : cap ≤ 2 ^ 63) (h : hashmapNew cap seed0 seed1 hash compare true = some map)
    (hkeyed : Keyed key map) :
    Sound key map ∧ Represents key map fun _ => none := by
  have hmap := Option.some.inj h
  have hempty : ∀ i, (map.buckets i).dib = 0 := fun i => by rw [← hmap]
  have hnone : ∀ h x, ¬ StoredAt map h x := fun _ _ ⟨i, _, hocc, _⟩ => hocc (hempty i)
  have hslots : usedSlots map = ∅ :=
    Finset.eq_empty_iff_forall_notMem.mpr fun i hi => (mem_occupied.mp hi).2 (hempty i)
  have hcount : map.count = 0 := by rw [← hmap]
  constructor
  · exact {
      keyed := hkeyed
      size := by rw [← hmap]; exact roundCap_pow hcap
      mask := by rw [← hmap]
      growat := by rw [← hmap]
      tidy := ⟨fun i _ hocc => absurd (hempty i) hocc,
        fun i _ _ _ hocc => absurd (hempty i) hocc⟩
      hashes := fun h x hx => absurd hx (hnone h x)
      count := by rw [hslots, Finset.card_empty, hcount]
      fits := by rw [hcount]; exact Nat.zero_le _ }
  · exact ⟨fun _ _ h => (nomatch h), fun x => iff_of_false (fun h => nomatch h) (hnone _ x)⟩

omit [Inhabited α] in
/-- The buckets that `resize0` moves are compared with none. -/
theorem noMatch_key (key : α → κ) (a b : Bucket α)
    (h : (fun _ _ => false : Bucket α → Bucket α → Bool) a b = true) : key a.item = key b.item :=
  nomatch h

omit [Inhabited α] in
/-- The loop of `resize0` keeps what the new buckets hold and adds the old ones it goes over. -/
theorem reinsert_spec {n n' j : ℕ} {old new : ℕ → Bucket α} {is : List ℕ} (hn' : n' = 2 ^ j)
    (hold : Distinct Bucket.dib n bucketLoad (fun l => key l.2) old) (hnew : Tidy key n' new)
    (his : ∀ i ∈ is, i < n) (hnodup : is.Nodup)
    (hfresh : ∀ i ∈ is, (old i).dib ≠ 0 →
      Fresh Bucket.dib n' bucketLoad (fun l => key l.2) new (old i))
    (hsub : ∀ l, Holds Bucket.dib n' bucketLoad new l → Holds Bucket.dib n bucketLoad old l)
    (hcount : (occupied Bucket.dib n old).card + 1 < 2 ^ 16)
    (hroom : (occupied Bucket.dib n old).card < n') :
    ∃ new', reinsert (n' - 1) n' old new is = some new' ∧ Tidy key n' new' ∧
      ∀ l, Holds Bucket.dib n' bucketLoad new' l ↔ Holds Bucket.dib n' bucketLoad new l ∨
        ∃ i ∈ is, (old i).dib ≠ 0 ∧ bucketLoad (old i) = l := by
  induction is generalizing new with
  | nil => exact ⟨new, rfl, hnew, by simp⟩
  | cons i is ih =>
      obtain ⟨hi, his⟩ := List.forall_mem_cons.mp his
      obtain ⟨hfi, hfresh⟩ := List.forall_mem_cons.mp hfresh
      obtain ⟨hnotin, hnodup⟩ := List.nodup_cons.mp hnodup
      by_cases hzero : (old i).dib = 0
      · obtain ⟨new', hrun, htidy, hholds⟩ := ih hnew his hnodup hfresh hsub
        refine ⟨new', ?_, htidy, fun l => ?_⟩
        · rw [reinsert, List.foldlM_cons, if_pos hzero]
          exact hrun
        · simp [hholds, hzero]
      · have hcard := card_occupied_mono hnew.distinct hsub
        have hstart : Reaches Bucket.dib bucketHome n' new { old i with dib := 1 }
            ((old i).hash.toNat % n') := .start new rfl
        obtain ⟨new₁, hins, hinserted⟩ := insertLoop_fresh hn' (noMatch_key key) hnew hstart
          ((hfi hzero).congr rfl) (by omega) (exists_free_probe (hasRoom_of_card_lt (by omega)) _)
        obtain ⟨new', hrun, htidy, hholds⟩ := ih hinserted.tidy his hnodup
          (by
            intro k hk hocc
            rw [fresh_iff]
            intro l hl
            rcases (hinserted.holds l).mp hl with hl | rfl
            · exact fresh_iff.mp (hfresh k hk hocc) l hl
            · intro hkey
              have heq := hold i hi k (his k hk) hzero hocc hkey
              exact hnotin (heq ▸ hk))
          (by
            intro l hl
            rcases (hinserted.holds l).mp hl with hl | rfl
            · exact hsub l hl
            · exact ⟨i, hi, hzero, rfl⟩)
        refine ⟨new', ?_, htidy, fun l => ?_⟩
        · rw [reinsert, List.foldlM_cons, if_neg hzero, and_mask hn', hins]
          exact hrun
        · have hload : bucketLoad { old i with dib := 1 } = bucketLoad (old i) := rfl
          simp only [hholds, hinserted.holds, hload, List.exists_mem_cons_iff]
          grind

/-- `resize0` moves the contents of the map into at least `cap` buckets. -/
theorem resize0_spec (hmap : Sound key map) (hf : Represents key map f)
    (hcount : map.count + 1 < 2 ^ 16) {cap : ℕ} (hcap : map.nbuckets ≤ cap)
    (hsize : cap ≤ 2 ^ 63) :
    ∃ map', resize0 map cap true = some (true, map') ∧ Sound key map' ∧ Represents key map' f ∧
      map'.count = map.count ∧ map'.oom = map.oom ∧ cap ≤ map'.nbuckets ∧
      (∀ x, getHash map' x = getHash map x) := by
  obtain ⟨j, hj⟩ := roundCap_pow hsize
  have hle := le_roundCap hsize
  have hcard : (occupied Bucket.dib map.nbuckets map.buckets).card = map.count := hmap.count
  have hroom : map.count < map.nbuckets := hmap.fits.trans_lt hmap.growat_lt
  have hnew : Tidy key (roundCap cap) (fun _ => (⟨0, 0, default⟩ : Bucket α)) :=
    ⟨fun _ _ hocc => absurd rfl hocc, fun _ _ _ _ hocc => absurd rfl hocc⟩
  obtain ⟨buckets, hrun, htidy, hholds⟩ := reinsert_spec hj hmap.tidy.distinct hnew
    (fun i (hi : i ∈ List.range map.nbuckets) => List.mem_range.mp hi) List.nodup_range
    (fun _ _ _ _ _ hocc => absurd rfl hocc) (fun _ ⟨_, _, hocc, _⟩ => absurd rfl hocc)
    (by omega) (by omega)
  have hsame : ∀ l, Holds Bucket.dib (roundCap cap) bucketLoad buckets l ↔
      Holds Bucket.dib map.nbuckets bucketLoad map.buckets l := by
    intro l
    rw [hholds]
    constructor
    · rintro (⟨_, _, hocc, _⟩ | ⟨i, hi, hocc, hl⟩)
      · exact absurd rfl hocc
      · exact ⟨i, List.mem_range.mp hi, hocc, hl⟩
    · rintro ⟨i, hi, hocc, hl⟩
      exact Or.inr ⟨i, List.mem_range.mpr hi, hocc, hl⟩
  refine ⟨{ map with
    buckets, nbuckets := roundCap cap, mask := roundCap cap - 1,
    growat := roundCap cap * loadFactor / 100 }, ?_, ?_, ?_, rfl, rfl, hle, fun _ => rfl⟩
  · simp only [resize0, hashmapNew, if_true, hrun, Option.bind_eq_bind, Option.bind_some]
    rfl
  · exact {
      keyed := ⟨hmap.keyed.same, hmap.keyed.hash⟩
      size := ⟨j, hj⟩
      mask := rfl
      growat := rfl
      tidy := htidy
      hashes := fun h x hx => hmap.hashes h x ((hsame (h, x)).mp hx)
      count := hcard ▸ le_antisymm
        (card_occupied_mono htidy.distinct fun l => (hsame l).mp)
        (card_occupied_mono hmap.tidy.distinct fun l => (hsame l).mpr)
      fits := by
        have hfits := hmap.fits
        rw [hmap.growat] at hfits
        exact hfits.trans (Nat.div_le_div_right (Nat.mul_le_mul_right _ (hcap.trans hle))) }
  · exact hf.congr (fun _ => rfl) fun h x => hsame (h, x)

/-! ### Setting -/

section Set

variable [DecidableEq κ]

omit [Inhabited α] in
theorem storeItem_spec (hmap : Sound key map) (hf : Represents key map f)
    (hcount : map.count + 1 < 2 ^ 16) (hroom : map.count < map.growat) (x : α) :
    ∃ map', storeItem map x (getHash map x) = some (f (key x), map') ∧ Sound key map' ∧
      Represents key map' (Function.update f (key x) (some x)) ∧ map'.oom = map.oom := by
  obtain ⟨j, hj⟩ := hmap.size
  have hpos := hmap.pos
  have hcard : (occupied Bucket.dib map.nbuckets map.buckets).card = map.count := hmap.count
  rw [storeItem, hmap.mask, and_mask hj]
  cases hx : f (key x) with
  | none =>
      have hfresh : Fresh Bucket.dib map.nbuckets bucketLoad (fun l => key l.2) map.buckets
          ⟨getHash map x, 1, x⟩ := fun i hi hocc => (no_slot hmap hf hx i hi hocc).symm
      have hstart : Reaches Bucket.dib bucketHome map.nbuckets map.buckets
          ⟨getHash map x, 1, x⟩ ((getHash map x).toNat % map.nbuckets) := .start _ rfl
      obtain ⟨buckets, hrun, hins⟩ := insertLoop_fresh
        hj (fun a b h => ((sameEntry_iff hmap.keyed a b).mp h).2) hmap.tidy hstart hfresh
        (by omega) (exists_free_probe hmap.hasRoom _)
      rw [hrun]
      have hstored : ∀ h y, Holds Bucket.dib map.nbuckets bucketLoad buckets (h, y) ↔
          (h, y) = (getHash map x, x) ∨ StoredAt map h y ∧ key y ≠ key x := by
        intro h y
        rw [hins.holds]
        constructor
        · rintro (hy | hy)
          · exact Or.inr ⟨hy, fresh_iff.mp hfresh _ hy⟩
          · exact Or.inl hy
        · rintro (hy | ⟨hy, -⟩)
          · exact Or.inr hy
          · exact Or.inl hy
      refine ⟨_, rfl, ?_, hf.update (fun _ => rfl) hstored, rfl⟩
      exact {
        keyed := ⟨hmap.keyed.same, hmap.keyed.hash⟩
        size := ⟨j, hj⟩
        mask := rfl
        growat := hmap.growat
        tidy := hins.tidy
        hashes := by
          intro h y hy
          rcases (hstored h y).mp hy with hy | ⟨hy, -⟩
          · obtain ⟨rfl, rfl⟩ := Prod.mk.inj hy
            rfl
          · exact hmap.hashes h y hy
        count := hins.card.trans (by rw [hcard])
        fits := hroom }
  | some y =>
      obtain ⟨p, hp, hocc, rfl, hkey, hhash⟩ := exists_slot hmap hf hx
      have hle : (map.buckets p).dib ≤ map.count + 1 := hmap.dib_le hp hocc
      have hlt : map.count < map.nbuckets := hmap.fits.trans_lt hmap.growat_lt
      have hstart : (getHash map x).toNat % map.nbuckets =
          probe map.nbuckets (bucketHome (map.buckets p)) 0 := by
        rw [probe, Nat.add_zero, bucketHome, hhash]
      have hrun := insertLoop_found (e := ⟨getHash map x, 1, x⟩) (k := 0) hj hmap.tidy
        (sameEntry_iff hmap.keyed) hp hocc (by omega) hhash.symm hkey.symm
        (Nat.pos_of_ne_zero hocc) rfl
        (show (map.buckets p).dib ≤ map.nbuckets + 0 by omega)
      rw [hstart, hrun]
      have hstored : ∀ h z, Holds Bucket.dib map.nbuckets bucketLoad (Function.update map.buckets p
          { map.buckets p with item := x }) (h, z) ↔
          (h, z) = (getHash map x, x) ∨ StoredAt map h z ∧ key z ≠ key x := by
        intro h z
        rw [holds_replace hmap.tidy hp hocc hkey, hhash]
        rfl
      refine ⟨_, rfl, ?_, hf.update (fun _ => rfl) hstored, rfl⟩
      exact {
        keyed := ⟨hmap.keyed.same, hmap.keyed.hash⟩
        size := ⟨j, hj⟩
        mask := rfl
        growat := hmap.growat
        tidy := tidy_replace hmap.tidy hp hocc hkey.symm
        hashes := by
          intro h z hz
          rcases (hstored h z).mp hz with hz | ⟨hz, -⟩
          · obtain ⟨rfl, rfl⟩ := Prod.mk.inj hz
            rfl
          · exact hmap.hashes h z hz
        count := by
          show (occupied Bucket.dib map.nbuckets (Function.update map.buckets p
            { map.buckets p with item := x })).card = map.count
          rw [occupied_exchange hocc (by exact hocc), hcard]
        fits := hmap.fits }

omit [Inhabited α] [DecidableEq κ] in
theorem Sound.setOom (hmap : Sound key map) (oom : Bool) : Sound key { map with oom } where
  keyed := ⟨hmap.keyed.same, hmap.keyed.hash⟩
  size := hmap.size
  mask := hmap.mask
  growat := hmap.growat
  tidy := hmap.tidy
  hashes := hmap.hashes
  count := hmap.count
  fits := hmap.fits

omit [Inhabited α] [DecidableEq κ] in
theorem Represents.setOom (hf : Represents key map f) (oom : Bool) :
    Represents key { map with oom } f := ⟨hf.keys, hf.stored⟩

/-- A set answers with the item it replaces and updates the function, unless it needs memory and
there is none: then it only takes note of that. -/
theorem hashmapSet_spec (hmap : Sound key map) (hf : Represents key map f)
    (hcount : map.count + 1 < 2 ^ 16) (x : α) (alloc : Bool) :
    (alloc = true ∨ map.count < map.growat →
      ∃ map', hashmapSet map x alloc = some (f (key x), map') ∧ Sound key map' ∧
        Represents key map' (Function.update f (key x) (some x)) ∧ map'.oom = false) ∧
    (alloc = false → map.growat ≤ map.count →
      hashmapSet map x alloc = some (none, { map with oom := true })) := by
  have hsound := hmap.setOom false
  have hrep := hf.setOom false
  constructor
  · intro hmem
    rw [hashmapSet, hashmapSetWithHash, clipHash_getHash]
    by_cases hgrow : map.growat ≤ map.count
    · obtain rfl : alloc = true := hmem.resolve_right (by omega)
      -- a map that has to grow is small
      have hsize : map.nbuckets * 2 ^ growPower ≤ 2 ^ 63 := by
        rw [hmap.growat, loadFactor] at hgrow
        rw [growPower]
        omega
      have hwrap : ({ map with oom := false } : Hashmap α).nbuckets * 2 ^ growPower % 2 ^ 64 =
          map.nbuckets * 2 ^ growPower := Nat.mod_eq_of_lt (hsize.trans_lt (by decide))
      rw [hwrap]
      obtain ⟨m, hrun, hm, hfm, hsame, hoom, hcap, hhash⟩ := resize0_spec hsound hrep hcount
        (Nat.le_mul_of_pos_right map.nbuckets (show 0 < 2 ^ growPower by decide)) hsize
      have hroom : m.count < m.growat := by
        have hpos := hmap.pos
        have hfits := hmap.fits
        have hm16 := hm.growat
        rw [hmap.growat, loadFactor] at hfits
        rw [growPower] at hcap
        rw [hm16, loadFactor, hsame]
        dsimp only
        omega
      obtain ⟨map', hstore, hsound', hrep', hoom'⟩ :=
        storeItem_spec hm hfm (by rw [hsame]; exact hcount) hroom x
      refine ⟨map', ?_, hsound', hrep', hoom'.trans hoom⟩
      rw [if_pos hgrow, hrun, ← hstore, hhash]
      rfl
    · obtain ⟨map', hstore, hsound', hrep', hoom'⟩ :=
        storeItem_spec hsound hrep hcount (Nat.lt_of_not_le hgrow) x
      exact ⟨map', by rw [if_neg hgrow, ← hstore]; rfl, hsound', hrep', hoom'⟩
  · rintro rfl hgrow
    rw [hashmapSet, hashmapSetWithHash, if_pos hgrow]
    rfl

end Set

end Kademlia.Storage
