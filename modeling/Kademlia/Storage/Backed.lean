import Kademlia.Storage.HashMap

/-!
Runs of the hash map, and of the storage on top of it.

Every run of sets and lookups answers as a finite map does, whatever `malloc`
answers, as long as fewer than 2^16 - 1 keys are ever set. So the storage, which
asks the hash map before every put, is a map in which the first entry of a key
stays. It does not ask whether there was memory for a put.
-/

namespace Kademlia.Storage

open Model Foundations Foundations.RobinHood

/-- A call of the hash map; a set comes with what `malloc` answers during it. -/
inductive MapCall (α : Type)
  | get (key : α)
  | set (item : α) (alloc : Bool)

/-- What a call tells its caller; `outOfMemory` is `hashmap_oom` after a set. -/
inductive MapAnswer (α : Type)
  | found (item : Option α)
  | replaced (item : Option α)
  | outOfMemory

section Map

variable {α κ : Type} [Inhabited α]

/-- The state and the answer are `none` from the first loop that does not end. -/
def hashmapStep : Machine (Option (Hashmap α)) (MapCall α) (Option (MapAnswer α))
  | none, _ => (none, none)
  | some map, .get key =>
      match hashmapGet map key with
      | none => (none, none)
      | some item => (some (.found item), some map)
  | some map, .set item alloc =>
      match hashmapSet map item alloc with
      | none => (none, none)
      | some (old, map) => (some (if map.oom then .outOfMemory else .replaced old), some map)

variable [DecidableEq κ]

/-- The answers of a finite map `f`, in which a set is dropped only when it says so and `malloc`
failed. -/
inductive Explains (key : α → κ) :
    (κ → Option α) → List (MapCall α) → List (Option (MapAnswer α)) → Prop
  | done (f) : Explains key f [] []
  | get {f calls answers} (x : α) (h : Explains key f calls answers) :
      Explains key f (.get x :: calls) (some (.found (f (key x))) :: answers)
  | set {f calls answers} (x : α) (alloc : Bool)
      (h : Explains key (Function.update f (key x) (some x)) calls answers) :
      Explains key f (.set x alloc :: calls) (some (.replaced (f (key x))) :: answers)
  | dropped {f calls answers} (x : α) (h : Explains key f calls answers) :
      Explains key f (.set x false :: calls) (some .outOfMemory :: answers)

def setKeys (key : α → κ) : List (MapCall α) → Finset κ
  | [] => ∅
  | .get _ :: calls => setKeys key calls
  | .set x _ :: calls => insert (key x) (setKeys key calls)

variable {key : α → κ} {map : Hashmap α} {f : κ → Option α} {keys : Finset κ}
  {calls : List (MapCall α)}

omit [Inhabited α] [DecidableEq κ] in
theorem count_le (hmap : Sound key map) (hf : Represents key map f)
    (hkeys : ∀ k, f k ≠ none → k ∈ keys) : map.count ≤ keys.card := by
  rw [← hmap.count]
  refine card_occupied_le hmap.tidy.distinct fun l hl => hkeys _ ?_
  have hstored : StoredAt map l.1 l.2 := hl
  rw [hmap.hashes _ _ hstored, ← hf.stored] at hstored
  rw [hstored]
  exact Option.some_ne_none _

theorem hashmapStep_explained (hmap : Sound key map) (hf : Represents key map f)
    (hsmall : keys.card + 1 < 2 ^ 16) (hkeys : ∀ k, f k ≠ none → k ∈ keys)
    (hcalls : setKeys key calls ⊆ keys) :
    Explains key f calls (hashmapStep.run (some map) calls).1 := by
  induction calls generalizing map f with
  | nil => exact .done f
  | cons call calls ih =>
      have hcount : map.count + 1 < 2 ^ 16 := by
        have hle := count_le hmap hf hkeys
        omega
      cases call with
      | get x =>
          have hstep : hashmapStep (some map) (.get x) = (some (.found (f (key x))), some map) := by
            rw [hashmapStep, hashmapGet_eq hmap hf]
          rw [Machine.run_cons, hstep]
          exact .get x (ih hmap hf hkeys hcalls)
      | set x alloc =>
          obtain ⟨hin, hrest⟩ := Finset.insert_subset_iff.mp hcalls
          obtain ⟨hset, hdrop⟩ := hashmapSet_spec hmap hf hcount x alloc
          by_cases hmem : alloc = true ∨ map.count < map.growat
          · obtain ⟨map', hrun, hmap', hf', hoom⟩ := hset hmem
            have hstep : hashmapStep (some map) (.set x alloc) =
                (some (.replaced (f (key x))), some map') := by
              simp [hashmapStep, hrun, hoom]
            rw [Machine.run_cons, hstep]
            refine .set x alloc (ih hmap' hf' (fun k hk => ?_) hrest)
            by_cases hkx : k = key x
            · exact hkx ▸ hin
            · rw [Function.update_of_ne hkx] at hk
              exact hkeys k hk
          · obtain ⟨halloc, hfull⟩ := not_or.mp hmem
            obtain rfl : alloc = false := by simpa using halloc
            have hstep : hashmapStep (some map) (.set x false) =
                (some .outOfMemory, some { map with oom := true }) := by
              simp [hashmapStep, hdrop rfl (by omega)]
            rw [Machine.run_cons, hstep]
            exact .dropped x (ih (hmap.setOom true) (hf.setOom true) hkeys hrest)

/-- From `hashmap_new` on, a map answers as a finite map does, whatever `malloc` answers later.
With this bound on the capacity neither the number of buckets wraps nor, for items below 2^31
bytes, the size of the array. -/
theorem hashmap_run_explained {cap : ℕ} (hcap : cap ≤ 2 ^ 32) {seed0 seed1 : UInt64}
    {hash : α → UInt64 → UInt64 → UInt64} {compare : α → α → ℤ}
    (hnew : hashmapNew cap seed0 seed1 hash (some compare) true = some map)
    (hcompare : ∀ a b, compare a b = 0 ↔ key a = key b)
    (hhash : ∀ a b, key a = key b → hash a seed0 seed1 = hash b seed0 seed1)
    (calls : List (MapCall α)) (hsmall : (setKeys key calls).card < 65535) :
    Explains key (fun _ => none) calls (hashmapStep.run (some map) calls).1 := by
  have hkeyed : Keyed key map := by
    have hmap := Option.some.inj hnew
    constructor
    · intro a b
      rw [← hmap, Hashmap.sameItem, beq_iff_eq, hcompare]
    · intro a b hab
      rw [← hmap, getHash, getHash]
      exact congrArg clipHash (hhash a b hab)
  obtain ⟨hsound, hrep⟩ := hashmapNew_sound (by omega) hnew hkeyed
  exact hashmapStep_explained hsound hrep (by omega) (fun _ h => absurd rfl h)
    (Finset.Subset.refl _)

theorem hashmap_run_explained_colliding :
    Explains id (fun _ => none) [.set 1 true, .set 18 false, .get 18]
      (hashmapStep.run (hashmapNew 0 0 0 (fun _ _ _ => 0) (some fun a b : ℕ => (a : ℤ) - b) true)
        [.set 1 true, .set 18 false, .get 18]).1 :=
  hashmap_run_explained (by decide) rfl (fun _ _ => by rw [sub_eq_zero, Nat.cast_inj]; rfl)
    (fun _ _ _ => rfl) _ (by decide)

end Map

/-! ### The storage -/

/-- A call of the storage, and what `malloc` answers during it. -/
inductive StorageCall
  | get (key : HashID) (alloc : Bool)
  | put (value : KeyValuePair) (alloc : Bool)

def StorageCall.alloc : StorageCall → Bool
  | .get _ alloc => alloc
  | .put _ alloc => alloc

/-- The state and the answer are `none` from the first call that does not return. -/
def storageMapStep : Machine (Option StorageMap) StorageCall (Option (Option KeyValuePair))
  | none, _ => (none, none)
  | some storage, .get key alloc =>
      match storage.getValue key alloc with
      | none => (none, none)
      | some (found, storage) => (some found, some storage)
  | some storage, .put value alloc =>
      match storage.putValue value alloc with
      | none => (none, none)
      | some storage => (some none, some storage)

/-- The answers of a map from keys to entries, where every call returns, and where a new entry
is dropped only when `malloc` failed. -/
inductive Answers : Storage → List StorageCall → List (Option (Option KeyValuePair)) → Prop
  | done (storage) : Answers storage [] []
  | get {storage calls answers} (key : HashID) (alloc : Bool) (h : Answers storage calls answers) :
      Answers storage (.get key alloc :: calls) (some (storageGetValue storage key) :: answers)
  | put {storage calls answers} (value : KeyValuePair) (alloc : Bool)
      (h : Answers (storagePutValue storage value) calls answers) :
      Answers storage (.put value alloc :: calls) (some none :: answers)
  | dropped {storage calls answers} (value : KeyValuePair)
      (hnew : storageGetValue storage value.key = none) (h : Answers storage calls answers) :
      Answers storage (.put value false :: calls) (some none :: answers)

def putKeys : List StorageCall → Finset HashID
  | [] => ∅
  | .get _ _ :: calls => putKeys calls
  | .put value _ :: calls => insert value.key (putKeys calls)

theorem memcmp_eq_zero_iff {l l' : List UInt8} (hlen : l.length = l'.length) :
    memcmp l l' = 0 ↔ l = l' := by
  induction l generalizing l' with
  | nil =>
      obtain rfl : l' = [] := List.length_eq_zero_iff.mp hlen.symm
      simp [memcmp]
  | cons a l ih =>
      obtain ⟨b, l', rfl⟩ := List.exists_cons_of_length_eq_add_one hlen.symm
      rw [memcmp]
      by_cases hab : a = b
      · rw [if_pos hab, ih (by simpa using hlen), List.cons.injEq]
        simp [hab]
      · rw [if_neg hab]
        have hne : a.toNat ≠ b.toNat := fun h => hab (UInt8.toNat_inj.mp h)
        constructor
        · omega
        · rintro h
          exact absurd (List.cons.inj h).1 hab

theorem storageCompare_eq_zero_iff (a b : KeyValuePair) :
    storageCompare a b = 0 ↔ a.key = b.key := by
  rw [storageCompare, memcmp_eq_zero_iff (by simp)]
  exact Subtype.val_inj

/-- `storage` is what the map represents that the next call works on. -/
def Backs (s : StorageMap) (storage : Storage) : Prop :=
  ∃ map, (s.prepare true).map = some map ∧ Sound KeyValuePair.key map ∧
    Represents KeyValuePair.key map storage

/-- Memory is asked for at the first call only. -/
theorem prepare_eq {s : StorageMap} {alloc : Bool} (h : s.ready = true ∨ alloc = true) :
    s.prepare alloc = s.prepare true := by
  rcases h with hready | rfl
  · simp [StorageMap.prepare, hready]
  · rfl

theorem prepare_ready (s : StorageMap) : (s.prepare true).ready = true := by
  rw [StorageMap.prepare]
  split
  · assumption
  · rfl

theorem Backs.of_ready {s : StorageMap} (hready : s.ready = true) {storage : Storage}
    {map : Hashmap KeyValuePair} (hmap : s.map = some map) (hsound : Sound KeyValuePair.key map)
    (hrep : Represents KeyValuePair.key map storage) : Backs s storage :=
  ⟨map, by rw [StorageMap.prepare, if_pos hready, hmap], hsound, hrep⟩

theorem backs_initial : Backs StorageMap.initial Storage.empty := by
  have hkeyed : ∀ map, (storageInit true).map = some map → Keyed KeyValuePair.key map := by
    intro map hmap
    have hmap := Option.some.inj hmap
    constructor
    · intro a b
      rw [← hmap, Hashmap.sameItem, beq_iff_eq, storageCompare_eq_zero_iff]
    · intro a b hab
      have hhash : storageHash a 0 0 = storageHash b 0 0 := by rw [storageHash, storageHash, hab]
      rw [← hmap]
      exact congrArg clipHash hhash
  exact ⟨_, rfl, hashmapNew_sound (by decide) rfl (hkeyed _ rfl)⟩

section Run

variable {s : StorageMap} {storage : Storage} {keys : Finset HashID} {alloc : Bool}

theorem getValue_eq (hs : Backs s storage) (halloc : s.ready = true ∨ alloc = true)
    (key : HashID) : ∃ s', s.getValue key alloc = some (storageGetValue storage key, s') ∧
      s'.ready = true ∧ Backs s' storage := by
  obtain ⟨map, hmap, hsound, hrep⟩ := hs
  refine ⟨s.prepare true, ?_, prepare_ready s, .of_ready (prepare_ready s) hmap hsound hrep⟩
  simp only [StorageMap.getValue, prepare_eq halloc, hmap, Option.bind_eq_bind, Option.bind_some,
    hashmapGet_eq hsound hrep]
  rfl

/-- A put stores the entry of a new key, or drops it for want of memory. -/
theorem putValue_eq (hs : Backs s storage) (halloc : s.ready = true ∨ alloc = true)
    (hsmall : keys.card + 1 < 2 ^ 16) (hkeys : ∀ k, storage k ≠ none → k ∈ keys)
    (value : KeyValuePair) :
    ∃ s', s.putValue value alloc = some s' ∧ s'.ready = true ∧
      (Backs s' (storagePutValue storage value) ∨
        alloc = false ∧ storageGetValue storage value.key = none ∧ Backs s' storage) := by
  obtain ⟨map, hmap, hsound, hrep⟩ := hs
  have hcount : map.count + 1 < 2 ^ 16 := by
    have hle := count_le hsound hrep hkeys
    omega
  have hready := prepare_ready s
  simp only [StorageMap.putValue, prepare_eq halloc, hmap, Option.bind_eq_bind, Option.bind_some,
    hashmapGet_eq hsound hrep]
  cases hold : storage value.key with
  | some old =>
      refine ⟨s.prepare true, rfl, hready, Or.inl ?_⟩
      rw [storagePutValue_of_some hold]
      exact .of_ready hready hmap hsound hrep
  | none =>
      obtain ⟨hset, hdrop⟩ := hashmapSet_spec hsound hrep hcount value alloc
      by_cases hmem : alloc = true ∨ map.count < map.growat
      · obtain ⟨map', hrun, hsound', hrep', -⟩ := hset hmem
        refine ⟨{ s.prepare true with map := some map' }, by rw [hrun]; rfl, hready, Or.inl ?_⟩
        rw [storagePutValue_of_none hold]
        refine .of_ready ?_ rfl hsound' hrep'
        exact hready
      · obtain ⟨hnot, hfull⟩ := not_or.mp hmem
        have hfailed : alloc = false := by simpa using hnot
        refine ⟨{ s.prepare true with map := some { map with oom := true } },
          by rw [hdrop hfailed (by omega)]; rfl, hready, Or.inr ⟨hfailed, hold, ?_⟩⟩
        refine .of_ready ?_ rfl (hsound.setOom true) (hrep.setOom true)
        exact hready

theorem storageMapStep_answers {calls : List StorageCall} (hs : Backs s storage)
    (halloc : s.ready = true ∨ ∀ call ∈ calls.head?, call.alloc = true)
    (hsmall : keys.card + 1 < 2 ^ 16) (hkeys : ∀ k, storage k ≠ none → k ∈ keys)
    (hcalls : putKeys calls ⊆ keys) :
    Answers storage calls (storageMapStep.run (some s) calls).1 := by
  induction calls generalizing s storage with
  | nil => exact .done storage
  | cons call calls ih =>
      cases call with
      | get key alloc =>
          have hmem : s.ready = true ∨ alloc = true := halloc.imp_right fun hfirst => hfirst _ rfl
          obtain ⟨s', hrun, hready, hs'⟩ := getValue_eq hs hmem key
          have hstep : storageMapStep (some s) (.get key alloc) =
              (some (storageGetValue storage key), some s') := by rw [storageMapStep, hrun]
          rw [Machine.run_cons, hstep]
          exact .get key alloc (ih hs' (Or.inl hready) hkeys hcalls)
      | put value alloc =>
          obtain ⟨hin, hrest⟩ := Finset.insert_subset_iff.mp hcalls
          have hmem : s.ready = true ∨ alloc = true := halloc.imp_right fun hfirst => hfirst _ rfl
          obtain ⟨s', hrun, hready, hs'⟩ := putValue_eq hs hmem hsmall hkeys value
          have hstep : storageMapStep (some s) (.put value alloc) = (some none, some s') := by
            rw [storageMapStep, hrun]
          rw [Machine.run_cons, hstep]
          rcases hs' with hput | ⟨rfl, hnew, hsame⟩
          · refine .put value alloc (ih hput (Or.inl hready) (fun k hk => ?_) hrest)
            cases hk' : storagePutValue storage value k with
            | none => exact absurd hk' hk
            | some kvp =>
                rw [storagePutValue_apply] at hk'
                by_cases hkey : value.key = k
                · exact hkey ▸ hin
                · rw [if_neg hkey, Option.or_none] at hk'
                  exact hkeys k (by rw [hk']; exact Option.some_ne_none _)
          · exact .dropped value hnew (ih hsame (Or.inl hready) hkeys hrest)

end Run

/-- Over a run, whatever `malloc` answers after the first call, `storage.c` on the hash map is a
map in which the first entry of a key stays, as long as fewer than 65535 keys are put. -/
theorem storage_run_answers (calls : List StorageCall)
    (hfirst : ∀ call ∈ calls.head?, call.alloc = true) (hsmall : (putKeys calls).card < 65535) :
    Answers Storage.empty calls (storageMapStep.run (some StorageMap.initial) calls).1 :=
  storageMapStep_answers backs_initial (Or.inr hfirst) (by omega) (fun _ hk => absurd rfl hk)
    (Finset.Subset.refl _)

def keyNumber (i : ℕ) : HashID := (zeroBytes 31).snoc (UInt8.ofNat i)

/-- Ten puts; there is no memory for the tenth. -/
def fillingCalls : List StorageCall :=
  (List.range 10).map (fun i =>
    .put { (default : KeyValuePair) with key := keyNumber i } (i < 9)) ++
    [.get (keyNumber 9) true]

theorem storage_run_answers_filling :
    Answers Storage.empty fillingCalls
      (storageMapStep.run (some StorageMap.initial) fillingCalls).1 :=
  storage_run_answers fillingCalls (by decide) (by decide +kernel)

example : ((storageMapStep.run (some StorageMap.initial) fillingCalls).1.map
    (Option.map Option.isSome)).getLast? = some (some false) := by decide +kernel

end Kademlia.Storage
