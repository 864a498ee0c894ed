import Kademlia.Model.Wire

/-!
`storage.c`: the key-value storage of a node and the conversion of its
entries from and to the wire.

The vendored hash map is taken to be a map from keys to entries. Both
conversions run `i` from 0 below `num_values`, a `size_t` that nothing bounds,
and use `values[i]` of two arrays of `K_VALUE` slots.
-/

namespace Kademlia.Model

open Foundations Traced

structure KeyValuePair where
  key : HashID
  numValues : ℕ
  values : Fin kValue → Peer

abbrev Storage := HashID → Option KeyValuePair

def Storage.empty : Storage := fun _ => none

def storageGetValue (storage : Storage) (key : HashID) : Option KeyValuePair := storage key

def storagePutValue (storage : Storage) (value : KeyValuePair) : Storage :=
  match storageGetValue storage value.key with
  -- "Got store on existing key-value pair"
  | some _ => storage
  | none => Function.update storage value.key (some value)

def serializeRpcValue (value : KeyValuePair) (serialized : RPCKeyValue) :
    Traced Field RPCKeyValue :=
  (List.range value.numValues).foldlM (fun serialized (i : ℕ) => do
      touch .values i
      pure { serialized with
        values := writeSlot serialized.values i
          (serializeRpcPeer (readSlot value.values zeroPeer i)) })
    { serialized with key := value.key, numValues := value.numValues }

/-- `deserialized` is the caller's record; slots the loop does not reach keep
what is in them. -/
def deserializeRpcValue (value : RPCKeyValue) (deserialized : KeyValuePair) :
    Traced Field KeyValuePair := do
  touch .key 0
  touch .numValues 0
  (List.range value.numValues).foldlM (fun deserialized (i : ℕ) => do
      touch .values i
      pure { deserialized with
        values := writeSlot deserialized.values i
          (deserializeRpcPeer (readSlot value.values zeroRPCPeer i)) })
    { deserialized with key := value.key, numValues := value.numValues }

/-! ### Storing -/

theorem storagePutValue_of_some {storage : Storage} {value kvp : KeyValuePair}
    (h : storage value.key = some kvp) : storagePutValue storage value = storage := by
  simp [storagePutValue, storageGetValue, h]

theorem storagePutValue_of_none {storage : Storage} {value : KeyValuePair}
    (h : storage value.key = none) :
    storagePutValue storage value = Function.update storage value.key (some value) := by
  simp [storagePutValue, storageGetValue, h]

theorem storagePutValue_apply (storage : Storage) (value : KeyValuePair) (key : HashID) :
    storagePutValue storage value key =
      (storage key).or (if value.key = key then some value else none) := by
  cases hold : storage value.key with
  | some old =>
      rw [storagePutValue_of_some hold]
      by_cases hkey : value.key = key
      · rw [← hkey, hold, Option.some_or]
      · rw [if_neg hkey, Option.or_none]
  | none =>
      rw [storagePutValue_of_none hold]
      by_cases hkey : value.key = key
      · rw [← hkey, Function.update_self, hold, Option.none_or, if_pos rfl]
      · rw [Function.update_of_ne (Ne.symm hkey), if_neg hkey, Option.or_none]

/-- What a put leaves in the storage was there before, or is the new entry. -/
theorem storagePutValue_eq_some {storage : Storage} {value kvp : KeyValuePair} {key : HashID}
    (h : storagePutValue storage value key = some kvp) :
    storage key = some kvp ∨ kvp = value := by
  cases hold : storage value.key with
  | some old => exact Or.inl (by rwa [storagePutValue_of_some hold] at h)
  | none =>
      rw [storagePutValue_of_none hold] at h
      by_cases hkey : key = value.key
      · subst hkey
        rw [Function.update_self] at h
        exact Or.inr (Option.some.inj h).symm
      · rw [Function.update_of_ne hkey] at h
        exact Or.inl h

/-! ### Converting -/

/-- The array after a loop that fills its slots from 0 below `n`. -/
def fillSlots {α : Type} (a : Fin kValue → α) (n : ℕ) (f : ℕ → α) : Fin kValue → α :=
  (List.range n).foldl (fun a i => writeSlot a i (f i)) a

theorem readSlot_fillSlots {α : Type} (a : Fin kValue → α) (default : α) (f : ℕ → α) {i n : ℕ}
    (hi : i < n) (hslot : i < kValue) : readSlot (fillSlots a n f) default i = f i := by
  induction n with
  | zero => omega
  | succ n ih =>
      rw [fillSlots, List.range_succ, List.foldl_append, List.foldl_cons, List.foldl_nil,
        readSlot_writeSlot]
      rcases Nat.lt_or_eq_of_le (Nat.lt_succ_iff.mp hi) with hlt | rfl
      · rw [if_neg (by omega)]
        exact ih hlt
      · rw [if_pos ⟨rfl, hslot⟩]

theorem deserializeRpcValue_val (value : RPCKeyValue) (kvp : KeyValuePair) :
    (deserializeRpcValue value kvp).val =
      { key := value.key
        numValues := value.numValues
        values := fillSlots kvp.values value.numValues fun i =>
          deserializeRpcPeer (readSlot value.values zeroRPCPeer i) } := by
  have hfold : ∀ (is : List ℕ) (kvp : KeyValuePair) (f : ℕ → Peer),
      is.foldl (fun kvp i => { kvp with values := writeSlot kvp.values i (f i) }) kvp =
        { kvp with values := is.foldl (fun a i => writeSlot a i (f i)) kvp.values } := by
    intro is kvp f
    induction is generalizing kvp with
    | nil => rfl
    | cons i is ih => rw [List.foldl_cons, List.foldl_cons, ih]
  simp [deserializeRpcValue, hfold, fillSlots]

theorem serializeRpcValue_val (value : KeyValuePair) (serialized : RPCKeyValue) :
    (serializeRpcValue value serialized).val =
      { key := value.key
        numValues := value.numValues
        values := fillSlots serialized.values value.numValues fun i =>
          serializeRpcPeer (readSlot value.values zeroPeer i) } := by
  have hfold : ∀ (is : List ℕ) (kv : RPCKeyValue) (f : ℕ → RPCPeer),
      is.foldl (fun kv i => { kv with values := writeSlot kv.values i (f i) }) kv =
        { kv with values := is.foldl (fun a i => writeSlot a i (f i)) kv.values } := by
    intro is kv f
    induction is generalizing kv with
    | nil => rfl
    | cons i is ih => rw [List.foldl_cons, List.foldl_cons, ih]
  simp [serializeRpcValue, hfold, fillSlots]

@[simp] theorem deserializeRpcValue_numValues (value : RPCKeyValue) (kvp : KeyValuePair) :
    (deserializeRpcValue value kvp).val.numValues = value.numValues := by
  rw [deserializeRpcValue_val]

@[simp] theorem deserializeRpcValue_key (value : RPCKeyValue) (kvp : KeyValuePair) :
    (deserializeRpcValue value kvp).val.key = value.key := by
  rw [deserializeRpcValue_val]

@[simp] theorem serializeRpcValue_numValues (value : KeyValuePair) (serialized : RPCKeyValue) :
    (serializeRpcValue value serialized).val.numValues = value.numValues := by
  rw [serializeRpcValue_val]

@[simp] theorem serializeRpcValue_key (value : KeyValuePair) (serialized : RPCKeyValue) :
    (serializeRpcValue value serialized).val.key = value.key := by
  rw [serializeRpcValue_val]

/-- The slots that the count covers hold the owners that were sent. -/
theorem readSlot_deserializeRpcValue (value : RPCKeyValue) (kvp : KeyValuePair) {i : ℕ}
    (hi : i < value.numValues) :
    readSlot (deserializeRpcValue value kvp).val.values zeroPeer i =
      deserializeRpcPeer (readSlot value.values zeroRPCPeer i) := by
  by_cases hslot : i < kValue
  · rw [deserializeRpcValue_val]
    exact readSlot_fillSlots _ _ _ hi hslot
  · simp only [readSlot, hslot, dite_false]
    rfl

theorem readSlot_serializeRpcValue (value : KeyValuePair) (serialized : RPCKeyValue) {i : ℕ}
    (hi : i < value.numValues) :
    readSlot (serializeRpcValue value serialized).val.values zeroRPCPeer i =
      serializeRpcPeer (readSlot value.values zeroPeer i) := by
  by_cases hslot : i < kValue
  · rw [serializeRpcValue_val]
    exact readSlot_fillSlots _ _ _ hi hslot
  · simp only [readSlot, hslot, dite_false]
    rfl

/-- Storing a received entry stays within `values[]` exactly when its count
does. -/
theorem deserializeRpcValue_stays {value : RPCKeyValue} {kvp : KeyValuePair} :
    (deserializeRpcValue value kvp).Stays .values kValue ↔ value.numValues ≤ kValue := by
  simp only [deserializeRpcValue, stays_bind, stays_touch, stays_foldlM_touch]
  simp

theorem serializeRpcValue_stays {value : KeyValuePair} {serialized : RPCKeyValue} :
    (serializeRpcValue value serialized).Stays .values kValue ↔ value.numValues ≤ kValue :=
  stays_foldlM_touch

end Kademlia.Model
