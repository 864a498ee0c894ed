import Kademlia.Model.Storage
import Kademlia.Model.Lookup

/-!
`lib/hash/hashmap.c`, and the map that `storage.c` keeps its entries in.

The buckets of a map are a function of the slot, read below `nbuckets` only.
The probe loops of the source have no bound; here they have as much fuel as
the map has buckets, and `none` says that the loop was not over by then. What
`malloc` answers is a parameter of the operations that allocate, and the default
of the items stands for zeroed memory.
-/

namespace Kademlia.Model

/-- `struct bucket` and the item behind it; `dib` is 16 bits wide, and 0 in an empty bucket. -/
structure Bucket (α : Type) where
  hash : UInt64
  dib : ℕ
  item : α

structure Hashmap (α : Type) where
  seed0 : UInt64
  seed1 : UInt64
  hash : α → UInt64 → UInt64 → UInt64
  compare : Option (α → α → ℤ)
  nbuckets : ℕ
  count : ℕ
  mask : ℕ
  growat : ℕ
  oom : Bool
  buckets : ℕ → Bucket α

variable {α : Type}

def clipHash (hash : UInt64) : UInt64 := hash &&& 0xFFFFFFFFFFFF

def getHash (map : Hashmap α) (key : α) : UInt64 :=
  clipHash (map.hash key map.seed0 map.seed1)

/-- `loadfactor`, from `HASHMAP_LOAD_FACTOR` in percent -/
def loadFactor : ℕ := 60

def growPower : ℕ := 1

/-- `while (ncap < cap) ncap *= 2`, which does not end for a `cap` above 2^63. -/
def doubleTo (cap : ℕ) : ℕ → ℕ → ℕ
  | 0, ncap => ncap
  | fuel + 1, ncap => if ncap < cap then doubleTo cap fuel (ncap * 2 % 2 ^ 64) else ncap

/-- The number of buckets for a capacity of at least `cap`. -/
def roundCap (cap : ℕ) : ℕ := if cap < 16 then 16 else doubleTo cap cap 16

/-- `alloc` is whether both calls of `malloc` succeed. The map has all the buckets it counts, so
the product of `bucketsz` and `nbuckets` is one that does not wrap. -/
def hashmapNew [Inhabited α] (cap : ℕ) (seed0 seed1 : UInt64)
    (hash : α → UInt64 → UInt64 → UInt64) (compare : Option (α → α → ℤ)) (alloc : Bool) :
    Option (Hashmap α) :=
  if alloc then
    some {
      seed0, seed1, hash, compare
      nbuckets := roundCap cap
      count := 0
      mask := roundCap cap - 1
      growat := roundCap cap * loadFactor / 100
      oom := false
      buckets := fun _ => ⟨0, 0, default⟩ }
  else none

/-- `entry->dib += 1` -/
def Bucket.bump (entry : Bucket α) : Bucket α := { entry with dib := (entry.dib + 1) % 2 ^ 16 }

/-- The probe loop of `resize0` and `hashmap_set_with_hash`, which stops at a bucket that `same`
finds equal: the buckets after it, and the item it replaced. -/
def insertLoop (same : Bucket α → Bucket α → Bool) (mask : ℕ) :
    ℕ → (ℕ → Bucket α) → Bucket α → ℕ → Option ((ℕ → Bucket α) × Option α)
  | 0, _, _, _ => none
  | fuel + 1, buckets, entry, i =>
      let bucket := buckets i
      if bucket.dib = 0 then some (Function.update buckets i entry, none)
      else if same entry bucket then
        some (Function.update buckets i { bucket with item := entry.item }, some bucket.item)
      else if bucket.dib < entry.dib then
        insertLoop same mask fuel (Function.update buckets i entry) bucket.bump ((i + 1) &&& mask)
      else insertLoop same mask fuel buckets entry.bump ((i + 1) &&& mask)

/-- The loop of `resize0` over the old buckets: every bucket in use goes into the new ones. -/
def reinsert (mask nbuckets : ℕ) (old new : ℕ → Bucket α) (is : List ℕ) :
    Option (ℕ → Bucket α) :=
  is.foldlM (fun new i =>
    if (old i).dib = 0 then some new
    else
      (insertLoop (fun _ _ => false) mask nbuckets new { old i with dib := 1 }
        ((old i).hash.toNat &&& mask)).map Prod.fst) new

/-- `resize0`: whether it succeeded, and the map after it. -/
def resize0 [Inhabited α] (map : Hashmap α) (newCap : ℕ) (alloc : Bool) :
    Option (Bool × Hashmap α) :=
  match hashmapNew newCap map.seed0 map.seed1 map.hash map.compare alloc with
  | none => some (false, map)
  | some map2 => do
      let buckets ← reinsert map2.mask map2.nbuckets map.buckets map2.buckets
        (List.range map.nbuckets)
      pure (true, { map with
        buckets, nbuckets := map2.nbuckets, mask := map2.mask, growat := map2.growat })

/-- `!map->compare || map->compare(a, b, map->udata) == 0` -/
def Hashmap.sameItem (map : Hashmap α) (a b : α) : Bool :=
  match map.compare with
  | none => true
  | some compare => compare a b == 0

/-- The condition under which `hashmap_set_with_hash` replaces an item. -/
def Hashmap.sameEntry (map : Hashmap α) (entry bucket : Bucket α) : Bool :=
  entry.hash == bucket.hash && map.sameItem entry.item bucket.item

/-- What `hashmap_set_with_hash` does once there is room. -/
def storeItem (map : Hashmap α) (item : α) (hash : UInt64) : Option (Option α × Hashmap α) :=
  match insertLoop map.sameEntry map.mask map.nbuckets map.buckets ⟨hash, 1, item⟩
      (hash.toNat &&& map.mask) with
  | none => none
  | some (buckets, none) => some (none, { map with buckets, count := map.count + 1 })
  | some (buckets, some old) => some (some old, { map with buckets })

/-- The item that was replaced, and the map after the call. -/
def hashmapSetWithHash [Inhabited α] (map : Hashmap α) (item : α) (hash : UInt64)
    (alloc : Bool) : Option (Option α × Hashmap α) :=
  let hash := clipHash hash
  let map := { map with oom := false }
  if map.growat ≤ map.count then
    match resize0 map (map.nbuckets * 2 ^ growPower % 2 ^ 64) alloc with
    | none => none
    | some (false, map) => some (none, { map with oom := true })
    | some (true, map) => storeItem map item hash
  else storeItem map item hash

def hashmapSet [Inhabited α] (map : Hashmap α) (item : α) (alloc : Bool) :
    Option (Option α × Hashmap α) :=
  hashmapSetWithHash map item (getHash map item) alloc

/-- The loop of `hashmap_get_with_hash`; the inner `none` is its `NULL`. -/
def getLoop (map : Hashmap α) (key : α) (hash : UInt64) : ℕ → ℕ → Option (Option α)
  | 0, _ => none
  | fuel + 1, i =>
      let bucket := map.buckets i
      if bucket.dib = 0 then some none
      else if bucket.hash == hash && map.sameItem key bucket.item then some (some bucket.item)
      else getLoop map key hash fuel ((i + 1) &&& map.mask)

def hashmapGetWithHash (map : Hashmap α) (key : α) (hash : UInt64) : Option (Option α) :=
  let hash := clipHash hash
  getLoop map key hash map.nbuckets (hash.toNat &&& map.mask)

def hashmapGet (map : Hashmap α) (key : α) : Option (Option α) :=
  hashmapGetWithHash map key (getHash map key)

/-! ### SipHash -/

def rotl (x b : UInt64) : UInt64 := (x <<< b) ||| (x >>> (64 - b))

structure SipState where
  v0 : UInt64
  v1 : UInt64
  v2 : UInt64
  v3 : UInt64

def sipRound (s : SipState) : SipState :=
  let v0 := s.v0 + s.v1
  let v1 := rotl s.v1 13 ^^^ v0
  let v0 := rotl v0 32
  let v2 := s.v2 + s.v3
  let v3 := rotl s.v3 16 ^^^ v2
  let v0 := v0 + v3
  let v3 := rotl v3 21 ^^^ v0
  let v2 := v2 + v1
  let v1 := rotl v1 17 ^^^ v2
  ⟨v0, v1, rotl v2 32, v3⟩

/-- `U8TO64_LE`, and the bytes behind the last word in the same order. -/
def u8to64Le (bytes : List UInt8) : UInt64 :=
  bytes.foldr (fun byte rest => (rest <<< 8) ||| byte.toUInt64) 0

def sipWord (s : SipState) (m : UInt64) : SipState :=
  let s := sipRound (sipRound { s with v3 := s.v3 ^^^ m })
  { s with v0 := s.v0 ^^^ m }

def sip64 (data : List UInt8) (seed0 seed1 : UInt64) : UInt64 :=
  let start : SipState :=
    { v3 := 0x7465646279746573 ^^^ seed1
      v2 := 0x6c7967656e657261 ^^^ seed0
      v1 := 0x646f72616e646f6d ^^^ seed1
      v0 := 0x736f6d6570736575 ^^^ seed0 }
  let words := data.length / 8
  let s := (List.range words).foldl
    (fun s i => sipWord s (u8to64Le ((data.drop (8 * i)).take 8))) start
  let b := (UInt64.ofNat data.length <<< 56) ||| u8to64Le (data.drop (8 * words))
  let s := sipWord s b
  let s := sipRound (sipRound (sipRound (sipRound { s with v2 := s.v2 ^^^ 0xff })))
  s.v0 ^^^ s.v1 ^^^ s.v2 ^^^ s.v3

def hashmapSip (data : List UInt8) (seed0 seed1 : UInt64) : UInt64 := sip64 data seed0 seed1

/-! ### The map of the storage -/

instance : Inhabited KeyValuePair := ⟨⟨zeroBytes 32, 0, fun _ => zeroPeer⟩⟩

/-- `storage_ready` and `storage_map` -/
structure StorageMap where
  ready : Bool
  map : Option (Hashmap KeyValuePair)

def StorageMap.initial : StorageMap := ⟨false, none⟩

def storageCompare (a b : KeyValuePair) : ℤ := memcmp a.key.toList b.key.toList

def storageHash (item : KeyValuePair) (seed0 seed1 : UInt64) : UInt64 :=
  hashmapSip item.key.toList seed0 seed1

def storageInit (alloc : Bool) : StorageMap :=
  ⟨true, hashmapNew 0 0 0 storageHash (some storageCompare) alloc⟩

/-- `if (!storage_ready) storage_init();` -/
def StorageMap.prepare (storage : StorageMap) (alloc : Bool) : StorageMap :=
  if storage.ready then storage else storageInit alloc

/-- `storage_get_value`; the outer `none` is a map that is `NULL` or a loop that is not over. -/
def StorageMap.getValue (storage : StorageMap) (key : HashID) (alloc : Bool) :
    Option (Option KeyValuePair × StorageMap) := do
  let storage := storage.prepare alloc
  let map ← storage.map
  let found ← hashmapGet map { (default : KeyValuePair) with key := key }
  pure (found, storage)

def StorageMap.putValue (storage : StorageMap) (value : KeyValuePair) (alloc : Bool) :
    Option StorageMap := do
  let storage := storage.prepare alloc
  let map ← storage.map
  match ← hashmapGet map value with
  -- "Got store on existing key-value pair"
  | some _ => pure storage
  | none => do
      let (_, map) ← hashmapSet map value alloc
      pure { storage with map := some map }

end Kademlia.Model
