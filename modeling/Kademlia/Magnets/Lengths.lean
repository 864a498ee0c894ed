import Kademlia.Magnets.Parsing
import Kademlia.Model.Digest

/-!
The length of a magnet.

It passes through an `int` in both directions: `atoi` returns one, and so does
`sha256_file`. What does not fit is cut down to its low bits and then extended
with its sign, and one of these values stands for an error.
-/

namespace Kademlia.Magnets

open Foundations CString Model

/-! ### Lengths that are read -/

/-- Each local array that `parse_magnet_from_uri` copies a part of the URI to, by its size and
the number of the bytes that are copied. -/
def localCopies (contents : List UInt8) (len : ℕ) : List (ℕ × ℕ) :=
  if len < 1 then []
  else
    match matchHash contents with
    | none => []
    | some hash =>
        (65, hash.length) ::
          ((matchParameter (ascii "&xl=") contents).map fun fileSize => (32, fileSize.length)).toList

/-- The parser has no result exactly where a copy does not leave room for a NUL. -/
theorem parseMagnetFromUri_eq_none_iff (memory : ℕ) (contents : List UInt8) (len : ℕ) :
    parseMagnetFromUri memory contents len = none ↔
      ∃ copy ∈ localCopies contents len, copy.1 ≤ copy.2 := by
  rw [localCopies]
  split
  · next hlen => simp [parseMagnetFromUri, hlen]
  · next hlen =>
      cases hhash : matchHash contents with
      | none => simp [parseMagnetFromUri, hlen, hhash]
      | some hash =>
          rw [parseMagnetFromUri_of_hash (not_lt.mp hlen) hhash]
          obtain ⟨-, -, hfull, -⟩ := matchHash_eq_some.mp hhash
          cases hsize : matchParameter (ascii "&xl=") contents with
          | none => simp [hfull]
          | some fileSize => simp [hfull]

/-- The copies fit, and a length with a value that fits into `size_t` is stored. -/
structure LengthKept (contents : List UInt8) (len : ℕ) : Prop where
  fits : ∀ copy ∈ localCopies contents len, copy.2 < copy.1
  value : ∀ memory magnet fileSize negative digits rest,
    parseMagnetFromUri memory contents len = some (some magnet) →
    matchParameter (ascii "&xl=") contents = some fileSize →
    scanDigits fileSize = some (negative, digits, rest) → decimalValue digits < 2 ^ 64 →
    magnet.exactLength = decimalValue digits

/-- A number that comes out of `atoi` as it is, or does not have to. -/
def NumberFits (negative : Bool) (value : ℕ) : Prop :=
  if negative then value = 0 ∨ 2 ^ 64 ≤ value else value < 2 ^ 31 ∨ 2 ^ 64 - 1 ≤ value

/-- A length of less than 32 bytes, the number in which fits. -/
def LengthFits (fileSize : List UInt8) : Prop :=
  fileSize.length < 32 ∧ ∀ negative digits rest,
    scanDigits fileSize = some (negative, digits, rest) → NumberFits negative (decimalValue digits)

theorem toSizeT_longToInt_neg {n : ℕ} (hn : n < 2 ^ 64) :
    toSizeT (longToInt (-(min n (2 ^ 63) : ℕ))) = n ↔ n = 0 := by
  rw [longToInt, int32, toSizeT]
  split_ifs
  · omega
  · omega

/-- The number at the start of a length comes out of `atoi` if it fits. -/
theorem toSizeT_atoi {fileSize digits rest : List UInt8} {negative : Bool}
    (h : scanDigits fileSize = some (negative, digits, rest)) :
    (decimalValue digits < 2 ^ 64 → toSizeT (atoi fileSize) = decimalValue digits) ↔
      NumberFits negative (decimalValue digits) := by
  have hread : atoi fileSize =
      longToInt (if negative then -(min (decimalValue digits) (2 ^ 63) : ℕ)
        else (min (decimalValue digits) (2 ^ 63 - 1) : ℕ)) := by
    rw [atoi, scanSigned, h]
    cases negative with
    | true => rfl
    | false => rfl
  rw [hread, NumberFits]
  rcases Nat.lt_or_ge (decimalValue digits) (2 ^ 64) with hlt | hge
  · rw [forall_prop_of_true hlt]
    cases negative with
    | true =>
        rw [if_pos rfl, if_pos rfl, toSizeT_longToInt_neg hlt]
        omega
    | false =>
        rw [if_neg Bool.false_ne_true, if_neg Bool.false_ne_true, toSizeT_longToInt_natCast hlt]
        omega
  · refine iff_of_true (fun hlt => absurd hlt (not_lt.mpr hge)) ?_
    split
    · exact Or.inr hge
    · omega

theorem exists_magnet_of_length {contents hash fileSize : List UInt8} {len : ℕ} (hlen : 1 ≤ len)
    (hhash : matchHash contents = some hash)
    (hsize : matchParameter (ascii "&xl=") contents = some fileSize)
    (hshort : fileSize.length < 32) (memory : ℕ) :
    ∃ magnet, parseMagnetFromUri memory contents len = some (some magnet) ∧
      magnet.exactLength = toSizeT (atoi fileSize) := by
  rw [parseMagnetFromUri_of_hash hlen hhash, hsize, Option.elim_some, if_neg (not_le.mpr hshort)]
  exact ⟨_, rfl, rfl⟩

/-- The copies and the value are right exactly for the lengths that fit. -/
theorem lengthKept_iff (contents : List UInt8) (len : ℕ) :
    LengthKept contents len ↔
      (1 ≤ len → matchHash contents ≠ none →
        ∀ fileSize, matchParameter (ascii "&xl=") contents = some fileSize →
          LengthFits fileSize) := by
  constructor
  · intro h hlen hne fileSize hsize
    obtain ⟨hash, hhash⟩ := Option.ne_none_iff_exists'.mp hne
    have hshort : fileSize.length < 32 := by
      apply h.fits (32, fileSize.length)
      rw [localCopies, if_neg (not_lt.mpr hlen), hhash]
      simp [hsize]
    refine ⟨hshort, fun negative digits rest hdigits => ?_⟩
    obtain ⟨magnet, hmagnet, hlength⟩ := exists_magnet_of_length hlen hhash hsize hshort 0
    rw [← toSizeT_atoi hdigits, ← hlength]
    exact h.value 0 magnet fileSize negative digits rest hmagnet hsize hdigits
  · intro h
    refine ⟨fun copy hcopy => ?_, ?_⟩
    · rw [localCopies] at hcopy
      split at hcopy
      · cases hcopy
      · next hlen =>
          cases hhash : matchHash contents with
          | none =>
              rw [hhash] at hcopy
              cases hcopy
          | some hash =>
              obtain ⟨-, -, hfull, -⟩ := matchHash_eq_some.mp hhash
              rw [hhash, List.mem_cons, Option.mem_toList, Option.map_eq_some_iff] at hcopy
              rcases hcopy with rfl | ⟨fileSize, hsize, rfl⟩
              · exact hfull ▸ Nat.lt_succ_self 64
              · exact (h (not_lt.mp hlen) (hhash ▸ Option.some_ne_none hash) fileSize hsize).1
    · intro memory magnet fileSize negative digits rest hparse hsize hdigits
      have hlen : 1 ≤ len := by
        by_contra hzero
        rw [parseMagnetFromUri, if_pos (not_le.mp hzero)] at hparse
        cases hparse
      cases hhash : matchHash contents with
      | none =>
          rw [parseMagnetFromUri_of_no_hash hlen hhash] at hparse
          cases hparse
      | some hash =>
          obtain ⟨hshort, hfits⟩ := h hlen (hhash ▸ Option.some_ne_none hash) fileSize hsize
          obtain ⟨magnet', hmagnet, hlength⟩ :=
            exists_magnet_of_length hlen hhash hsize hshort memory
          rw [hparse] at hmagnet
          cases hmagnet
          rw [hlength, toSizeT_atoi hdigits]
          exact hfits negative digits rest hdigits

def longLengthUri : List UInt8 :=
  magnetBase ++ List.replicate 64 48 ++ ascii "&xl=" ++ List.replicate 40 49

/-- More is copied than the array has room for. -/
theorem not_lengthKept_longLengthUri : ¬ LengthKept longLengthUri longLengthUri.length := by
  intro h
  have hcopy : (32, 40) ∈ localCopies longLengthUri longLengthUri.length := by decide +kernel
  exact absurd (h.fits _ hcopy) (by decide)

/-! ### Lengths that are counted -/

section Digest

variable {ctx : Type} {evp : Evp ctx} {sha256 : List UInt8 → HashID} {filename : List UInt8}

/-- No call fails, and the digest is that of the blocks one behind the other. -/
def Computes (evp : Evp ctx) (sha256 : List UInt8 → HashID) : Prop :=
  ∃ state, evp.digestInit = some state ∧ ∀ blocks : List (List UInt8),
    (blocks.foldlM evp.digestUpdate state).bind evp.digestFinal = some (sha256 blocks.flatten)

/-- The loop takes the file block by block and adds up their sizes. -/
theorem exists_blocks (evp : Evp ctx) {fuel : ℕ} (state : ctx) (fileSize : ℕ)
    (contents : List UInt8) (hfuel : contents.length < fuel) (hsize : fileSize < 2 ^ 64) :
    ∃ blocks : List (List UInt8), blocks.flatten = contents ∧
      sha256Loop evp fuel state fileSize contents =
        (blocks.foldlM evp.digestUpdate state).map fun last =>
          (last, (fileSize + contents.length) % 2 ^ 64) := by
  induction fuel generalizing state fileSize contents with
  | zero => exact absurd hfuel (Nat.not_lt_zero _)
  | succ fuel ih =>
      rw [sha256Loop]
      by_cases hblock : contents.take sha256BlockSize = []
      · have hnil : contents = [] :=
          (List.take_eq_nil_iff.mp hblock).resolve_left (by decide)
        subst hnil
        refine ⟨[], rfl, ?_⟩
        rw [if_pos hblock, List.length_nil, Nat.add_zero, Nat.mod_eq_of_lt hsize]
        rfl
      · have hpos : 0 < (contents.take sha256BlockSize).length := List.length_pos_of_ne_nil hblock
        have hsplit := List.take_append_drop sha256BlockSize contents
        have hlen := congrArg List.length hsplit
        rw [List.length_append] at hlen
        cases hupdate : evp.digestUpdate state (contents.take sha256BlockSize) with
        | none =>
            refine ⟨[contents.take sha256BlockSize, contents.drop sha256BlockSize], ?_, ?_⟩
            · simp
            · simp [hblock, hupdate]
        | some next =>
            obtain ⟨blocks, hblocks, hloop⟩ := ih next
              ((fileSize + (contents.take sha256BlockSize).length) % 2 ^ 64)
              (contents.drop sha256BlockSize) (by omega) (Nat.mod_lt _ (by decide))
            refine ⟨contents.take sha256BlockSize :: blocks, ?_, ?_⟩
            · rw [List.flatten_cons, hblocks, hsplit]
            · rw [if_neg hblock, List.foldlM_cons, hupdate]
              dsimp only [Option.bind_eq_bind, Option.bind_some]
              rw [hloop, Nat.mod_add_mod, Nat.add_assoc, hlen]

theorem sha256File_eq (h : Computes evp sha256) (contents : List UInt8) :
    sha256File evp (some contents) false =
      ⟨int32 (contents.length % 2 ^ 32), some (sha256 contents)⟩ := by
  obtain ⟨state, hinit, hblocks⟩ := h
  obtain ⟨blocks, hcontents, hloop⟩ := exists_blocks evp state 0 contents
    (Nat.lt_succ_self contents.length) (show 0 < 2 ^ 64 by decide)
  have hdigest := hblocks blocks
  obtain ⟨last, hlast, hfinal⟩ := Option.bind_eq_some_iff.mp hdigest
  have hmod : contents.length % 2 ^ 64 % 2 ^ 32 = contents.length % 2 ^ 32 := by omega
  rw [sha256File, hinit]
  dsimp only
  rw [hloop, hlast, Option.map_some]
  dsimp only
  rw [hfinal, if_neg Bool.false_ne_true, Nat.zero_add, hmod, hcontents]

/-- The blocks and the sum amount to the digest and the size of the file. -/
theorem createMagnetFrom_eq (h : Computes evp sha256) (memory : HashID)
    (contents : Option (List UInt8)) :
    createMagnetFrom (sha256File evp contents false) memory filename =
      createMagnet sha256 filename contents := by
  cases contents with
  | none => simp [createMagnetFrom, createMagnet, sha256File]
  | some contents =>
      rw [sha256File_eq h]
      rfl

/-- The magnet of a readable file exists and has the size of the file. -/
def SizeKept (evp : Evp ctx) (memory : HashID) (filename contents : List UInt8) : Prop :=
  ∃ magnet, createMagnetFrom (sha256File evp (some contents) false) memory filename = some magnet ∧
    magnet.exactLength = contents.length

theorem sizeKept_iff_int32 (h : Computes evp sha256) (hname : filename ≠ []) (memory : HashID)
    (contents : List UInt8) :
    SizeKept evp memory filename contents ↔
      int32 (contents.length % 2 ^ 32) ≠ -1 ∧
        toSizeT (int32 (contents.length % 2 ^ 32)) = contents.length := by
  have hpos : ¬ filename.length < 1 := not_lt.mpr (List.length_pos_of_ne_nil hname)
  rw [SizeKept, createMagnetFrom_eq h, createMagnet, if_neg hpos]
  dsimp only
  split
  · next herror =>
      refine iff_of_false ?_ fun hkept => hkept.1 herror
      rintro ⟨magnet, hmagnet, -⟩
      cases hmagnet
  · next hok =>
      refine ⟨?_, fun hkept => ⟨_, rfl, hkept.2⟩⟩
      rintro ⟨magnet, hmagnet, hlength⟩
      cases hmagnet
      exact ⟨hok, hlength⟩

/-- The size is kept where an `int` can hold it, and where its low bits are those of a negative
number other than -1. -/
theorem sizeKept_iff (h : Computes evp sha256) (hname : filename ≠ []) (memory : HashID)
    {contents : List UInt8} (hlen : contents.length < 2 ^ 64) :
    SizeKept evp memory filename contents ↔
      contents.length < 2 ^ 31 ∨
        2 ^ 64 - 2 ^ 31 ≤ contents.length ∧ contents.length ≠ 2 ^ 64 - 1 := by
  rw [sizeKept_iff_int32 h hname, int32, toSizeT]
  split_ifs
  · omega
  · omega

end Digest

def abcDigest : HashID :=
  ⟨[0xba, 0x78, 0x16, 0xbf, 0x8f, 0x01, 0xcf, 0xea, 0x41, 0x41, 0x40, 0xde, 0x5d, 0xae, 0x22, 0x23,
    0xb0, 0x03, 0x61, 0xa3, 0x96, 0x17, 0x7a, 0x9c, 0xb4, 0x10, 0xff, 0x61, 0xf2, 0x00, 0x15, 0xad],
    rfl⟩

def abcEvp : Evp (List UInt8) :=
  ⟨some [], fun state block => some (state ++ block), fun _ => some abcDigest⟩

theorem computes_abcEvp : Computes abcEvp fun _ => abcDigest := by
  refine ⟨[], rfl, fun blocks => ?_⟩
  have hnever : ∀ state, ∃ last, blocks.foldlM abcEvp.digestUpdate state = some last := by
    induction blocks with
    | nil => exact fun state => ⟨state, rfl⟩
    | cons block blocks ih => exact fun state => ih (state ++ block)
  obtain ⟨last, hlast⟩ := hnever []
  rw [hlast, Option.bind_some]
  rfl

theorem sizeKept_iff_abc :
    SizeKept abcEvp (zeroBytes 32) (ascii "f") (ascii "abc") ↔
      (ascii "abc").length < 2 ^ 31 ∨
        2 ^ 64 - 2 ^ 31 ≤ (ascii "abc").length ∧ (ascii "abc").length ≠ 2 ^ 64 - 1 :=
  sizeKept_iff computes_abcEvp (by decide) _ (by decide)

/-- The size of a file with `2 ^ 31` bytes is a negative `int`. -/
theorem not_sizeKept_largeFile :
    ¬ SizeKept abcEvp (zeroBytes 32) (ascii "f") (List.replicate (2 ^ 31) 0) := by
  rw [sizeKept_iff_int32 computes_abcEvp (by decide), List.length_replicate]
  decide

end Kademlia.Magnets
