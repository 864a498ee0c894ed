import Kademlia.Http.Names
import Kademlia.Model.Magnet

/-!
Magnets written to a URI and read back.

The hash comes back always. The name is written as it is, so it comes back up
to its first `&`. A length of 0 is not written, and then what `malloc` left is
taken for it; any other length comes back through an `int`.
-/

namespace Kademlia.Magnets

open Foundations CString Model Http

/-- The URI of the magnet reads back as the magnet, whatever was in the memory. -/
def RoundTrips (name : BaseName) (fileHash : HashID) (exactLength : ℕ) : Prop :=
  ∀ memory len, memory < 2 ^ 64 → 1 ≤ len →
    parseMagnetFromUri memory (saveMagnetToUri (magnetNamed name fileHash exactLength)) len =
      some (some (magnetNamed name fileHash exactLength))

/-! ### The URI -/

theorem foldl_strncat {uriSize : ℕ} (uri : List UInt8) (texts : List (List UInt8))
    (h : uri.length + texts.flatten.length < uriSize) :
    texts.foldl (strncat uriSize) uri = uri ++ texts.flatten := by
  induction texts generalizing uri with
  | nil => simp
  | cons text texts ih =>
      rw [List.flatten_cons, List.length_append] at h
      have hfits : strncat uriSize uri text = uri ++ text := by
        rw [strncat, List.take_of_length_le (by omega)]
      rw [List.foldl_cons, hfits, ih _ (by rw [List.length_append]; omega), List.flatten_cons,
        List.append_assoc]

/-- What is printed of the length, which is nothing if it is 0. -/
def lengthTexts (exactLength : ℕ) : List (List UInt8) :=
  if exactLength > 0 then [ascii "&xl=", decimal exactLength] else []

theorem flatten_lengthTexts (exactLength : ℕ) :
    (lengthTexts exactLength).flatten =
      if exactLength > 0 then ascii "&xl=" ++ decimal exactLength else [] := by
  rw [lengthTexts]
  split_ifs
  · simp
  · rfl

/-- What is printed of the name, if there is one. -/
def nameTexts : Option (List UInt8) → List (List UInt8)
  | none => []
  | some name => [ascii "&dn=", name]

def uriTexts (magnet : FileMagnet) : List (List UInt8) :=
  [magnetBase, magnet.fileHash.toList.flatMap hexByte] ++ nameTexts magnet.displayName ++
    lengthTexts magnet.exactLength

def uriSize (magnet : FileMagnet) : ℕ :=
  magnetBase.length + 32 * 2 + 1 +
    (if magnet.exactLength > 0 then (decimal magnet.exactLength).length + 4 else 0) +
    (match magnet.displayName with
      | none => 0
      | some name => name.length + 4)

theorem saveMagnetToUri_eq_foldl (magnet : FileMagnet) :
    saveMagnetToUri magnet = (uriTexts magnet).foldl (strncat (uriSize magnet)) [] := by
  obtain ⟨fileHash, displayName, exactLength⟩ := magnet
  rcases Nat.eq_zero_or_pos exactLength with rfl | hpos
  · cases displayName with
    | none => rfl
    | some name => rfl
  · have htexts : lengthTexts exactLength = [ascii "&xl=", decimal exactLength] := if_pos hpos
    cases displayName with
    | none => simp [saveMagnetToUri, uriTexts, uriSize, nameTexts, htexts, hpos]
    | some name => simp [saveMagnetToUri, uriTexts, uriSize, nameTexts, htexts, hpos]

theorem length_uriTexts (magnet : FileMagnet) :
    (uriTexts magnet).flatten.length + 1 = uriSize magnet := by
  obtain ⟨fileHash, displayName, exactLength⟩ := magnet
  have hhash := length_flatMap_hexByte fileHash.toList
  have hdn : (ascii "&dn=").length = 4 := rfl
  have hxl : (ascii "&xl=").length = 4 := rfl
  rw [List.Vector.toList_length] at hhash
  have hlength : (lengthTexts exactLength).flatten.length =
      if exactLength > 0 then (decimal exactLength).length + 4 else 0 := by
    rw [flatten_lengthTexts]
    split_ifs
    · rw [List.length_append, hxl, Nat.add_comm]
    · rfl
  cases displayName with
  | none =>
      simp only [uriTexts, uriSize, nameTexts, List.append_nil, List.flatten_append,
        List.flatten_cons, List.flatten_nil, List.length_append, hhash, hlength]
      omega
  | some name =>
      simp only [uriTexts, uriSize, nameTexts, List.append_nil, List.flatten_append,
        List.flatten_cons, List.flatten_nil, List.length_append, hhash, hlength, hdn]
      omega

theorem saveMagnetToUri_eq_flatten (magnet : FileMagnet) :
    saveMagnetToUri magnet = (uriTexts magnet).flatten := by
  have hroom := length_uriTexts magnet
  rw [saveMagnetToUri_eq_foldl, foldl_strncat _ _ (by rw [List.length_nil]; omega),
    List.nil_append]

/-- Nothing is cut off, and nothing of the buffer is left over. -/
theorem saveMagnetToUri_full (magnet : FileMagnet) :
    saveMagnetToUri magnet =
        magnetBase ++ magnet.fileHash.toList.flatMap hexByte ++
          (match magnet.displayName with
            | none => []
            | some name => ascii "&dn=" ++ name) ++
          (if magnet.exactLength > 0 then ascii "&xl=" ++ decimal magnet.exactLength else []) ∧
      (saveMagnetToUri magnet).length + 1 = uriSize magnet := by
  rw [saveMagnetToUri_eq_flatten]
  refine ⟨?_, length_uriTexts magnet⟩
  obtain ⟨fileHash, displayName, exactLength⟩ := magnet
  cases displayName with
  | none => simp [uriTexts, nameTexts, flatten_lengthTexts]
  | some name => simp [uriTexts, nameTexts, flatten_lengthTexts]

theorem saveMagnetToUri_eq (name : BaseName) (fileHash : HashID) (exactLength : ℕ) :
    saveMagnetToUri (magnetNamed name fileHash exactLength) =
      magnetBase ++ (fileHash.toList.flatMap hexByte ++
        (ascii "&dn=" ++ (name.bytes ++ (lengthTexts exactLength).flatten))) := by
  rw [saveMagnetToUri_eq_flatten]
  simp [uriTexts, magnetNamed, nameTexts]

/-! ### The three searches -/

theorem matchHash_append (fileHash : HashID) (rest : List UInt8) :
    matchHash (magnetBase ++ (fileHash.toList.flatMap hexByte ++ rest)) =
      some (fileHash.toList.flatMap hexByte) := by
  have hlen := length_flatMap_hexByte fileHash.toList
  rw [List.Vector.toList_length] at hlen
  have htake : (fileHash.toList.flatMap hexByte ++ rest).take 64 =
      fileHash.toList.flatMap hexByte := List.take_left' hlen
  have hhex : (fileHash.toList.flatMap hexByte).all isHexDigit = true :=
    List.all_eq_true.mpr fun c hc => isHexDigit_of_mem_flatMap hc
  have hbase : magnetBase.isPrefixOf (magnetBase ++ (fileHash.toList.flatMap hexByte ++ rest)) =
      true := List.isPrefixOf_iff_prefix.mpr (List.prefix_append _ _)
  rw [matchHash, List.drop_left, htake]
  exact if_pos ⟨hbase, hlen, hhex⟩

theorem ofFn_scanHexByte (fileHash : HashID) :
    (List.Vector.ofFn fun i : Fin 32 =>
      scanHexByte ((fileHash.toList.flatMap hexByte).drop (2 * i))) = fileHash := by
  ext i
  have hi : i.val < fileHash.toList.length := by simp
  rw [List.Vector.get_ofFn, scanHexByte_drop _ hi, List.Vector.get_eq_get_toList]
  rfl

theorem matchParameter_append {s : List UInt8} (h : 38 ∉ s) (key rest : List UInt8) :
    matchParameter (38 :: key) (s ++ (38 :: key ++ rest)) = some (rest.takeWhile (· ≠ 38)) := by
  rw [matchParameter, strstr_append_of_not_mem h, strstr_append_self _ _ (List.cons_ne_nil _ _),
    Option.map_some, List.drop_left]

theorem amp_not_mem_front (fileHash : HashID) :
    38 ∉ magnetBase ++ fileHash.toList.flatMap hexByte := by
  rw [List.mem_append, not_or]
  refine ⟨by decide, fun h => ?_⟩
  have hhex := isHexDigit_of_mem_flatMap h
  cases hhex

theorem takeWhile_append_lengthTexts (bytes : List UInt8) (exactLength : ℕ) :
    (bytes ++ (lengthTexts exactLength).flatten).takeWhile (· ≠ 38) =
      bytes.takeWhile (· ≠ 38) := by
  have hnil : (lengthTexts exactLength).flatten.takeWhile (· ≠ 38) = [] := by
    rw [lengthTexts]
    split_ifs
    · rfl
    · rfl
  rw [List.takeWhile_append, hnil, List.append_nil]
  split_ifs with hall
  · exact ((List.takeWhile_prefix _).eq_of_length hall).symm
  · rfl

variable (name : BaseName) (fileHash : HashID) (exactLength : ℕ)

theorem matchParameter_name :
    matchParameter (ascii "&dn=") (saveMagnetToUri (magnetNamed name fileHash exactLength)) =
      some (name.bytes.takeWhile (· ≠ 38)) := by
  have hkey : ascii "&dn=" = 38 :: ascii "dn=" := by decide
  rw [saveMagnetToUri_eq, ← List.append_assoc, hkey,
    matchParameter_append (amp_not_mem_front fileHash), takeWhile_append_lengthTexts]

theorem matchParameter_length (hname : 38 ∉ name.bytes) :
    matchParameter (ascii "&xl=") (saveMagnetToUri (magnetNamed name fileHash exactLength)) =
      if exactLength > 0 then some (decimal exactLength) else none := by
  have hkey : ascii "&xl=" = 38 :: ascii "xl=" := by decide
  have hafter : 38 ∉ ascii "dn=" ++ name.bytes := by
    rw [List.mem_append, not_or]
    exact ⟨by decide, hname⟩
  -- the first `&` begins the name, which is not a length
  have hskip : ∀ t, strstr (ascii "&dn=" ++ (name.bytes ++ t)) (38 :: ascii "xl=") =
      strstr t (38 :: ascii "xl=") := by
    intro t
    have hother : (38 :: ascii "xl=").isPrefixOf (ascii "&dn=" ++ (name.bytes ++ t)) = false := rfl
    have hdn : ascii "&dn=" = 38 :: ascii "dn=" := by decide
    rw [hdn] at hother ⊢
    rw [strstr, List.cons_append, findFirst, ← List.cons_append, hother,
      if_neg Bool.false_ne_true, ← List.append_assoc]
    exact strstr_append_of_not_mem hafter _ t
  rw [saveMagnetToUri_eq, ← List.append_assoc, matchParameter, hkey,
    strstr_append_of_not_mem (amp_not_mem_front fileHash), hskip, lengthTexts]
  split_ifs
  · have hdigits : (decimal exactLength).takeWhile (· ≠ 38) = decimal exactLength := by
      rw [List.takeWhile_eq_self_iff]
      intro b hb
      have hne : b ≠ 38 := by
        rintro rfl
        cases isDigit_of_mem_decimal hb
      simpa using hne
    rw [List.flatten_cons, List.flatten_cons, List.flatten_nil, List.append_nil, hkey,
      strstr_append_self _ _ (List.cons_ne_nil _ _), Option.map_some, List.drop_left, hdigits]
  · rfl

/-! ### What comes back -/

/-- A length goes through a `long`, which saturates, and an `int`, which does not. -/
theorem toSizeT_longToInt_natCast {n : ℕ} (hn : n < 2 ^ 64) :
    toSizeT (longToInt (min n (2 ^ 63 - 1) : ℕ)) = n ↔ n < 2 ^ 31 ∨ n = 2 ^ 64 - 1 := by
  have hmin : ((min n (2 ^ 63 - 1) : ℕ) : ℤ) % 2 ^ 32 = ((min n (2 ^ 63 - 1) % 2 ^ 32 : ℕ) : ℤ) := by
    norm_cast
  rw [longToInt, hmin, Int.toNat_natCast, int32, toSizeT]
  split_ifs
  · omega
  · omega

theorem toSizeT_atoi_decimal (hlen : exactLength < 2 ^ 64) :
    toSizeT (atoi (decimal exactLength)) = exactLength ↔
      exactLength < 2 ^ 31 ∨ exactLength = 2 ^ 64 - 1 := by
  rw [atoi, scanSigned_decimal, Option.elim_some]
  exact toSizeT_longToInt_natCast hlen

/-- Once the hash is found, the result depends on the two parameters. -/
theorem parseMagnetFromUri_of_hash {contents hash : List UInt8} {len : ℕ} (hlen : 1 ≤ len)
    (h : matchHash contents = some hash) (memory : ℕ) :
    parseMagnetFromUri memory contents len =
      let magnet (exactLength : ℕ) : FileMagnet :=
        ⟨List.Vector.ofFn fun i : Fin 32 => scanHexByte (hash.drop (2 * i)),
          matchParameter (ascii "&dn=") contents, exactLength⟩
      (matchParameter (ascii "&xl=") contents).elim (some (some (magnet memory))) fun fileSize =>
        if 32 ≤ fileSize.length then none else some (some (magnet (toSizeT (atoi fileSize)))) := by
  rw [parseMagnetFromUri, if_neg (not_lt.mpr hlen), h]
  dsimp only
  cases matchParameter (ascii "&xl=") contents with
  | none => rfl
  | some fileSize => rfl

theorem takeWhile_eq_self_iff_not_mem {bytes : List UInt8} :
    bytes.takeWhile (· ≠ 38) = bytes ↔ 38 ∉ bytes := by
  rw [List.takeWhile_eq_self_iff]
  constructor
  · exact fun h hmem => absurd (h 38 hmem) (by decide)
  · intro h b hb
    have hne : b ≠ 38 := fun heq => h (heq ▸ hb)
    simpa using hne

theorem parseMagnetFromUri_save {memory len : ℕ} (hlen : 1 ≤ len) :
    parseMagnetFromUri memory (saveMagnetToUri (magnetNamed name fileHash exactLength)) len =
      (matchParameter (ascii "&xl=") (saveMagnetToUri (magnetNamed name fileHash exactLength))).elim
        (some (some ⟨fileHash, some (name.bytes.takeWhile (· ≠ 38)), memory⟩)) fun fileSize =>
          if 32 ≤ fileSize.length then none
          else some (some ⟨fileHash, some (name.bytes.takeWhile (· ≠ 38)),
            toSizeT (atoi fileSize)⟩) := by
  have hhash : matchHash (saveMagnetToUri (magnetNamed name fileHash exactLength)) =
      some (fileHash.toList.flatMap hexByte) := by
    rw [saveMagnetToUri_eq]
    exact matchHash_append fileHash _
  rw [parseMagnetFromUri_of_hash hlen hhash, ofFn_scanHexByte, matchParameter_name]

variable {name fileHash exactLength}

theorem RoundTrips.name_eq (h : RoundTrips name fileHash exactLength) :
    name.bytes.takeWhile (· ≠ 38) = name.bytes := by
  have hback := h 0 1 (by decide) le_rfl
  rw [parseMagnetFromUri_save name fileHash exactLength le_rfl] at hback
  cases hlength : matchParameter (ascii "&xl=")
      (saveMagnetToUri (magnetNamed name fileHash exactLength)) with
  | none =>
      rw [hlength] at hback
      have hmagnet := Option.some.inj (Option.some.inj hback)
      exact Option.some.inj (congrArg FileMagnet.displayName hmagnet)
  | some fileSize =>
      rw [hlength, Option.elim_some] at hback
      split at hback
      · cases hback
      · have hmagnet := Option.some.inj (Option.some.inj hback)
        exact Option.some.inj (congrArg FileMagnet.displayName hmagnet)

/-- The name has to be without `&` and the length such that it is written and gets through an
`int`. -/
theorem roundTrips_iff (hlen : exactLength < 2 ^ 64) :
    RoundTrips name fileHash exactLength ↔
      38 ∉ name.bytes ∧
        (0 < exactLength ∧ exactLength < 2 ^ 31 ∨ exactLength = 2 ^ 64 - 1) := by
  by_cases hname : 38 ∈ name.bytes
  · refine iff_of_false (fun h => ?_) fun h => h.1 hname
    exact takeWhile_eq_self_iff_not_mem.mp h.name_eq hname
  · rw [and_iff_right hname]
    have hback : ∀ memory len, 1 ≤ len →
        parseMagnetFromUri memory (saveMagnetToUri (magnetNamed name fileHash exactLength)) len =
          some (some (magnetNamed name fileHash
            (if exactLength > 0 then toSizeT (atoi (decimal exactLength)) else memory))) := by
      intro memory len hpos
      rw [parseMagnetFromUri_save name fileHash exactLength hpos,
        matchParameter_length name fileHash exactLength hname,
        takeWhile_eq_self_iff_not_mem.mpr hname]
      split_ifs
      · have hshort : (decimal exactLength).length ≤ 20 :=
          decimal_length_le (by decide) (hlen.trans (by decide))
        rw [Option.elim_some, if_neg (by omega), magnetNamed]
      · rfl
    have hmagnet : ∀ n, some (some (magnetNamed name fileHash n)) =
        some (some (magnetNamed name fileHash exactLength)) ↔ n = exactLength := by
      intro n
      simp [magnetNamed]
    have hatoi := toSizeT_atoi_decimal exactLength hlen
    constructor
    · intro h
      have hone := h 1 1 (by decide) le_rfl
      have htwo := h 2 1 (by decide) le_rfl
      rw [hback _ _ le_rfl, hmagnet] at hone htwo
      split_ifs at hone htwo with hpos
      · exact (hatoi.mp hone).imp_left fun hlt => ⟨hpos, hlt⟩
      · omega
    · intro h memory len _ hpos
      rw [hback _ _ hpos, hmagnet, if_pos (by omega), hatoi]
      omega

theorem roundTrips_iff_spacedName :
    RoundTrips spacedName (zeroBytes 32) 5 ↔
      38 ∉ spacedName.bytes ∧ (0 < 5 ∧ 5 < 2 ^ 31 ∨ 5 = 2 ^ 64 - 1) :=
  roundTrips_iff (by decide)

/-- `a&b` -/
def ampersandName : BaseName := ⟨[97, 38, 98], by decide, by decide, by decide⟩

theorem not_roundTrips_ampersandName : ¬ RoundTrips ampersandName (zeroBytes 32) 5 := by
  intro h
  exact absurd h.name_eq (by decide)

end Kademlia.Magnets
