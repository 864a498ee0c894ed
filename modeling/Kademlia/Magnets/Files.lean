import Kademlia.Magnets.Parsing
import Kademlia.Model.MagnetFiles

/-!
Magnets that go through a file.

Nothing ends the text in the buffer that it is read into, and the length is at
its end. So the hash and the name come back whatever is behind the buffer, and
the length comes back with what looks like a part of it there.
-/

namespace Kademlia.Magnets

open Foundations FileTree CString Model Http

variable {name : BaseName} {fileHash : HashID} {exactLength : ℕ}

/-! ### The file -/

theorem magnetFilename_eq (hlen : name.bytes.length ≤ 494) :
    magnetFilename (magnetNamed name fileHash exactLength) =
      uploadDir ++ [47] ++ name.bytes ++ ascii ".torrent" := by
  have hdir : (uploadDir ++ [47]).length = 9 := by decide
  have hsuffix : (ascii ".torrent").length = 8 := by decide
  apply snprintf_eq_self
  rw [List.length_append, List.length_append, hdir, hsuffix]
  change 9 + name.bytes.length + 8 < 512
  omega

theorem inputPath_line {path : List UInt8} (hlen : path.length ≤ filenameSize - 1)
    (hends : ∀ b ∈ path, b ≠ 10 ∧ b ≠ 0) (more : List UInt8) :
    inputPath (path ++ 10 :: more) = path := by
  rw [inputPath, ← List.take_takeWhile, List.takeWhile_append_of_pos,
    List.takeWhile_cons_of_neg (by decide), List.append_nil, List.take_of_length_le hlen]
  exact fun b hb => by simpa using hends b hb

theorem inputPath_magnetFilename (hlen : name.bytes.length ≤ 494) (hline : 10 ∉ name.bytes)
    (more : List UInt8) :
    inputPath (magnetFilename (magnetNamed name fileHash exactLength) ++ 10 :: more) =
      magnetFilename (magnetNamed name fileHash exactLength) := by
  rw [magnetFilename_eq hlen]
  apply inputPath_line
  · have hdir : (uploadDir ++ [47]).length = 9 := by decide
    have hsuffix : (ascii ".torrent").length = 8 := by decide
    have hroom : filenameSize - 1 = 511 := by decide
    rw [List.length_append, List.length_append, hdir, hsuffix]
    omega
  · have hfront : 10 ∉ uploadDir ++ [47] ∧ 0 ∉ uploadDir ++ [47] := by decide
    have hback : 10 ∉ ascii ".torrent" ∧ 0 ∉ ascii ".torrent" := by decide
    intro b hb
    rw [List.mem_append, List.mem_append] at hb
    constructor
    · rintro rfl
      exact hb.elim (fun h => h.elim hfront.1 hline) hback.1
    · rintro rfl
      exact hb.elim (fun h => h.elim hfront.2 name.no_nul) hback.2

theorem read_saveMagnetFile {ops : MagnetFileOps} {files saved : FileSystem} {magnet : FileMagnet}
    (h : saveMagnetFile ops files magnet = some saved)
    (htakes : (saveMagnetToUri magnet).length ≤ ops.takes) :
    saved.read (pathOf (magnetFilename magnet)) = some (saveMagnetToUri magnet) := by
  rw [saveMagnetFile] at h
  split at h
  · cases h
  · next opened file hopen =>
      obtain rfl := Option.some.inj h
      split_ifs at hopen
      have hopened := openWrite_opened hopen
      rw [List.take_of_length_le htakes, read_eq_some_iff]
      exact ⟨file, lookup_extends (extends_write opened file _) (.node file) hopened.leads,
        fileAt_write_self hopened.emptied _⟩

/-! ### The text with what is behind it -/

/-- What stands for the length: its digits, and what follows the buffer. -/
def lengthRead (exactLength : ℕ) (behind : List UInt8) : List UInt8 :=
  decimal exactLength ++ behind.takeWhile (· ≠ 38)

theorem amp_not_mem_decimal (n : ℕ) : 38 ∉ decimal n := by
  intro h
  cases isDigit_of_mem_decimal h

theorem matchHash_saved (behind : List UInt8) :
    matchHash (saveMagnetToUri (magnetNamed name fileHash exactLength) ++ behind) =
      some (fileHash.toList.flatMap hexByte) := by
  rw [saveMagnetToUri_eq, List.append_assoc, List.append_assoc]
  exact matchHash_append fileHash _

theorem matchParameter_name_saved (hname : 38 ∉ name.bytes) (hpos : 0 < exactLength)
    (behind : List UInt8) :
    matchParameter (ascii "&dn=")
        (saveMagnetToUri (magnetNamed name fileHash exactLength) ++ behind) =
      some name.bytes := by
  have hkey : ascii "&dn=" = 38 :: ascii "dn=" := by decide
  have hxl : ascii "&xl=" = 38 :: ascii "xl=" := by decide
  have htext : saveMagnetToUri (magnetNamed name fileHash exactLength) ++ behind =
      magnetBase ++ fileHash.toList.flatMap hexByte ++ (38 :: ascii "dn=" ++ (name.bytes ++
        (38 :: (ascii "xl=" ++ decimal exactLength ++ behind)))) := by
    rw [saveMagnetToUri_eq, flatten_lengthTexts, if_pos hpos, hkey, hxl]
    simp only [List.append_assoc, List.cons_append]
  rw [htext, hkey, matchParameter_append (amp_not_mem_front fileHash),
    List.takeWhile_append_of_pos, List.takeWhile_cons_of_neg (by decide), List.append_nil]
  intro b hb
  have hne : b ≠ 38 := fun heq => hname (heq ▸ hb)
  simpa using hne

theorem nul_not_mem_saved (name : BaseName) (fileHash : HashID) (exactLength : ℕ) :
    0 ∉ saveMagnetToUri (magnetNamed name fileHash exactLength) := by
  rw [saveMagnetToUri_eq, flatten_lengthTexts]
  intro h
  simp only [List.mem_append] at h
  rcases h with hbase | hhash | hkey | hbytes | hlength
  · exact absurd hbase (by decide)
  · cases isHexDigit_of_mem_flatMap hhash
  · exact absurd hkey (by decide)
  · exact name.no_nul hbytes
  · split_ifs at hlength
    · rcases List.mem_append.mp hlength with hxl | hdigits
      · exact absurd hxl (by decide)
      · exact not_mem_decimal _ hdigits
    · cases hlength

/-- Neither the name nor what is in front of it looks like a length. -/
theorem strstr_length_saved (hname : 38 ∉ name.bytes) (hpos : 0 < exactLength)
    (behind : List UInt8) :
    strstr (saveMagnetToUri (magnetNamed name fileHash exactLength) ++ behind)
        (38 :: ascii "xl=") =
      some (38 :: ascii "xl=" ++ (decimal exactLength ++ behind)) := by
  have hdn : ascii "&dn=" = 38 :: ascii "dn=" := by decide
  have hxl : ascii "&xl=" = 38 :: ascii "xl=" := by decide
  have hafter : 38 ∉ ascii "dn=" ++ name.bytes := by
    rw [List.mem_append, not_or]
    exact ⟨by decide, hname⟩
  have htext : saveMagnetToUri (magnetNamed name fileHash exactLength) ++ behind =
      magnetBase ++ fileHash.toList.flatMap hexByte ++ 38 :: (ascii "dn=" ++ name.bytes ++
        (38 :: ascii "xl=" ++ (decimal exactLength ++ behind))) := by
    rw [saveMagnetToUri_eq, flatten_lengthTexts, if_pos hpos, hdn, hxl]
    simp only [List.append_assoc, List.cons_append]
  -- the first `&` begins the name
  have hother : (38 :: ascii "xl=").isPrefixOf (38 :: (ascii "dn=" ++ name.bytes ++
      (38 :: ascii "xl=" ++ (decimal exactLength ++ behind)))) = false := rfl
  rw [htext, strstr_append_of_not_mem (amp_not_mem_front fileHash), strstr, findFirst, hother,
    if_neg Bool.false_ne_true]
  rw [← strstr, strstr_append_of_not_mem hafter,
    strstr_append_self _ _ (List.cons_ne_nil _ _)]

theorem matchParameter_length_saved (hname : 38 ∉ name.bytes) (hpos : 0 < exactLength)
    (behind : List UInt8) :
    matchParameter (ascii "&xl=")
        (saveMagnetToUri (magnetNamed name fileHash exactLength) ++ behind) =
      some (lengthRead exactLength behind) := by
  have hxl : ascii "&xl=" = 38 :: ascii "xl=" := by decide
  rw [matchParameter, hxl, strstr_length_saved hname hpos, Option.map_some, List.drop_left,
    lengthRead, List.takeWhile_append_of_pos]
  intro b hb
  have hne : b ≠ 38 := fun heq => amp_not_mem_decimal exactLength (heq ▸ hb)
  simpa using hne

/-! ### From the upload to the download -/

/-- The magnet file that an upload writes, asked for by its name: `cli_download_file` looks for
the right hash and the right name, whatever is behind the buffer and in the memory of the
magnet, unless the digits and what is taken for more of them are too many for the parser. -/
theorem cliDownloadFile_saved (hlen : name.bytes.length ≤ 494) (hline : 10 ∉ name.bytes)
    (hname : 38 ∉ name.bytes) (hpos : 0 < exactLength) {ops : MagnetFileOps}
    {files saved : FileSystem}
    (hsaved : saveMagnetFile ops files (magnetNamed name fileHash exactLength) = some saved)
    (htakes : (saveMagnetToUri (magnetNamed name fileHash exactLength)).length ≤ ops.takes)
    (more behind : List UInt8) (memory : ℕ) :
    cliDownloadFile saved
        (magnetFilename (magnetNamed name fileHash exactLength) ++ 10 :: more) behind memory =
      if 32 ≤ (lengthRead exactLength (behind.takeWhile (· ≠ 0))).length then none
      else some (some ⟨fileHash, some name.bytes,
        toSizeT (atoi (lengthRead exactLength (behind.takeWhile (· ≠ 0))))⟩) := by
  have hread := read_saveMagnetFile hsaved htakes
  have hone : 1 ≤ (saveMagnetToUri (magnetNamed name fileHash exactLength)).length := by
    have hbase : 1 ≤ magnetBase.length := by decide
    rw [saveMagnetToUri_eq, List.length_append]
    omega
  have hstring := stringAt_of_not_mem (nul_not_mem_saved name fileHash exactLength) behind
  rw [stringAt] at hstring
  rw [cliDownloadFile, if_neg, inputPath_magnetFilename hlen hline, hread]
  · dsimp only
    rw [hstring, parseMagnetFromUri_of_hash hone (matchHash_saved _) memory, ofFn_scanHexByte,
      matchParameter_name_saved hname hpos, matchParameter_length_saved hname hpos,
      Option.elim_some]
  · simp

def emptyUploads : FileSystem where
  nodes i :=
    match i with
    | 0 => some (.dir 0 fun name => if name = ascii "upload" then some 1 else none)
    | 1 => some (.dir 0 fun _ => none)
    | _ => none
  root := 0
  cwd := 0
  next := 2
  fresh i hi := by
    obtain ⟨k, rfl⟩ := Nat.exists_eq_add_of_le' hi
    rfl

/-- Behind the buffer there is another digit, so five bytes become fifty-nine. -/
theorem cliDownloadFile_saved_spacedName :
    ∃ saved, saveMagnetFile ⟨true, 512⟩ emptyUploads (magnetNamed spacedName (zeroBytes 32) 5) =
        some saved ∧
      cliDownloadFile saved (magnetFilename (magnetNamed spacedName (zeroBytes 32) 5) ++ [10])
        (ascii "9 ") 0 = some (some ⟨zeroBytes 32, some spacedName.bytes, 59⟩) := by
  obtain ⟨saved, hsaved⟩ := Option.isSome_iff_exists.mp (show (saveMagnetFile ⟨true, 512⟩
    emptyUploads (magnetNamed spacedName (zeroBytes 32) 5)).isSome = true by decide +kernel)
  refine ⟨saved, hsaved, ?_⟩
  rw [cliDownloadFile_saved (by decide) (by decide) (by decide) (by decide) hsaved
    (by decide +kernel)]
  have hfits : ¬ 32 ≤ (lengthRead 5 ((ascii "9 ").takeWhile (· ≠ 0))).length := by decide
  have hlength : toSizeT (atoi (lengthRead 5 ((ascii "9 ").takeWhile (· ≠ 0)))) = 59 := by
    decide +kernel
  rw [if_neg hfits, hlength]

end Kademlia.Magnets
