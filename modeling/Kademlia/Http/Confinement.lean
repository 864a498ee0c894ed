import Kademlia.Foundations.Paths
import Kademlia.Http.Names
import Kademlia.Model.Magnet

/-!
The files that requests and magnets can name.

A name is put behind the directory and a slash, and nothing looks for `..` in
it. So the path leads wherever the name leads from the directory, and that is
below it exactly if the name does not go up, or comes back down through the last
names of the directory and goes on.
-/

namespace Kademlia.Http

open Foundations Paths CString Model

def nameTrail (name : List UInt8) : Trail (List UInt8) := trailOf 47 46 name

variable {cwd : List (List UInt8)} {contents : Memory} {name path : List UInt8}

theorem pathIn_eq (dir name : List UInt8) (hdir : dir.length < 511) :
    pathIn dir name = dir ++ 47 :: name.take (510 - dir.length) := by
  rw [pathIn, snprintf, List.append_assoc, List.take_append, List.take_of_length_le (by omega),
    show 512 - 1 - dir.length = 510 - dir.length + 1 by omega]
  rfl

/-- A path is cut off at 511 bytes, with what is left of the name. -/
theorem inside_pathIn_iff (cwd : List (List UInt8)) {dir : List UInt8} (hne : dir ≠ [])
    (hdir : dir.length < 511) (name : List UInt8) :
    Inside (place cwd dir) (place cwd (pathIn dir name)) ↔
      (nameTrail (name.take (510 - dir.length))).Enters (place cwd dir) := by
  rw [pathIn_eq dir name hdir]
  exact inside_resolve_append_iff 47 46 hne cwd _

theorem place_uploadDir (cwd : List (List UInt8)) : place cwd uploadDir = cwd ++ [ascii "upload"] :=
  rfl

theorem place_downloadDir (cwd : List (List UInt8)) :
    place cwd downloadDir = cwd ++ [ascii "download"] := rfl

theorem enters_baseName (name : BaseName) (hdot : name.bytes ≠ [46]) (hdots : name.bytes ≠ [46, 46])
    (dir : List (List UInt8)) : (nameTrail name.bytes).Enters dir := by
  have hcomponents : components 47 46 name.bytes = [name.bytes] := by
    rw [components, List.splitOn_eq_singleton name.no_slash]
    simp [name.ne_nil, hdot]
  have htrail : nameTrail name.bytes = ⟨0, [name.bytes]⟩ := by
    rw [nameTrail, trailOf, hcomponents]
    simp [trail, Trail.add, hdots]
  rw [htrail, Trail.enters_iff_of_ups_eq_zero rfl]
  exact List.cons_ne_nil _ _

/-! ### Requests -/

/-- A file is opened for the request if the file system permits it: a PUT needs its length. -/
def Transfers (contents : Memory) : Prop :=
  (contents.bytes 0 4).toList = ascii "GET " ∨
    ∃ field length, strcasestrPortable contents.cString contentLengthName = some field ∧
      scanContentLength field = some length

theorem handleHttpRequest_of_no_name (h : extractedName contents = none) (ops : FileOps)
    (disk : Disk) (length : ℕ) (conn : Conn) :
    (handleHttpRequest ops disk contents length conn).opened = none := by
  unfold extractedName at h
  unfold handleHttpRequest
  by_cases hempty : filePath contents = []
  · simp only [if_pos hempty]
    split_ifs
    · rfl
    · rfl
    · rfl
  · rw [if_neg hempty] at h
    have hmethod : ¬ ((contents.bytes 0 4).toList = ascii "GET " ∨
        (contents.bytes 0 4).toList = ascii "PUT ") := fun hmethod => by simp [hmethod] at h
    rw [not_or] at hmethod
    rw [if_neg hmethod.1, if_neg hmethod.2]

theorem length_le_of_extractedName (h : extractedName contents = some name) :
    name.length ≤ 254 := by
  unfold extractedName at h
  split_ifs at h
  rw [← Option.some.inj h, filePath, List.length_tail, requestPath, scanWord, List.length_take]
  omega

theorem sendHttpFile_opened {ops : FileOps} {disk : Disk} {conn : Conn}
    (h : (sendHttpFile ops disk name conn).opened = some path) : path = pathIn uploadDir name := by
  unfold sendHttpFile at h
  dsimp only at h
  split at h
  · cases h
  · exact (Option.some.inj h).symm

theorem receiveHttpFile_opened {ops : FileOps} {disk : Disk} {length : ℕ} {conn : Conn}
    (h : (receiveHttpFile ops disk name contents length conn).opened = some path) :
    path = pathIn uploadDir name ∧ Transfers contents := by
  unfold receiveHttpFile at h
  dsimp only at h
  split at h
  · cases h
  · split at h
    · cases h
    · next field hfield =>
        split at h
        · cases h
        · next contentLength hlength =>
            split at h
            · cases h
            · exact ⟨(Option.some.inj h).symm, .inr ⟨field, contentLength, hfield, hlength⟩⟩

theorem exists_opened_iff (length : ℕ) (conn : Conn) :
    (∃ ops disk, (handleHttpRequest ops disk contents length conn).opened = some path) ↔
      ∃ name, extractedName contents = some name ∧ Transfers contents ∧
        path = pathIn uploadDir name := by
  constructor
  · rintro ⟨ops, disk, hopened⟩
    cases hname : extractedName contents with
    | none =>
        rw [handleHttpRequest_of_no_name hname] at hopened
        cases hopened
    | some name =>
        rw [handleHttpRequest_of_extractedName hname] at hopened
        split_ifs at hopened with hget
        · exact ⟨name, rfl, .inl hget, sendHttpFile_opened hopened⟩
        · obtain ⟨hpath, htransfers⟩ := receiveHttpFile_opened hopened
          exact ⟨name, rfl, htransfers, hpath⟩
  · rintro ⟨name, hname, htransfers, rfl⟩
    refine ⟨FileOps.ordinary, ⟨[], fun _ => some []⟩, ?_⟩
    rw [handleHttpRequest_of_extractedName hname]
    split_ifs with hget
    · rfl
    · obtain ⟨field, contentLength, hfield, hlength⟩ := htransfers.resolve_left hget
      simp only [receiveHttpFile, hfield, hlength]
      rfl

/-! ### Downloads -/

/-- `download_http_file` can write to `path` when the program runs in `cwd`, if the file
system and the peer permit it. -/
def WritesTo (cwd : List (List UInt8)) (file : FileMagnet) (path : List UInt8) : Prop :=
  ∃ session disk, disk.cwd = cwd ∧ (downloadHttpFile session disk file).disk path ≠ disk path

theorem downloadHttpFile_disk (session : HttpSession) (disk : Disk) (file : FileMagnet) :
    (downloadHttpFile session disk file).disk = disk ∨
      ∃ content, (downloadHttpFile session disk file).disk =
        disk.store (pathIn downloadDir file.nameText) content := by
  unfold downloadHttpFile
  generalize recvUntil session.reply httpHeaderSize httpPattern = received
  dsimp only
  cases strcasestrPortable (received.stored.takeWhile (· ≠ 0)) contentLengthName with
  | none =>
      left
      split_ifs <;> rfl
  | some field =>
      dsimp only
      split_ifs
      -- the exits in front of `fopen`, and the transfer
      iterate 6 exact .inl rfl
      exact .inr ⟨_, rfl⟩

def emptyFileSession : HttpSession :=
  ⟨true, true, true, Source.unread (ascii "Content-Length: 0" ++ httpPattern) [],
    FileOps.ordinary, false⟩

theorem downloadHttpFile_emptyFile (disk : Disk) (file : FileMagnet) :
    ∃ content, (downloadHttpFile emptyFileSession disk file).disk =
      disk.store (pathIn downloadDir file.nameText) content := by
  have hreceived : recvUntil emptyFileSession.reply httpHeaderSize httpPattern =
      ⟨21, ascii "Content-Length: 0" ++ httpPattern, []⟩ := by rfl
  have hmissing : (strstr ((ascii "Content-Length: 0" ++ httpPattern).takeWhile (· ≠ 0))
      (ascii "404 Not Found")).isSome = false := by decide
  have hfield : strcasestrPortable ((ascii "Content-Length: 0" ++ httpPattern).takeWhile (· ≠ 0))
      contentLengthName = some (ascii "Content-Length: 0" ++ httpPattern) := by decide
  unfold downloadHttpFile
  rw [hreceived]
  dsimp only
  rw [hmissing, hfield]
  exact ⟨_, rfl⟩

theorem writesTo_iff (cwd : List (List UInt8)) (file : FileMagnet) :
    WritesTo cwd file path ↔ place cwd path = place cwd (pathIn downloadDir file.nameText) := by
  constructor
  · rintro ⟨session, disk, rfl, hwrites⟩
    by_contra hne
    rcases downloadHttpFile_disk session disk file with hdisk | ⟨content, hdisk⟩
    · rw [hdisk] at hwrites
      exact hwrites rfl
    · rw [hdisk, Disk.store_read, if_neg hne] at hwrites
      exact hwrites rfl
  · intro hplace
    obtain ⟨content, hdisk⟩ := downloadHttpFile_emptyFile ⟨cwd, fun _ => none⟩ file
    refine ⟨emptyFileSession, ⟨cwd, fun _ => none⟩, rfl, ?_⟩
    rw [hdisk, Disk.store_read, if_pos hplace]
    exact Option.some_ne_none content

/-! ### Inside the directories -/

/-- Whatever the file system holds and permits, what is opened for the request is below the
upload directory. -/
def RequestStaysInside (cwd : List (List UInt8)) (contents : Memory) (length : ℕ) (conn : Conn) :
    Prop :=
  ∀ ops disk path, (handleHttpRequest ops disk contents length conn).opened = some path →
    Inside (place cwd uploadDir) (place cwd path)

/-- Whatever the peer sends, what is written is below the download directory. -/
def DownloadStaysInside (cwd : List (List UInt8)) (file : FileMagnet) : Prop :=
  ∀ path, WritesTo cwd file path → Inside (place cwd downloadDir) (place cwd path)

theorem requestStaysInside_iff (cwd : List (List UInt8)) (contents : Memory) (length : ℕ)
    (conn : Conn) :
    RequestStaysInside cwd contents length conn ↔
      ∀ name, extractedName contents = some name → Transfers contents →
        (nameTrail name).Enters (cwd ++ [ascii "upload"]) := by
  have hpath : ∀ name, extractedName contents = some name →
      (Inside (place cwd uploadDir) (place cwd (pathIn uploadDir name)) ↔
        (nameTrail name).Enters (cwd ++ [ascii "upload"])) := by
    intro name hname
    have hlen := length_le_of_extractedName hname
    have hsize : uploadDir.length = 8 := rfl
    rw [inside_pathIn_iff cwd (by decide) (by decide), place_uploadDir,
      List.take_of_length_le (by omega)]
  constructor
  · intro h name hname htransfers
    obtain ⟨ops, disk, hopened⟩ :=
      (exists_opened_iff length conn).mpr ⟨name, hname, htransfers, rfl⟩
    exact (hpath name hname).mp (h ops disk _ hopened)
  · intro h ops disk path hopened
    obtain ⟨name, hname, htransfers, rfl⟩ := (exists_opened_iff length conn).mp ⟨ops, disk, hopened⟩
    exact (hpath name hname).mpr (h name hname htransfers)

theorem downloadStaysInside_iff (cwd : List (List UInt8)) (file : FileMagnet) :
    DownloadStaysInside cwd file ↔
      (nameTrail (file.nameText.take 500)).Enters (cwd ++ [ascii "download"]) := by
  have hpath : Inside (place cwd downloadDir) (place cwd (pathIn downloadDir file.nameText)) ↔
      (nameTrail (file.nameText.take 500)).Enters (place cwd downloadDir) :=
    inside_pathIn_iff cwd (by decide) (by decide) file.nameText
  rw [place_downloadDir] at hpath
  rw [← hpath]
  constructor
  · exact fun h => h _ ((writesTo_iff cwd file).mpr rfl)
  · intro h path hwrites
    rwa [(writesTo_iff cwd file).mp hwrites]

/-- A file is opened outside of the directories exactly for names that lead there. -/
theorem confined_iff (cwd : List (List UInt8)) :
    (∀ contents length conn, RequestStaysInside cwd contents length conn ↔
      ∀ name, extractedName contents = some name → Transfers contents →
        (nameTrail name).Enters (cwd ++ [ascii "upload"])) ∧
    ∀ file, DownloadStaysInside cwd file ↔
      (nameTrail (file.nameText.take 500)).Enters (cwd ++ [ascii "download"]) :=
  ⟨requestStaysInside_iff cwd, downloadStaysInside_iff cwd⟩

/-- `GET /../secret` -/
def climbingRequest : Memory :=
  Memory.write (fun _ => 0) 0 (ascii "GET /../secret HTTP/1.1" ++ httpPattern)

/-- A magnet for `../secret`. -/
def climbingUri : List UInt8 :=
  magnetBase ++ List.replicate 64 48 ++ ascii "&dn=../secret&xl=1"

theorem not_confined_climbing :
    ¬ RequestStaysInside [ascii "srv"] climbingRequest 27 [] ∧
      ∃ file, parseMagnetFromUri 0 climbingUri climbingUri.length = some (some file) ∧
        ¬ DownloadStaysInside [ascii "srv"] file := by
  constructor
  · intro h
    have hopened : (handleHttpRequest FileOps.ordinary ⟨[], fun _ => some []⟩ climbingRequest 27
        []).opened = some (ascii "./upload/../secret") := by decide
    exact absurd (h _ _ _ hopened).1 (by decide)
  · refine ⟨⟨zeroBytes 32, some (ascii "../secret"), 1⟩, rfl, fun h => ?_⟩
    exact absurd (h _ ((writesTo_iff _ _).mpr rfl)).1 (by decide)

end Kademlia.Http
