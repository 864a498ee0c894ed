import Kademlia.Model.Copy

/-!
The copy of an uploaded file in the upload directory.

The destination is the upload directory with the last name of the input path,
and it is opened for writing, which cuts it off, before the first block of the
input is read. If both paths lead to one file, whatever they look like, its
contents are gone.
-/

namespace Kademlia.Upload

open Foundations FileTree CString Model

variable {ops : CopyOps} {files : FileSystem}

/-! ### The loop -/

/-- `fwrite` takes all blocks of a file of `size` bytes whole, of which `blocks` are written. -/
def TakesAll (ops : CopyOps) (blocks size : ℕ) : Prop :=
  ∀ k, k * bufSize < size → min bufSize (size - k * bufSize) ≤ ops.takes (blocks + k)

theorem takesAll_zero (ops : CopyOps) (blocks : ℕ) : TakesAll ops blocks 0 :=
  fun _ h => absurd h (Nat.not_lt_zero _)

/-- The first block and the others. -/
theorem takesAll_iff {blocks size : ℕ} (hpos : 0 < size) :
    TakesAll ops blocks size ↔
      min bufSize size ≤ ops.takes blocks ∧ TakesAll ops (blocks + 1) (size - bufSize) := by
  constructor
  · intro h
    refine ⟨by simpa using h 0 (by omega), fun k hk => ?_⟩
    have hnext := h (k + 1) (by rw [Nat.succ_mul]; omega)
    rw [Nat.succ_mul, Nat.add_comm (k * bufSize), Nat.sub_add_eq] at hnext
    rwa [Nat.add_assoc, Nat.add_comm 1]
  · rintro ⟨hfirst, hrest⟩ k hk
    cases k with
    | zero => simpa using hfirst
    | succ k =>
        rw [Nat.succ_mul] at hk ⊢
        have hnext := hrest k (by omega)
        rw [Nat.add_comm (k * bufSize), Nat.sub_add_eq]
        rwa [Nat.add_assoc, Nat.add_comm 1] at hnext

section Block

variable {src dest : ℕ} {contents written : List UInt8} {fuel blocks read : ℕ}
  (hsrc : files.fileAt src = some contents)
include hsrc

theorem copyLoop_end (hend : contents.drop read = []) :
    copyLoop ops src dest (fuel + 1) blocks read files = some (0, files) := by
  rw [copyLoop, hsrc, Option.getD_some, hend]
  rfl

variable (hdest : files.fileAt dest = some written) (hrest : contents.drop read ≠ [])
include hdest hrest

theorem copyLoop_short
    (hshort : ops.takes blocks < ((contents.drop read).take bufSize).length) :
    copyLoop ops src dest (fuel + 1) blocks read files =
      some (-1, files.write dest
        (written ++ ((contents.drop read).take bufSize).take (ops.takes blocks))) := by
  have hsome : (contents.drop read).take bufSize ≠ [] := by
    rw [Ne, List.take_eq_nil_iff, not_or]
    exact ⟨by decide, hrest⟩
  have htaken := List.length_take_le (ops.takes blocks) ((contents.drop read).take bufSize)
  rw [copyLoop, hsrc, hdest, Option.getD_some, Option.getD_some]
  dsimp only
  rw [if_neg hsome, if_pos (by omega)]

theorem copyLoop_whole
    (hwhole : ((contents.drop read).take bufSize).length ≤ ops.takes blocks) :
    copyLoop ops src dest (fuel + 1) blocks read files =
      copyLoop ops src dest fuel (blocks + 1)
        (read + ((contents.drop read).take bufSize).length)
        (files.write dest (written ++ (contents.drop read).take bufSize)) := by
  have hsome : (contents.drop read).take bufSize ≠ [] := by
    rw [Ne, List.take_eq_nil_iff, not_or]
    exact ⟨by decide, hrest⟩
  rw [copyLoop, hsrc, hdest, Option.getD_some, Option.getD_some]
  dsimp only
  rw [if_neg hsome, List.take_of_length_le hwhole, if_neg (not_not_intro rfl)]

end Block

variable (ops) in
/-- Between two files the loop copies as much as `fwrite` takes. -/
theorem copyLoop_spec {src dest : ℕ} (hne : dest ≠ src) {contents : List UInt8}
    (fuel blocks read : ℕ) {files : FileSystem} {written : List UInt8}
    (hsrc : files.fileAt src = some contents) (hdest : files.fileAt dest = some written)
    (hfuel : (contents.drop read).length < fuel) :
    ∃ ret stored files', copyLoop ops src dest fuel blocks read files = some (ret, files') ∧
      Wrote files dest (written ++ stored) files' ∧ stored <+: contents.drop read ∧
      (stored = contents.drop read ↔ TakesAll ops blocks (contents.drop read).length) := by
  induction fuel generalizing blocks read files written with
  | zero => exact absurd hfuel (Nat.not_lt_zero _)
  | succ fuel ih =>
      by_cases hend : contents.drop read = []
      · rw [copyLoop_end hsrc hend, hend]
        refine ⟨0, [], files, rfl, ?_, List.prefix_rfl, iff_of_true rfl (takesAll_zero _ _)⟩
        rw [List.append_nil]
        exact .refl hdest
      · have hpos := List.length_pos_of_ne_nil hend
        have hbuf : 0 < bufSize := by decide
        have hblock : ((contents.drop read).take bufSize).length =
            min bufSize (contents.drop read).length := List.length_take
        rw [takesAll_iff hpos]
        rcases lt_or_ge (ops.takes blocks) ((contents.drop read).take bufSize).length with
          hshort | hwhole
        · rw [copyLoop_short hsrc hdest hend hshort]
          refine ⟨-1, _, _, rfl, wrote_write hdest _,
            (List.take_prefix _ _).trans (List.take_prefix _ _), iff_of_false (fun hall => ?_) ?_⟩
          · have hlen := congrArg List.length hall
            rw [List.length_take] at hlen
            omega
          · rintro ⟨htakes, -⟩
            omega
        · rw [copyLoop_whole hsrc hdest hend hwhole]
          have hnext : contents.drop (read + ((contents.drop read).take bufSize).length) =
              (contents.drop read).drop bufSize := by
            rw [hblock, ← List.drop_drop, ← List.drop_eq_drop_min]
          have hwrote := wrote_write hdest (written ++ (contents.drop read).take bufSize)
          have hsrc' := (hwrote.others src hne.symm).trans hsrc
          obtain ⟨ret, stored, files', hloop, hwrote', hpre, hall⟩ :=
            ih _ _ hsrc' hwrote.contents_eq (by rw [hnext, List.length_drop]; omega)
          rw [hnext] at hpre hall
          rw [List.length_drop] at hall
          have hsplit := List.take_append_drop bufSize (contents.drop read)
          refine ⟨ret, (contents.drop read).take bufSize ++ stored, files', hloop, ?_, ?_, ?_⟩
          · rw [← List.append_assoc]
            exact hwrote.trans hwrote'
          · have hcopied :=
              (List.prefix_append_right_inj ((contents.drop read).take bufSize)).mpr hpre
            rwa [hsplit] at hcopied
          · rw [and_iff_right (hblock ▸ hwhole), ← hall]
            exact ⟨fun heq => List.append_cancel_left (heq.trans hsplit.symm),
              fun heq => heq ▸ hsplit⟩

/-! ### `copy_file` -/

variable (ops) in
theorem wrote_closeDest {dest : ℕ} {contents : List UInt8}
    (h : files.fileAt dest = some contents) :
    Wrote files dest (contents.take (contents.length - ops.lost)) (closeDest ops dest files) := by
  rw [closeDest, h]
  exact wrote_write h _

theorem read_of_grows {files' : FileSystem} {path : Path (List UInt8)} {i : ℕ}
    {contents : List UInt8} (h : Extends files files')
    (hlookup : files.lookup path = some (.node i))
    (hfile : files'.fileAt i = some contents) : files'.read path = some contents :=
  read_eq_some_iff.mpr ⟨i, lookup_extends h (.node i) hlookup, hfile⟩

/-- Both files have the same contents after `copy_file`. -/
def Copied (ops : CopyOps) (start : FileSystem) (input dest contents : List UInt8) : Prop :=
  ∃ ret after, copyFile ops start input dest = some (ret, after) ∧
    after.read (pathOf input) = some contents ∧ after.read (pathOf dest) = some contents

/-- The destination is not the file that is copied, and nothing of it is lost on the way, if it
can be opened and there is something to copy. -/
def CopyWorks (ops : CopyOps) (start : FileSystem) (input dest contents : List UInt8) : Prop :=
  if ops.opens ∧ (start.openWrite [] (pathOf dest)).isSome then
    contents = [] ∨ start.lookup (pathOf dest) ≠ start.lookup (pathOf input) ∧
      TakesAll ops 0 contents.length ∧ ops.lost = 0
  else start.read (pathOf dest) = some contents

section CopyFile

variable {start : FileSystem} {input dest contents : List UInt8} {src : ℕ}
  (hlookup : start.lookup (pathOf input) = some (.node src))
  (hfile : start.fileAt src = some contents)
include hlookup hfile

omit hfile in
theorem copyFile_of_not_opened
    (hopen : (if ops.opens then start.openWrite [] (pathOf dest) else none) = none) :
    copyFile ops start input dest = some (-1, start) := by
  simp only [copyFile, hlookup, hopen]

theorem copyFile_of_opened {opened : FileSystem} {i : ℕ}
    (hopen : (if ops.opens then start.openWrite [] (pathOf dest) else none) = some (opened, i)) :
    copyFile ops start input dest =
      (copyLoop ops src i (contents.length + 1) 0 0 opened).map fun done =>
        (done.1, closeDest ops i done.2) := by
  simp only [copyFile, hlookup, hfile, hopen, Option.getD_some]

theorem copied_iff_of_not_opened
    (hopen : (if ops.opens then start.openWrite [] (pathOf dest) else none) = none) :
    Copied ops start input dest contents ↔ start.read (pathOf dest) = some contents := by
  rw [Copied, copyFile_of_not_opened hlookup hopen]
  constructor
  · rintro ⟨ret, after, hsome, -, hread⟩
    obtain ⟨rfl, rfl⟩ := Prod.mk.inj (Option.some.inj hsome)
    exact hread
  · intro hread
    exact ⟨-1, start, rfl, read_of_grows (.refl start) hlookup hfile, hread⟩

variable {opened : FileSystem} {i : ℕ}

/-- What both paths lead to when the loop has left `after` and the destination is closed. -/
theorem copied_iff_of_loop (hopened : Opened start [] (pathOf dest) opened i)
    (hopen : (if ops.opens then start.openWrite [] (pathOf dest) else none) = some (opened, i))
    {ret : ℤ} {after : FileSystem} {copied found : List UInt8}
    (hloop : copyLoop ops src i (contents.length + 1) 0 0 opened = some (ret, after))
    (hwrote : Wrote opened i copied after)
    (hsrc : (closeDest ops i after).fileAt src = some found) :
    Copied ops start input dest contents ↔
      found = contents ∧ copied.take (copied.length - ops.lost) = contents := by
  have hclosed := hwrote.trans (wrote_closeDest ops hwrote.contents_eq)
  have hinput : (closeDest ops i after).read (pathOf input) = some found :=
    read_of_grows (hopened.grows.trans hclosed.grows) hlookup hsrc
  have hdest : (closeDest ops i after).read (pathOf dest) =
      some (copied.take (copied.length - ops.lost)) :=
    read_of_grows hclosed.grows hopened.leads hclosed.contents_eq
  rw [Copied, copyFile_of_opened hlookup hfile hopen, hloop, Option.map_some]
  constructor
  · rintro ⟨_, _, hsome, hin, hout⟩
    obtain ⟨rfl, rfl⟩ := Prod.mk.inj (Option.some.inj hsome)
    rw [hinput] at hin
    rw [hdest] at hout
    exact ⟨Option.some.inj hin, Option.some.inj hout⟩
  · rintro ⟨hin, hout⟩
    exact ⟨_, _, rfl, hin ▸ hinput, hout ▸ hdest⟩

/-- The input itself is opened for writing, so there is nothing left to be read. -/
theorem copied_iff_of_same (hopened : Opened start [] (pathOf dest) opened src)
    (hopen : (if ops.opens then start.openWrite [] (pathOf dest) else none) = some (opened, src)) :
    Copied ops start input dest contents ↔ contents = [] := by
  have hloop : copyLoop ops src src (contents.length + 1) 0 0 opened = some (0, opened) := by
    rw [copyLoop, hopened.emptied]
    rfl
  have hclosed := wrote_closeDest ops hopened.emptied
  rw [copied_iff_of_loop hlookup hfile hopened hopen hloop (.refl hopened.emptied)
    hclosed.contents_eq, List.take_nil, and_self, eq_comm]

/-- Another file is opened for writing, and gets what `fwrite` takes of the input. -/
theorem copied_iff_of_other (hopened : Opened start [] (pathOf dest) opened i) (hne : i ≠ src)
    (hopen : (if ops.opens then start.openWrite [] (pathOf dest) else none) = some (opened, i)) :
    Copied ops start input dest contents ↔
      contents = [] ∨ TakesAll ops 0 contents.length ∧ ops.lost = 0 := by
  have hsrc : opened.fileAt src = some contents := hopened.others src contents hne.symm hfile
  obtain ⟨ret, copied, after, hloop, hwrote, hpre, hall⟩ :=
    copyLoop_spec ops hne (contents.length + 1) 0 0 hsrc hopened.emptied (Nat.lt_succ_self _)
  rw [List.nil_append] at hwrote
  rw [List.drop_zero] at hpre hall
  have hkept : (closeDest ops i after).fileAt src = some contents := by
    rw [(wrote_closeDest ops hwrote.contents_eq).others src hne.symm,
      hwrote.others src hne.symm, hsrc]
  rw [copied_iff_of_loop hlookup hfile hopened hopen hloop hwrote hkept, and_iff_right rfl, ← hall]
  have hle := hpre.length_le
  constructor
  · intro heq
    have hlen := congrArg List.length heq
    rw [List.length_take] at hlen
    rcases Nat.eq_zero_or_pos contents.length with hzero | hpos
    · exact Or.inl (List.length_eq_zero_iff.mp hzero)
    · exact Or.inr ⟨hpre.eq_of_length (by omega), by omega⟩
  · rintro (rfl | ⟨rfl, hlost⟩)
    · rw [List.prefix_nil.mp hpre, List.take_nil]
    · rw [hlost, Nat.sub_zero, List.take_length]

theorem copied_iff : Copied ops start input dest contents ↔
    CopyWorks ops start input dest contents := by
  rw [CopyWorks]
  cases hopen : if ops.opens then start.openWrite [] (pathOf dest) else none with
  | none =>
      rw [copied_iff_of_not_opened hlookup hfile hopen, if_neg]
      rintro ⟨hopens, hsome⟩
      rw [if_pos hopens] at hopen
      rw [hopen] at hsome
      cases hsome
  | some result =>
      obtain ⟨opened, i⟩ := result
      have hcan := hopen
      split_ifs at hcan with hopens
      have hopened := openWrite_opened hcan
      rw [if_pos ⟨hopens, by rw [hcan]; rfl⟩, hlookup]
      rcases eq_or_ne i src with rfl | hne
      · rw [copied_iff_of_same hlookup hfile hopened hopen,
          (hopened.same_iff i contents hfile).mpr rfl]
        simp
      · have hother : start.lookup (pathOf dest) ≠ some (.node src) := fun hsame =>
          hne ((hopened.same_iff src contents hfile).mp hsame).symm
        rw [copied_iff_of_other hlookup hfile hopened hne hopen]
        simp [hother]

end CopyFile

/-! ### `cli_upload_file` -/

def uploadPath (input : List UInt8) : List UInt8 := uploadDir ++ [47] ++ baseName input

theorem newPath_inputPath (stdin : List UInt8) :
    newPath (inputPath stdin) = uploadPath (inputPath stdin) := by
  have hname := (List.rtakeWhile_suffix (· ≠ 47) (inputPath stdin)).length_le
  have hinput : (inputPath stdin).length ≤ filenameSize - 1 :=
    (List.takeWhile_prefix _).length_le.trans (List.length_take_le _ _)
  apply snprintf_eq_self
  rw [List.length_append, List.length_append, baseName]
  have hsize : filenameSize - 1 = 511 := rfl
  have hslash : ([47] : List UInt8).length = 1 := rfl
  omega

theorem ensureUploadDir_keeps {start : FileSystem} (h : ensureUploadDir ops files = some start) :
    Extends files start ∧ KeepsFiles files start := by
  rw [ensureUploadDir] at h
  split at h
  · obtain rfl := Option.some.inj h
    exact ⟨.refl files, fun _ _ hfile => hfile⟩
  · split_ifs at h
    exact makeDir_keeps h

variable {sha256 : List UInt8 → HashID} {stdin : List UInt8} {step : CopyStep}

theorem cliUploadFile_eq_some (h : cliUploadFile sha256 ops files stdin = some step) :
    files.read (pathOf (inputPath stdin)) = some step.hashed ∧
      ensureUploadDir ops files = some step.start ∧
      step.done = copyFile ops step.start (inputPath stdin) (uploadPath (inputPath stdin)) := by
  rw [cliUploadFile] at h
  split_ifs at h
  dsimp only at h
  split at h
  · cases h
  · next contents hread =>
      split at h
      · cases h
      · split at h
        · cases h
        · next start hstart =>
            obtain rfl := Option.some.inj h
            refine ⟨hread, hstart, ?_⟩
            rw [newPath_inputPath]

/-- The input is as it was, and what `create_magnet` hashed is in the upload directory. -/
def UploadCopied (files : FileSystem) (input : List UInt8) (step : CopyStep) : Prop :=
  ∃ ret after, step.done = some (ret, after) ∧
    after.read (pathOf input) = files.read (pathOf input) ∧
    after.read (pathOf (uploadPath input)) = some step.hashed

theorem uploadCopied_iff (h : cliUploadFile sha256 ops files stdin = some step) :
    UploadCopied files (inputPath stdin) step ↔
      CopyWorks ops step.start (inputPath stdin) (uploadPath (inputPath stdin)) step.hashed := by
  obtain ⟨hread, hstart, hdone⟩ := cliUploadFile_eq_some h
  obtain ⟨hgrows, hkeeps⟩ := ensureUploadDir_keeps hstart
  obtain ⟨src, hlookup, hfile⟩ := read_eq_some_iff.mp hread
  rw [UploadCopied, hread, hdone]
  exact copied_iff (lookup_extends hgrows (.node src) hlookup) (hkeeps src _ hfile)

/-! ### A file in the upload directory -/

/-- The current directory has the file `upload/a` with the bytes 104 and 105. -/
def uploadedFiles : FileSystem where
  nodes i :=
    match i with
    | 0 => some (.dir 0 fun name => if name = ascii "upload" then some 1 else none)
    | 1 => some (.dir 0 fun name => if name = ascii "a" then some 2 else none)
    | 2 => some (.file [104, 105])
    | _ => none
  root := 0
  cwd := 0
  next := 3
  fresh i hi := by
    obtain ⟨k, rfl⟩ := Nat.exists_eq_add_of_le' hi
    rfl

def uploadAgain : Option CopyStep :=
  cliUploadFile (fun _ => List.Vector.replicate 32 0) .ordinary uploadedFiles (ascii "upload/a\n")

theorem uploadCopied_iff_uploadAgain :
    ∃ step, uploadAgain = some step ∧
      (UploadCopied uploadedFiles (inputPath (ascii "upload/a\n")) step ↔
        CopyWorks .ordinary step.start (inputPath (ascii "upload/a\n"))
          (uploadPath (inputPath (ascii "upload/a\n"))) step.hashed) := by
  obtain ⟨step, hstep⟩ := Option.isSome_iff_exists.mp (show uploadAgain.isSome = true by decide)
  exact ⟨step, hstep, uploadCopied_iff hstep⟩

theorem read_uploadAgain :
    uploadAgain.bind (fun step => step.done.bind fun done =>
      done.2.read (pathOf (inputPath (ascii "upload/a\n")))) = some [] := by
  decide

theorem not_uploadCopied_uploadAgain :
    ∃ step, uploadAgain = some step ∧
      ¬ UploadCopied uploadedFiles (inputPath (ascii "upload/a\n")) step := by
  obtain ⟨step, hstep, hdone⟩ := Option.bind_eq_some_iff.mp read_uploadAgain
  refine ⟨step, hstep, ?_⟩
  rintro ⟨ret, after, hafter, hkept, -⟩
  rw [hafter, Option.bind_some, hkept] at hdone
  exact absurd hdone (by decide)

end Kademlia.Upload
