import Kademlia.Foundations.FileTree
import Kademlia.Model.Transfer

/-!
`main.c`: `cli_upload_file` up to the copy that it makes of the file.

The file system has regular files, directories and symbolic links. Files are
read to their end without errors; what else the system decides is in `CopyOps`.
The size and the contents that are read before the magnet is made are not used,
so they are left out, like the messages.
-/

namespace Kademlia.Model

open Foundations FileTree CString

def filenameSize : ℕ := 512

abbrev FileSystem := Tree (List UInt8) (List UInt8)

/-- A path as the kernel takes it apart. -/
def pathOf (path : List UInt8) : Path (List UInt8) where
  absolute := path.head? = some 47
  steps := (path.splitOn 47).map fun name =>
    if name = [] ∨ name = [46] then .stay else if name = [46, 46] then .up else .name name

/-- What the system makes of the calls. -/
structure CopyOps where
  /-- `mkdir` is permitted -/
  mkdirs : Bool
  /-- the destination may be written to, or made -/
  opens : Bool
  /-- how much the calls of `fwrite` take, one after the other -/
  takes : ℕ → ℕ
  /-- how much of that `fclose` cannot write any more -/
  lost : ℕ

def CopyOps.ordinary : CopyOps := ⟨true, true, fun _ => bufSize, 0⟩

/-- The loop of `copy_file`, with `blocks` copied and `read` bytes read before. It is over when
`fread` gets nothing, and `none` if that is not so after `fuel` blocks. -/
def copyLoop (ops : CopyOps) (src dest : ℕ) :
    ℕ → ℕ → ℕ → FileSystem → Option (ℤ × FileSystem)
  | 0, _, _, _ => none
  | fuel + 1, blocks, read, files =>
      -- the source is read as it is by now
      let buffer := (((files.fileAt src).getD []).drop read).take bufSize
      if buffer = [] then some (0, files)
      else
        let taken := buffer.take (ops.takes blocks)
        let files := files.write dest ((files.fileAt dest).getD [] ++ taken)
        if taken.length ≠ buffer.length then some (-1, files)
        else copyLoop ops src dest fuel (blocks + 1) (read + buffer.length) files

def closeDest (ops : CopyOps) (dest : ℕ) (files : FileSystem) : FileSystem :=
  let contents := (files.fileAt dest).getD []
  files.write dest (contents.take (contents.length - ops.lost))

/-- The return value of `copy_file` and the files after it. There is fuel for one block more than
the source has bytes; a directory can be opened, but nothing is read of it. -/
def copyFile (ops : CopyOps) (files : FileSystem) (srcPath destPath : List UInt8) :
    Option (ℤ × FileSystem) :=
  match files.lookup (pathOf srcPath) with
  | some (.node src) =>
      let size := ((files.fileAt src).getD []).length
      match if ops.opens then files.openWrite [] (pathOf destPath) else none with
      | none => some (-1, files)
      | some (files, dest) =>
          (copyLoop ops src dest (size + 1) 0 0 files).map fun done =>
            (done.1, closeDest ops dest done.2)
  | _ => some (-1, files)

/-! ### `cli_upload_file` -/

/-- `input_path`, of a line of the standard input: `fgets` stores one byte less than it has room
for, and the string ends before the newline. -/
def inputPath (stdin : List UInt8) : List UInt8 :=
  (stdin.take (filenameSize - 1)).takeWhile fun b => b ≠ 10 ∧ b ≠ 0

def newPath (input : List UInt8) : List UInt8 :=
  snprintf (512 + (uploadDir.length + 1)) (uploadDir ++ [47] ++ baseName input)

/-- `access` and `mkdir` for the upload directory. -/
def ensureUploadDir (ops : CopyOps) (files : FileSystem) : Option FileSystem :=
  match files.lookup (pathOf uploadDir) with
  | some (.node _) => some files
  | _ => if ops.mkdirs then files.makeDir (pathOf uploadDir) else none

/-- The copy: what `create_magnet` has hashed, the files in front of the copy, and what came of
it. -/
structure CopyStep where
  hashed : List UInt8
  start : FileSystem
  done : Option (ℤ × FileSystem)

/-- `cli_upload_file`; `none` if it returns before it copies the file. -/
def cliUploadFile (sha256 : List UInt8 → HashID) (ops : CopyOps) (files : FileSystem)
    (stdin : List UInt8) : Option CopyStep :=
  if stdin.isEmpty then none
  else
    let input := inputPath stdin
    match files.read (pathOf input) with
    | none => none
    | some contents =>
        match createMagnet sha256 input (some contents) with
        | none => none
        | some _ =>
            match ensureUploadDir ops files with
            | none => none
            | some start => some ⟨contents, start, copyFile ops start input (newPath input)⟩

end Kademlia.Model
