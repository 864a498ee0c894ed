import Kademlia.Model.Copy
import Kademlia.Model.Magnet

/-!
`main.c`: the file that `cli_upload_file` writes the magnet to when the upload is
done, and `cli_download_file`, which reads one.

The contents are read into a buffer of their size and parsed as a string, so
what is behind the buffer is a parameter. Allocations succeed.
-/

namespace Kademlia.Model

open Foundations FileTree CString

/-- Whether the file can be opened, and how many bytes of the text get into it. -/
structure MagnetFileOps where
  opens : Bool
  takes : ℕ

def magnetFilename (magnet : FileMagnet) : List UInt8 :=
  snprintf 512 (uploadDir ++ [47] ++ magnet.nameText ++ ascii ".torrent")

/-- What `cli_upload_file` does after `upload_file` returned 0; `none` if the file cannot be
opened. -/
def saveMagnetFile (ops : MagnetFileOps) (files : FileSystem) (magnet : FileMagnet) :
    Option FileSystem :=
  match if ops.opens then files.openWrite [] (pathOf (magnetFilename magnet)) else none with
  | none => none
  | some (files, file) => some (files.write file ((saveMagnetToUri magnet).take ops.takes))

/-- What `cli_download_file` passes to `download_file`, which is `none` if it does not call it.
The result is `none` where the parser leaves its array. `behind` is what follows the buffer, and
`memory` what `malloc` leaves in the magnet. -/
def cliDownloadFile (files : FileSystem) (stdin behind : List UInt8) (memory : ℕ) :
    Option (Option FileMagnet) :=
  if stdin.isEmpty then some none
  else
    match files.read (pathOf (inputPath stdin)) with
    -- "File does not exist", "Can't open directory as file"
    | none => some none
    | some contents =>
        parseMagnetFromUri memory ((contents ++ behind).takeWhile (· ≠ 0)) contents.length

end Kademlia.Model
