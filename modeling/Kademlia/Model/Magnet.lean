import Kademlia.Foundations.Hex
import Kademlia.Model.Transfer

/-!
`magnet.c`: magnets as URIs.

A URI is a C string, and the program stays in the "C" locale, so the regular
expressions match bytes. Each is the definition that finds what its group
matches: leftmost, and then as long as it can be. `exact_length` keeps what
`malloc` left there unless it is stored to.
-/

namespace Kademlia.Model

open Foundations CString

def magnetBase : List UInt8 := ascii "magnet:?xt=urn:sha256:"

/-- `strncat(uri, text, uri_size - strlen(uri) - 1)` -/
def strncat (uriSize : ℕ) (uri text : List UInt8) : List UInt8 :=
  uri ++ text.take (uriSize - uri.length - 1)

def saveMagnetToUri (magnet : FileMagnet) : List UInt8 :=
  let fileSize := if magnet.exactLength > 0 then decimal magnet.exactLength else []
  let uriSize := magnetBase.length + 32 * 2 + 1
  let uriSize :=
    if magnet.exactLength > 0 then uriSize + (fileSize.length + 4) else uriSize
  let uriSize :=
    match magnet.displayName with
    | none => uriSize
    | some name => uriSize + (name.length + 4)
  let uri := strncat uriSize [] magnetBase
  let uri := strncat uriSize uri (magnet.fileHash.toList.flatMap hexByte)
  let uri :=
    match magnet.displayName with
    | none => uri
    | some name => strncat uriSize (strncat uriSize uri (ascii "&dn=")) name
  if magnet.exactLength > 0 then
    strncat uriSize (strncat uriSize uri (ascii "&xl=")) fileSize
  else uri

/-- The second group of `^(magnet:\?xt=urn:sha256:)([A-Fa-f0-9]{64})`. -/
def matchHash (contents : List UInt8) : Option (List UInt8) :=
  let hash := (contents.drop magnetBase.length).take 64
  if magnetBase.isPrefixOf contents ∧ hash.length = 64 ∧ hash.all isHexDigit then some hash
  else none

/-- The group of `&dn=([^&]*)` or `&xl=([^&]*)`. -/
def matchParameter (key contents : List UInt8) : Option (List UInt8) :=
  (strstr contents key).map fun found => (found.drop key.length).takeWhile (· ≠ 38)

/-- `atoi`, which is `strtol` cut down to an `int`. -/
def atoi (s : List UInt8) : ℤ := (scanSigned (2 ^ 63) s).elim 0 fun read => longToInt read.1

/-- `memory` is what `malloc` leaves in `exact_length`. Where more is copied to
`file_size` than there is room for, the result is `none`. -/
def parseMagnetFromUri (memory : ℕ) (contents : List UInt8) (len : ℕ) :
    Option (Option FileMagnet) :=
  if len < 1 then some none
  else
    match matchHash contents with
    | none => some none
    | some hash =>
        let fileHash := List.Vector.ofFn fun i : Fin 32 => scanHexByte (hash.drop (2 * i))
        let displayName := matchParameter (ascii "&dn=") contents
        match matchParameter (ascii "&xl=") contents with
        | none => some (some ⟨fileHash, displayName, memory⟩)
        | some fileSize =>
            -- 32 bytes, and the string has to end in them
            if 32 ≤ fileSize.length then none
            else some (some ⟨fileHash, displayName, toSizeT (atoi fileSize)⟩)

end Kademlia.Model
