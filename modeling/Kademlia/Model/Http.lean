import Kademlia.Foundations.CString
import Kademlia.Foundations.Paths
import Kademlia.Model.Sockets

/-!
The server side of `http.c`, and `get_http_request` of `network.c`.

A request is parsed as a C string that starts at index 0 of the shared buffer,
so the string goes on behind the bytes received for as long as there is no NUL.
Files are kept by the place that the path given to `fopen` leads to. The operations
on them may fail, and `FileOps` says which do.
-/

namespace Kademlia.Model

open Foundations CString

def bufSize : ℕ := 16384

def chunkSize : ℕ := 4096

def httpHeaderSize : ℕ := 8192

def uploadDir : List UInt8 := ascii "./upload"

def httpPattern : List UInt8 := [13, 10, 13, 10]

/-! ### Strings in memory -/

/-- The string at index `i`, of which at most `limit` bytes are looked at. -/
def Memory.cStringAt (m : Memory) : ℕ → ℕ → List UInt8
  | 0, _ => []
  | limit + 1, i => if m i = 0 then [] else m i :: m.cStringAt limit (i + 1)

def Memory.cString (m : Memory) : List UInt8 := m.cStringAt (2 ^ 64) 0

/-- The comparison of `strcasestr_portable` at one position. -/
def startsWithCase : List UInt8 → List UInt8 → Bool
  | _, [] => true
  | [], _ :: _ => false
  | h :: hs, n :: ns => toLower h = toLower n && startsWithCase hs ns

def strcasestrPortable (haystack needle : List UInt8) : Option (List UInt8) :=
  if needle.isEmpty then some haystack
  else findFirst (fun h => startsWithCase h needle) haystack

def contentLengthName : List UInt8 := ascii "Content-Length:"

/-- `sscanf(field, "Content-Length: %zu", &content_length)` -/
def scanContentLength (field : List UInt8) : Option ℕ :=
  if contentLengthName.isPrefixOf field then
    scanUnsigned (2 ^ 64) (skipSpace (field.drop contentLengthName.length))
  else none

/-! ### Files -/

/-- Where the system finds `path` when the program runs in `cwd`; there are no links. -/
def place (cwd : List (List UInt8)) (path : List UInt8) : List (List UInt8) :=
  Paths.resolve 47 46 cwd path

/-- The working directory, and the contents of the regular files by their places. -/
structure Disk where
  cwd : List (List UInt8)
  files : List (List UInt8) → Option (List UInt8)

namespace Disk

def empty : Disk := ⟨[], fun _ => none⟩

def read (disk : Disk) (path : List UInt8) : Option (List UInt8) :=
  disk.files (place disk.cwd path)

instance : CoeFun Disk fun _ => List UInt8 → Option (List UInt8) := ⟨read⟩

def store (disk : Disk) (path content : List UInt8) : Disk :=
  { disk with files := Function.update disk.files (place disk.cwd path) (some content) }

theorem store_read (disk : Disk) (path path' content : List UInt8) :
    disk.store path content path' =
      if place disk.cwd path' = place disk.cwd path then some content else disk path' := by
  simp [read, store, Function.update_apply]

@[simp] theorem store_self (disk : Disk) (path content : List UInt8) :
    disk.store path content path = some content := by
  rw [store_read, if_pos rfl]

end Disk

/-- What the operating system makes of the file operations of a transfer that comes to
its end. -/
structure FileOps where
  /-- the directory is there or `mkdir` makes it -/
  dirReady : Bool
  /-- `fopen` can open the file -/
  opens : Bool
  /-- the result of `ftell` at the end of the file, if it is not the size -/
  tell : Option ℤ
  /-- where `fread` stops, if it does before the end of the file -/
  readable : Option ℕ
  /-- how much the next calls of `fwrite` store, if it is not everything -/
  writes : List (Option ℕ)
  /-- whether `errno` is `EAGAIN` or `EWOULDBLOCK` at the next failures of `recv_all`; it is
  another error at a later one, since the transfer comes to its end -/
  again : List Bool
  /-- how many bytes of an uploaded file `fclose` cannot write any more -/
  lost : ℕ

def FileOps.ordinary : FileOps := ⟨true, true, none, none, [], [], 0⟩

/-- What is in an uploaded file of what was written to it. -/
def FileOps.flushed (ops : FileOps) (written : List UInt8) : List UInt8 :=
  written.take (written.length - ops.lost)

/-- The bytes stored, and whether these are all of `bytes`. -/
def fwrite (writes : List (Option ℕ)) (bytes : List UInt8) : List UInt8 × Bool :=
  match writes with
  | some count :: _ => (bytes.take count, bytes.length ≤ count)
  | _ => (bytes, true)

/-- Why a transfer loop is over. -/
inductive Stop
  /-- `content_length` is 0 -/
  | complete
  /-- `recv_all` returned 0 -/
  | ended
  /-- `recv_all` returned a negative number -/
  | failed
  /-- `fwrite` did not store everything -/
  | writeError
  deriving DecidableEq, Repr

/-- The bytes in the file after a transfer loop, the number still expected, and
the rest of the connection. -/
structure Received where
  written : List UInt8
  remaining : ℕ
  stop : Stop
  rest : Conn

/-- The loop that `receive_http_file` and `download_http_file` have in common;
only the former checks what `fwrite` returns. Each round lowers
`content_length` or uses up a value of `errno`, so `fuel` need not be more than
both together. -/
def receiveLoop (checked : Bool) :
    ℕ → ℕ → List UInt8 → List (Option ℕ) → List Bool → Conn → Received
  | 0, contentLength, written, _, _, conn => ⟨written, contentLength, .complete, conn⟩
  | fuel + 1, contentLength, written, writes, again, conn =>
      if contentLength = 0 then ⟨written, 0, .complete, conn⟩
      else
        let got := recvAll conn (min contentLength chunkSize)
        if got.ret < 0 then
          match again with
          | true :: again =>
              receiveLoop checked fuel contentLength written writes again got.rest
          | _ => ⟨written, contentLength, .failed, got.rest⟩
        else if got.ret = 0 then ⟨written, contentLength, .ended, got.rest⟩
        else
          -- `n` is the result of the last `read` of `recv_all`
          let n := got.ret.toNat
          let stored := fwrite writes (got.stored.take n)
          if checked ∧ stored.2 = false then
            ⟨written ++ stored.1, contentLength, .writeError, got.rest⟩
          else
            receiveLoop checked fuel (contentLength - n) (written ++ stored.1) writes.tail
              again got.rest

def receiveBody (checked : Bool) (contentLength : ℕ) (written : List UInt8)
    (writes : List (Option ℕ)) (again : List Bool) (conn : Conn) : Received :=
  receiveLoop checked (contentLength + again.length) contentLength written writes again conn

/-! ### Responses -/

def notFound : List UInt8 :=
  ascii "HTTP/1.1 404 Not Found\r\n" ++ ascii "Content-Type: text/plain\r\n" ++
    ascii "Content-Length: 13\r\n" ++ ascii "\r\n" ++ ascii "404 Not Found"

def methodNotAllowed : List UInt8 :=
  ascii "HTTP/1.1 405 Method Not Allowed\r\n" ++ ascii "Content-Type: text/plain\r\n" ++
    ascii "Content-Length: 23\r\n" ++ ascii "Allow: GET, PUT\r\n" ++ ascii "\r\n" ++
    ascii "405 Method Not Allowed"

def fileCreated : List UInt8 :=
  ascii "HTTP/1.1 201 Created\r\n" ++ ascii "Content-Type: text/plain\r\n" ++
    ascii "Content-Length: 24\r\n" ++ ascii "Connection: close\r\n" ++ ascii "\r\n" ++
    ascii "File uploaded successfully"

def internalServerError : List UInt8 :=
  ascii "HTTP/1.1 500 Internal Server Error\r\n" ++ ascii "Content-Type: text/plain\r\n" ++
    ascii "Content-Length: 21\r\n" ++ ascii "Connection: close\r\n" ++ ascii "\r\n" ++
    ascii "Internal Server Error"

def badRequest : List UInt8 :=
  ascii "HTTP/1.1 400 Bad Request\r\n" ++ ascii "Content-Type: text/plain\r\n" ++
    ascii "Content-Length: 12\r\n" ++ ascii "Connection: close\r\n" ++ ascii "\r\n" ++
    ascii "Bad Request"

/-! ### The server -/

/-- What was sent back, the path of the file that was opened, the files and the
connection after a request. -/
structure HttpServed where
  sent : List UInt8
  opened : Option (List UInt8)
  disk : Disk
  rest : Conn

/-- `%ld` -/
def signedDecimal (z : ℤ) : List UInt8 :=
  if z < 0 then 45 :: decimal z.natAbs else decimal z.natAbs

/-- The path of `filename` in the directory `dir`, in an array of 512 bytes. -/
def pathIn (dir filename : List UInt8) : List UInt8 := snprintf 512 (dir ++ [47] ++ filename)

def okHeader (size : ℤ) : List UInt8 :=
  snprintf 512 (ascii "HTTP/1.1 200 OK\r\n" ++
    ascii "Content-Type: application/octet-stream\r\n" ++ ascii "Content-Length: " ++
    signedDecimal size ++ ascii "\r\n" ++ ascii "Connection: close\r\n" ++ ascii "\r\n")

def sendHttpFile (ops : FileOps) (disk : Disk) (filename : List UInt8) (conn : Conn) :
    HttpServed :=
  let fullPath := pathIn uploadDir filename
  match (if ops.opens then disk fullPath else none) with
  | none => ⟨notFound, none, disk, conn⟩
  | some content =>
      ⟨okHeader (ops.tell.getD content.length) ++ content.take (ops.readable.getD content.length),
        some fullPath, disk, conn⟩

/-- The body bytes that are in the buffer already: those from behind the
terminator up to `header_len`. -/
def bodyInBuffer (contents : Memory) (headerLen : ℕ) : List UInt8 :=
  match strstr contents.cString httpPattern with
  | none => []
  | some found =>
      let start := contents.cString.length - found.length + httpPattern.length
      (contents.bytes start (headerLen - start)).toList

def receiveHttpFile (ops : FileOps) (disk : Disk) (filename : List UInt8) (headers : Memory)
    (headerLen : ℕ) (conn : Conn) : HttpServed :=
  let fullPath := pathIn uploadDir filename
  if ops.dirReady = false then ⟨internalServerError, none, disk, conn⟩
  else
    match strcasestrPortable headers.cString contentLengthName with
    -- "Missing Content-Length in PUT request"
    | none => ⟨badRequest, none, disk, conn⟩
    | some field =>
        match scanContentLength field with
        -- "Invalid Content-Length in PUT request"
        | none => ⟨badRequest, none, disk, conn⟩
        | some contentLength =>
            if ops.opens = false then ⟨internalServerError, none, disk, conn⟩
            else
              let initial := (bodyInBuffer headers headerLen).take contentLength
              let first := fwrite ops.writes initial
              let received :=
                if initial.isEmpty then
                  receiveBody true contentLength [] ops.writes ops.again conn
                else if first.2 = false then ⟨first.1, contentLength, .writeError, conn⟩
                else receiveBody true (contentLength - initial.length) first.1 ops.writes.tail
                  ops.again conn
              ⟨if received.stop = .complete ∨ received.stop = .ended then fileCreated
                else internalServerError,
                some fullPath,
                -- nobody looks at what `fclose` returns
                disk.store fullPath (ops.flushed received.written),
                received.rest⟩

/-- `path`, after `sscanf(contents, "GET %255s", path)` or the same with `PUT`. -/
def requestPath (contents : Memory) : List UInt8 := scanWord 255 (contents.cString.drop 4)

/-- `file_path`, which is `path` without its first character. -/
def filePath (contents : Memory) : List UInt8 := (requestPath contents).tail

def handleHttpRequest (ops : FileOps) (disk : Disk) (contents : Memory) (length : ℕ)
    (conn : Conn) : HttpServed :=
  if (contents.bytes 0 4).toList = ascii "GET " then
    if filePath contents = [] then ⟨notFound, none, disk, conn⟩
    else sendHttpFile ops disk (filePath contents) conn
  else if (contents.bytes 0 4).toList = ascii "PUT " then
    if filePath contents = [] then ⟨notFound, none, disk, conn⟩
    else receiveHttpFile ops disk (filePath contents) contents length conn
  else ⟨methodNotAllowed, none, disk, conn⟩

/-- `get_http_request`, and the shared buffer after it. -/
def getHttpRequest (ops : FileOps) (disk : Disk) (buf : Memory) (conn : Conn) :
    HttpServed × Memory :=
  let received := recvUntil conn bufSize httpPattern
  let buf := buf.write 0 received.stored
  if received.ret < 0 then (⟨[], none, disk, received.rest⟩, buf)
  else (handleHttpRequest ops disk buf received.ret.toNat received.rest, buf)

/-! ### The string in a written buffer -/

theorem Memory.cStringAt_congr {m m' : Memory} {i : ℕ} (h : ∀ j, i ≤ j → m j = m' j)
    (limit : ℕ) : m.cStringAt limit i = m'.cStringAt limit i := by
  induction limit generalizing i with
  | zero => rfl
  | succ limit ih =>
      rw [cStringAt, cStringAt, h i le_rfl, ih fun j hj => h j (by omega)]

theorem Memory.cStringAt_write (m : Memory) (bytes : List UInt8) (i limit : ℕ) :
    (m.write i bytes).cStringAt (bytes.length + limit) i =
      if 0 ∈ bytes then bytes.takeWhile (· ≠ 0)
      else bytes ++ m.cStringAt limit (i + bytes.length) := by
  induction bytes generalizing i m with
  | nil =>
      have hsame : m.write i [] = m := by
        ext1 j
        simp [write]
      simp [hsame]
  | cons b bytes ih =>
      have hsplit : m.write i (b :: bytes) = (m.write i [b]).write (i + 1) bytes :=
        (m.write_write i [b] bytes).symm
      have hfirst : m.write i (b :: bytes) i = b := by simp [write]
      have hrest : ∀ j, i + 1 + bytes.length ≤ j → m.write i [b] j = m j := by
        intro j hj
        have hnone : [b][j - i]? = none := List.getElem?_eq_none (by simp; omega)
        simp [write, hnone]
      have hlimit : (b :: bytes).length + limit = bytes.length + limit + 1 := by
        rw [List.length_cons]
        omega
      rw [hlimit, cStringAt, hfirst, hsplit, ih, Memory.cStringAt_congr hrest]
      by_cases hb : b = 0
      · simp [hb]
      · have hlen : i + 1 + bytes.length = i + (b :: bytes).length := by
          rw [List.length_cons]
          omega
        by_cases hmem : 0 ∈ bytes
        · simp [hb, hmem]
        · simp [hb, hmem, Ne.symm hb, hlen]

/-- Behind bytes without NUL the string goes on with what was there before. -/
theorem Memory.cString_write (m : Memory) {bytes : List UInt8} (h : 0 ∉ bytes)
    (hlen : bytes.length ≤ 2 ^ 64) :
    (m.write 0 bytes).cString =
      bytes ++ m.cStringAt (2 ^ 64 - bytes.length) bytes.length := by
  have hwrite := m.cStringAt_write bytes 0 (2 ^ 64 - bytes.length)
  rw [Nat.add_sub_cancel' hlen, if_neg h, Nat.zero_add] at hwrite
  exact hwrite

theorem Memory.cString_write_of_mem (m : Memory) {bytes : List UInt8} (h : 0 ∈ bytes)
    (hlen : bytes.length ≤ 2 ^ 64) :
    (m.write 0 bytes).cString = bytes.takeWhile (· ≠ 0) := by
  have hwrite := m.cStringAt_write bytes 0 (2 ^ 64 - bytes.length)
  rw [Nat.add_sub_cancel' hlen, if_pos h] at hwrite
  exact hwrite

end Kademlia.Model
