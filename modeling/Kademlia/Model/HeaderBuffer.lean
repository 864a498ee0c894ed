import Kademlia.Model.Transfer

/-!
The arrays that `download_http_file` and `upload_http_file` receive a header in.

Each has `HTTP_HEADER_SIZE` elements, with the rest of the stack behind them. It is
filled by `recv_until` and searched as a string, so here the two functions are
given with every element that they use. Of the C library, how far `strstr` reads is a
parameter; `sscanf` and `log_msg` read a string to its end.
-/

namespace Kademlia.Model

open Foundations CString Traced

inductive HeaderArray
  /-- of `download_http_file` -/
  | httpHeader
  /-- of `upload_http_file` -/
  | respHeader
  deriving DecidableEq, Repr

variable {ι : Type} (array : ι)

/-! ### `recv_until` -/

/-- The comparison of the bytes from index `i` on with the pattern. -/
def tracedMatch (stored : List UInt8) : ℕ → List UInt8 → Traced ι Bool
  | _, [] => pure true
  | i, p :: pattern => do
      touch array i
      if stored[i]? = some p then tracedMatch stored (i + 1) pattern else pure false

/-- Whether the last bytes stored are the pattern. -/
def tracedMatchLast (pattern stored : List UInt8) : Traced ι Bool :=
  if pattern.length ≤ stored.length then
    tracedMatch array stored (stored.length - pattern.length) pattern
  else pure false

def tracedScanUntil (len : ℕ) (pattern : List UInt8) :
    List UInt8 → List UInt8 → Traced ι (List UInt8 × List UInt8 × Bool)
  | stored, [] => pure (stored, [], false)
  | stored, b :: bs =>
      if stored.length < len then do
        touch array stored.length
        let last ← tracedMatchLast array pattern (stored ++ [b])
        if last then pure (stored ++ [b], bs, true)
        else tracedScanUntil len pattern (stored ++ [b]) bs
      else pure (stored, b :: bs, true)

def tracedRecvUntilLoop (len : ℕ) (pattern : List UInt8) :
    List UInt8 → Conn → Traced ι RecvAll
  | stored, [] => pure ⟨stored.length, stored, []⟩
  | stored, event :: conn =>
      if stored.length < len then
        match event with
        | .interrupt => tracedRecvUntilLoop len pattern stored conn
        | .failure => pure ⟨-1, stored, conn⟩
        | .chunk b bs => do
            let scanned ← tracedScanUntil array len pattern stored (b :: bs)
            match scanned with
            | (stored, left, true) => pure ⟨stored.length, stored, Source.unread left conn⟩
            | (stored, _, false) => tracedRecvUntilLoop len pattern stored conn
      else pure ⟨stored.length, stored, event :: conn⟩

def tracedRecvUntil (conn : Conn) (len : ℕ) (pattern : List UInt8) : Traced ι RecvAll :=
  tracedRecvUntilLoop array len pattern [] conn

/-! ### String functions -/

/-- The end `s` of the string in `m` is read, with its terminator. -/
def readString (m : Memory) (s : List UInt8) : Traced ι PUnit :=
  touchRange array (m.cString.length - s.length) (s.length + 1)

/-- `reads` is the number of elements that are read. -/
def tracedStrstr (reads : Memory → List UInt8 → ℕ) (m : Memory) (needle : List UInt8) :
    Traced ι (Option (List UInt8)) := do
  touchRange array 0 (reads m needle)
  pure (strstr m.cString needle)

/-- The inner loop of `strcasestr_portable`, which reads `*h` in front of `*n`. -/
def tracedStartsWithCase (m : Memory) : ℕ → ℕ → List UInt8 → Traced ι Bool
  | 0, _, needle => pure needle.isEmpty
  | _ + 1, i, [] => do
      touch array i
      pure true
  | limit + 1, i, n :: needle => do
      touch array i
      if m i ≠ 0 ∧ toLower (m i) = toLower n then tracedStartsWithCase m limit (i + 1) needle
      else pure false

def tracedStrcasestrLoop (m : Memory) (needle : List UInt8) :
    ℕ → ℕ → Traced ι (Option (List UInt8))
  | 0, _ => pure none
  | limit + 1, i => do
      touch array i
      if m i = 0 then pure none
      else
        let starts ← tracedStartsWithCase array m (limit + 1) i needle
        if starts then pure (some (m.cStringAt (limit + 1) i))
        else tracedStrcasestrLoop m needle limit (i + 1)

def tracedStrcasestrPortable (m : Memory) (needle : List UInt8) :
    Traced ι (Option (List UInt8)) :=
  if needle.isEmpty then pure (some m.cString)
  else tracedStrcasestrLoop array m needle (2 ^ 64) 0

/-! ### The two functions -/

/-- `http_header`, which is cleared. -/
def clearedHeader (stack : Memory) : Memory := fun i => if i < httpHeaderSize then 0 else stack i

/-- `download_http_file` from the first search on. -/
def searchHttpHeader (reads : Memory → List UInt8 → ℕ) (httpHeader : Memory) (received : RecvAll)
    (session : HttpSession) (disk : Disk) (file : FileMagnet) :
    Traced HeaderArray GetResult := do
  let found ← tracedStrstr .httpHeader reads httpHeader (ascii "404 Not Found")
  if found.isSome then pure ⟨-1, disk, true⟩
  else do
    touch .httpHeader received.ret
    let httpHeader := httpHeader.write received.ret.toNat [0]
    let found ← tracedStrcasestrPortable .httpHeader httpHeader contentLengthName
    match found with
    | none => pure ⟨-1, disk, true⟩
    | some field => do
        -- `sscanf`
        readString .httpHeader httpHeader field
        let contentLength := (scanContentLength field).getD 0
        if session.ops.dirReady = false then pure ⟨-1, disk, true⟩
        else if session.ops.opens = false then pure ⟨-1, disk, true⟩
        else
          pure (session.saved disk file (receiveBody false contentLength [] session.ops.writes
            session.ops.again received.rest))

def tracedDownloadHttpFile (reads : Memory → List UInt8 → ℕ) (stack : Memory)
    (session : HttpSession) (disk : Disk) (file : FileMagnet) : Traced HeaderArray GetResult :=
  if session.connected = false then pure ⟨-1, disk, true⟩
  else if session.headerSent = false then pure ⟨-1, disk, true⟩
  else do
    let received ← tracedRecvUntil .httpHeader session.reply httpHeaderSize httpPattern
    if received.ret ≤ 0 then pure ⟨-1, disk, true⟩
    else
      searchHttpHeader reads ((clearedHeader stack).write 0 received.stored) received session
        disk file

/-- `upload_http_file` from the terminator on. -/
def searchRespHeader (respHeader : Memory) (received : RecvAll) :
    Traced HeaderArray PutResult := do
  touch .respHeader received.ret
  let respHeader := respHeader.write received.ret.toNat [0]
  -- `log_msg`, and `sscanf` for the status
  readString .respHeader respHeader respHeader.cString
  readString .respHeader respHeader respHeader.cString
  let found ← tracedStrcasestrPortable .respHeader respHeader contentLengthName
  match found with
  | none => pure ⟨0, parseStatus respHeader.cString⟩
  | some field => do
      -- `sscanf` for the length
      readString .respHeader respHeader field
      pure ⟨0, parseStatus respHeader.cString⟩

/-- `upload_http_file`, whose array is not cleared. -/
def tracedUploadHttpFile (stack : Memory) (session : HttpSession) (contents : List UInt8) :
    Traced HeaderArray PutResult :=
  if contents.isEmpty then pure ⟨-1, none⟩
  else if session.connected = false then pure ⟨-1, none⟩
  else if session.headerSent = false then pure ⟨-1, none⟩
  else if session.bodySent = false then pure ⟨-1, none⟩
  else do
    let received ← tracedRecvUntil .respHeader session.reply httpHeaderSize httpPattern
    if received.ret ≤ 0 then pure ⟨-1, none⟩
    else searchRespHeader (stack.write 0 received.stored) received

end Kademlia.Model
