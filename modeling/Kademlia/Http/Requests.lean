import Kademlia.Framing.RecvUntil
import Kademlia.Model.Http

/-!
What a request that was received is answered with.

`recv_until` stops right behind the terminator, so no part of the body is in the
buffer, and the answer is a function of the first four bytes of the buffer, of
the string in it and of the rest of the connection.
-/

namespace Kademlia.Http

open Foundations CString Model Framing

/-- The file name in the request that `s` is. -/
def pathOf (s : List UInt8) : List UInt8 := (scanWord 255 (s.drop 4)).tail

/-- The length that the field `Content-Length` of a request gives. -/
def lengthOf (s : List UInt8) : Option ℕ :=
  (strcasestrPortable s contentLengthName).bind scanContentLength

/-- `receive_http_file` with nothing of the body in the buffer. -/
def storeBody (ops : FileOps) (disk : Disk) (filename : List UInt8) (length : Option ℕ)
    (conn : Conn) : HttpServed :=
  if ops.dirReady = false then ⟨internalServerError, none, disk, conn⟩
  else
    match length with
    | none => ⟨badRequest, none, disk, conn⟩
    | some contentLength =>
        if ops.opens = false then ⟨internalServerError, none, disk, conn⟩
        else
          let received := receiveBody true contentLength [] ops.writes ops.again conn
          ⟨if received.stop = .complete ∨ received.stop = .ended then fileCreated
            else internalServerError,
            some (pathIn uploadDir filename),
            disk.store (pathIn uploadDir filename) (ops.flushed received.written),
            received.rest⟩

/-- The answer to a request that begins with the four bytes `method` and reads
as the string `s`. -/
def respond (ops : FileOps) (disk : Disk) (method s : List UInt8) (conn : Conn) : HttpServed :=
  if method = ascii "GET " then
    if pathOf s = [] then ⟨notFound, none, disk, conn⟩
    else sendHttpFile ops disk (pathOf s) conn
  else if method = ascii "PUT " then
    if pathOf s = [] then ⟨notFound, none, disk, conn⟩
    else storeBody ops disk (pathOf s) (lengthOf s) conn
  else ⟨methodNotAllowed, none, disk, conn⟩

section Respond

variable (ops : FileOps) (disk : Disk) (s : List UInt8) (conn : Conn)

theorem respond_of_get :
    respond ops disk (ascii "GET ") s conn =
      if pathOf s = [] then ⟨notFound, none, disk, conn⟩
      else sendHttpFile ops disk (pathOf s) conn := if_pos rfl

theorem respond_of_put :
    respond ops disk (ascii "PUT ") s conn =
      if pathOf s = [] then ⟨notFound, none, disk, conn⟩
      else storeBody ops disk (pathOf s) (lengthOf s) conn := by
  have hnotget : ascii "PUT " ≠ ascii "GET " := by decide
  rw [respond, if_neg hnotget, if_pos rfl]

theorem respond_other {method : List UInt8} (hget : method ≠ ascii "GET ")
    (hput : method ≠ ascii "PUT ") :
    respond ops disk method s conn = ⟨methodNotAllowed, none, disk, conn⟩ := by
  rw [respond, if_neg hget, if_neg hput]

end Respond

theorem pathIn_uploadDir {name : List UInt8} (h : name.length ≤ 254) :
    pathIn uploadDir name = uploadDir ++ [47] ++ name := by
  have hdir : (uploadDir ++ [47]).length = 9 := by decide
  apply snprintf_eq_self
  rw [List.length_append, hdir]
  omega

theorem pathIn_injective {name name' : List UInt8} (hname : name.length ≤ 254)
    (hname' : name'.length ≤ 254) (h : pathIn uploadDir name = pathIn uploadDir name') :
    name = name' := by
  rw [pathIn_uploadDir hname, pathIn_uploadDir hname'] at h
  exact List.append_cancel_left h

theorem receiveHttpFile_eq_storeBody {headers : Memory} {headerLen : ℕ}
    (h : bodyInBuffer headers headerLen = []) (ops : FileOps) (disk : Disk)
    (filename : List UInt8) (conn : Conn) :
    receiveHttpFile ops disk filename headers headerLen conn =
      storeBody ops disk filename (lengthOf headers.cString) conn := by
  unfold receiveHttpFile storeBody lengthOf
  simp only [h, List.take_nil, List.isEmpty_nil, if_true]
  cases strcasestrPortable headers.cString contentLengthName with
  | none => rfl
  | some field =>
      cases hlength : scanContentLength field with
      | none => simp only [Option.bind_some, hlength]
      | some contentLength => simp only [Option.bind_some, hlength]

theorem handleHttpRequest_eq_respond {contents : Memory} {length : ℕ}
    (h : bodyInBuffer contents length = []) (ops : FileOps) (disk : Disk) (conn : Conn) :
    handleHttpRequest ops disk contents length conn =
      respond ops disk (contents.bytes 0 4).toList contents.cString conn := by
  unfold handleHttpRequest respond
  rw [receiveHttpFile_eq_storeBody h]
  rfl

/-! ### A received request -/

theorem httpPattern_ne_nil : httpPattern ≠ [] := List.cons_ne_nil _ _

/-- As far as both go, the string in the buffer is what was written. -/
theorem take_cString_write (buf : Memory) {bytes : List UInt8} (hlen : bytes.length ≤ 2 ^ 64)
    {k : ℕ} (hk : k ≤ bytes.length) (hk' : k ≤ (buf.write 0 bytes).cString.length) :
    (buf.write 0 bytes).cString.take k = bytes.take k := by
  by_cases hnul : 0 ∈ bytes
  · rw [buf.cString_write_of_mem hnul hlen] at hk' ⊢
    rw [(List.prefix_iff_eq_take.mp (List.takeWhile_prefix _) : bytes.takeWhile _ = _),
      List.take_take, Nat.min_eq_left hk']
  · rw [buf.cString_write hnul hlen, List.take_append_of_le_length hk]

theorem bodyInBuffer_of_matchedLast {bytes : List UInt8} (h : MatchedLast httpPattern bytes)
    (hlen : bytes.length ≤ 2 ^ 64) (buf : Memory) :
    bodyInBuffer (buf.write 0 bytes) bytes.length = [] := by
  unfold bodyInBuffer
  cases hfound : strstr (buf.write 0 bytes).cString httpPattern with
  | none => rfl
  | some found =>
      obtain ⟨⟨before, hbefore⟩, htest, -⟩ := findFirst_eq_some hfound
      obtain ⟨more, rfl⟩ := List.isPrefixOf_iff_prefix.mp htest
      have hstart : (buf.write 0 bytes).cString.length - (httpPattern ++ more).length +
          httpPattern.length = (before ++ httpPattern).length := by
        rw [← hbefore, List.length_append, Nat.add_sub_cancel, List.length_append]
      have hle : bytes.length ≤ (before ++ httpPattern).length := by
        by_contra hlt
        refine h _ (not_le.mp hlt) ?_
        rw [← take_cString_write buf hlen (not_le.mp hlt).le, ← hbefore, ← List.append_assoc,
          List.take_left']
        · exact List.suffix_append _ _
        · rfl
        · rw [← hbefore, ← List.append_assoc]
          exact (List.prefix_append _ _).length_le
      dsimp only
      rw [hstart, Nat.sub_eq_zero_of_le hle]
      rfl

theorem getHttpRequest_eq_respond {conn : Conn}
    (h : ¬ (recvUntil conn bufSize httpPattern).ret < 0) (ops : FileOps) (disk : Disk)
    (buf : Memory) :
    (getHttpRequest ops disk buf conn).1 =
      respond ops disk
        ((buf.write 0 (recvUntil conn bufSize httpPattern).stored).bytes 0 4).toList
        (buf.write 0 (recvUntil conn bufSize httpPattern).stored).cString
        (recvUntil conn bufSize httpPattern).rest := by
  obtain ⟨used, hread⟩ := recvUntil_spec bufSize httpPattern_ne_nil conn
  have hret := (recvUntil_received httpPattern_ne_nil h).1
  have hstored := hread.stored_eq
  rw [List.nil_append] at hstored
  have hlen : used.length ≤ 2 ^ 64 := hread.length_le.trans (by decide)
  unfold getHttpRequest
  rw [if_neg h, hret, hstored]
  exact handleHttpRequest_eq_respond (bodyInBuffer_of_matchedLast hread.matchedLast hlen buf)
    ops disk _

end Kademlia.Http
