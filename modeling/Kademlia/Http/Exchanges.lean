import Kademlia.Http.Headers
import Kademlia.Http.Transfers

/-!
Whole exchanges between the client and the server of the program.

The client leaves its connection open until it has the response. A PUT that is
accepted then stores what was sent, and a download that succeeds saves what the
server sent behind its header.
-/

namespace Kademlia.Http

open Foundations CString Source Model Framing

variable {file : FileMagnet} {name : List UInt8}

theorem fails_of_lt_failures {conn : Conn} {n : ℕ} (h : n < failures conn) :
    fails conn = true := by
  by_contra hends
  have hnone := (failures_eq_zero_iff conn).mpr (by simpa using hends)
  omega

def PlainName.baseName (h : PlainName name) : BaseName := ⟨name, h.ne_nil, h.no_slash, h.no_nul⟩

theorem pathOf_of_extractedName {contents : Memory} (h : extractedName contents = some name) :
    pathOf contents.cString = name := by
  unfold extractedName at h
  split at h
  · split at h
    · cases h
    · exact Option.some.inj h
  · cases h

theorem bytes_write_header (buf : Memory) {method line : List UInt8} (hmethod : method.length = 4)
    (lines : List (List UInt8)) :
    ((buf.write 0 (headerText ((method ++ line) :: lines))).bytes 0 4).toList = method := by
  have htext : headerText ((method ++ line) :: lines) =
      method ++ (line ++ 13 :: 10 :: headerText lines) := by
    simp [headerText, joinLines]
  have hread := buf.toList_bytes_write 0
    (show 0 + 4 ≤ (headerText ((method ++ line) :: lines)).length by
      rw [htext, List.length_append]
      omega)
  rw [Nat.add_zero] at hread
  rw [hread, List.drop_zero, htext, ← hmethod, List.take_left]

/-! ### Uploading -/

section Put

variable {content : List UInt8} {addr : SockAddrIn} {ops : FileOps} {disk : Disk} {buf : Memory}
  {conn : Conn}

theorem respond_put (hname : PlainName name) (hlen : content.length < 2 ^ 63) (rest : Conn) :
    respond ops disk
        ((buf.write 0 (headerText (putLines name addr content.length))).bytes 0 4).toList
        (buf.write 0 (headerText (putLines name addr content.length))).cString rest =
      storeBody ops disk name (some content.length) rest := by
  have htext : putRequest (magnetNamed hname.baseName (zeroBytes 32) 0) addr content.length =
      headerText (putLines name addr content.length) :=
    putRequest_eq rfl hname.length_le addr hlen
  have hextracted := (extractedName_putRequest_iff hname.baseName (zeroBytes 32) 0 buf addr
    content.length).mpr ⟨hname.word, hname.length_le⟩
  rw [htext] at hextracted
  have hpath : pathOf (buf.write 0 (headerText (putLines name addr content.length))).cString =
      name := pathOf_of_extractedName hextracted
  have hsplit : putLines name addr content.length =
      (ascii "PUT " ++ (47 :: name ++ ascii " HTTP/1.1")) ::
        (putLines name addr content.length).tail := by
    have hput : ascii "PUT /" = ascii "PUT " ++ [47] := by decide
    simp [putLines, hput]
  have hmethod : ((buf.write 0 (headerText (putLines name addr content.length))).bytes 0 4).toList =
      ascii "PUT " := by
    rw [hsplit]
    exact bytes_write_header buf (by decide) _
  have hsize : (headerText (putLines name addr content.length)).length ≤ 2 ^ 64 := by
    rw [← htext]
    exact (List.length_take_le _ _).trans (by decide)
  have hstring := buf.cString_write
    (not_mem_headerText (isLine_putLines hname addr content.length)) hsize
  have hlength : lengthOf (buf.write 0 (headerText (putLines name addr content.length))).cString =
      some content.length := by
    rw [hstring]
    exact lengthOf_putLines hname addr hlen _
  rw [hmethod, respond_of_put, hlength, if_neg]
  · exact congrArg (fun path => storeBody ops disk path (some content.length) rest) hpath
  · rw [hpath]
    exact hname.ne_nil

/-- An accepted PUT stores the content that was sent, as far as `fclose` writes it. -/
theorem getHttpRequest_put (hfile : file.displayName = some name) (hname : PlainName name)
    (hlen : content.length < 2 ^ 63)
    (hsent : carried conn <+: putRequest file addr content.length ++ content)
    (hwaits : ops.again.length < failures conn)
    (hcreated : (getHttpRequest ops disk buf conn).1.sent = fileCreated) :
    (getHttpRequest ops disk buf conn).1.disk =
      disk.store (pathIn uploadDir name) (ops.flushed content) := by
  have hfails := fails_of_lt_failures hwaits
  by_cases hret : (recvUntil conn bufSize httpPattern).ret < 0
  · have hnothing : (getHttpRequest ops disk buf conn).1.sent = [] := by
      rw [getHttpRequest, if_pos hret]
    rw [hnothing] at hcreated
    cases hcreated
  · have hsize : (putRequest file addr content.length).length ≤ bufSize :=
      (List.length_take_le _ _).trans (by decide)
    rw [putRequest_eq hfile hname.length_le addr hlen] at hsent hsize
    obtain ⟨hstored, hrest, hfailures⟩ := recvUntil_header httpPattern_ne_nil
      (matchedLast_headerText (isLine_putLines hname addr content.length))
      (suffix_headerText (List.cons_ne_nil _ _)) hsize hsent hfails hret
    rw [getHttpRequest_eq_respond hret, hstored, respond_put hname hlen] at hcreated ⊢
    rw [← hrest, List.prefix_append_right_inj] at hsent
    rw [← hfailures] at hwaits
    have hother : internalServerError ≠ fileCreated := by decide
    unfold storeBody at hcreated ⊢
    split at hcreated
    · exact absurd hcreated hother
    · next hready =>
        dsimp only at hcreated
        split at hcreated
        · exact absurd hcreated hother
        · next hopens =>
            rw [if_neg hready]
            dsimp only at hcreated ⊢
            rw [if_neg hopens]
            split at hcreated
            · next hstop => rw [receiveBody_eq hsent hwaits (Or.inl rfl) hstop]
            · exact absurd hcreated hother

end Put

/-! ### Downloading -/

section Get

variable {content : List UInt8} {addr : SockAddrIn} {ops : FileOps} {disk : Disk} {buf : Memory}
  {conn : Conn}

theorem respond_get (hname : PlainName name) (rest : Conn) :
    respond ops disk ((buf.write 0 (headerText (getLines name addr))).bytes 0 4).toList
        (buf.write 0 (headerText (getLines name addr))).cString rest =
      sendHttpFile ops disk name rest := by
  have htext : getRequest (magnetNamed hname.baseName (zeroBytes 32) 0) addr =
      headerText (getLines name addr) := getRequest_eq rfl hname.length_le addr
  have hextracted := (extractedName_getRequest_iff hname.baseName (zeroBytes 32) 0 buf
    addr).mpr ⟨hname.word, hname.length_le⟩
  rw [htext] at hextracted
  have hpath : pathOf (buf.write 0 (headerText (getLines name addr))).cString = name :=
    pathOf_of_extractedName hextracted
  have hsplit : getLines name addr =
      (ascii "GET " ++ (47 :: name ++ ascii " HTTP/1.1")) :: (getLines name addr).tail := by
    have hget : ascii "GET /" = ascii "GET " ++ [47] := by decide
    simp [getLines, hget]
  have hmethod : ((buf.write 0 (headerText (getLines name addr))).bytes 0 4).toList =
      ascii "GET " := by
    rw [hsplit]
    exact bytes_write_header buf (by decide) _
  rw [hmethod, respond_of_get, if_neg]
  · exact congrArg (fun path => sendHttpFile ops disk path rest) hpath
  · rw [hpath]
    exact hname.ne_nil

/-- The answers to a GET: none, if the request did not arrive, or the file, if it
is there. -/
theorem getHttpRequest_get (hfile : file.displayName = some name) (hname : PlainName name)
    (hsent : carried conn <+: getRequest file addr) (hwaits : fails conn = true)
    (htell : ops.tell = none) (hreadable : ops.readable = none) :
    (getHttpRequest ops disk buf conn).1.sent = [] ∨
      (getHttpRequest ops disk buf conn).1.sent = notFound ∨
      ∃ content, disk (pathIn uploadDir name) = some content ∧
        (getHttpRequest ops disk buf conn).1.sent = okHeader content.length ++ content := by
  by_cases hret : (recvUntil conn bufSize httpPattern).ret < 0
  · left
    rw [getHttpRequest, if_pos hret]
  · right
    have hsize : (getRequest file addr).length ≤ bufSize :=
      (List.length_take_le _ _).trans (by decide)
    rw [getRequest_eq hfile hname.length_le addr] at hsent hsize
    rw [← List.append_nil (headerText _)] at hsent
    obtain ⟨hstored, -, -⟩ := recvUntil_header httpPattern_ne_nil
      (matchedLast_headerText (isLine_getLines hname addr))
      (suffix_headerText (List.cons_ne_nil _ _)) hsize hsent hwaits hret
    rw [getHttpRequest_eq_respond hret, hstored, respond_get hname, sendHttpFile]
    split
    · exact Or.inl rfl
    · next content hcontent =>
        refine Or.inr ⟨content, ?_, ?_⟩
        · split at hcontent
          · exact hcontent
          · cases hcontent
        · rw [htell, hreadable, Option.getD_none, Option.getD_none, List.take_length]

variable {session : HttpSession} {saved : Disk}

/-- What a download that returned 0 went through. -/
theorem downloadHttpFile_cases (h : (downloadHttpFile session saved file).ret = 0) :
    0 < (recvUntil session.reply httpHeaderSize httpPattern).ret ∧
      strstr ((recvUntil session.reply httpHeaderSize httpPattern).stored.takeWhile (· ≠ 0))
        (ascii "404 Not Found") = none ∧
      ∃ field,
        strcasestrPortable
          ((recvUntil session.reply httpHeaderSize httpPattern).stored.takeWhile (· ≠ 0))
          contentLengthName = some field ∧
        (receiveBody false ((scanContentLength field).getD 0) [] session.ops.writes
          session.ops.again (recvUntil session.reply httpHeaderSize httpPattern).rest).stop ≠
            .failed ∧
        (downloadHttpFile session saved file).disk =
          saved.store (pathIn downloadDir file.nameText)
            (receiveBody false ((scanContentLength field).getD 0) [] session.ops.writes
              session.ops.again
              (recvUntil session.reply httpHeaderSize httpPattern).rest).written := by
  unfold downloadHttpFile HttpSession.saved at h ⊢
  generalize recvUntil session.reply httpHeaderSize httpPattern = received at h ⊢
  dsimp only at h ⊢
  cases hfield : strcasestrPortable (received.stored.takeWhile (· ≠ 0)) contentLengthName with
  | none =>
      rw [hfield] at h
      dsimp only at h
      split_ifs at h <;> cases h
  | some field =>
      rw [hfield] at h
      dsimp only at h ⊢
      split_ifs at h ⊢ with hconnected hheader hreceived hmissing hready hopens hfailed
      -- each exit in front of the end returns -1
      iterate 7 cases h
      exact ⟨not_le.mp hreceived, by simpa using hmissing, field, rfl, hfailed, rfl⟩

theorem recvUntil_response {lines : List (List UInt8)} (hlines : ∀ line ∈ lines, IsLine line)
    (hne : lines ≠ []) (hsize : (headerText lines).length ≤ httpHeaderSize) {body : List UInt8}
    {reply : Conn} (hreply : carried reply <+: headerText lines ++ body)
    (hstays : fails reply = true)
    (hret : 0 < (recvUntil reply httpHeaderSize httpPattern).ret) :
    (recvUntil reply httpHeaderSize httpPattern).stored.takeWhile (· ≠ 0) = headerText lines ∧
      carried (recvUntil reply httpHeaderSize httpPattern).rest <+: body ∧
      failures (recvUntil reply httpHeaderSize httpPattern).rest = failures reply := by
  obtain ⟨hstored, hrest, hfailures⟩ := recvUntil_header httpPattern_ne_nil
    (matchedLast_headerText hlines) (suffix_headerText hne) hsize hreply hstays (by omega)
  rw [← hrest, List.prefix_append_right_inj] at hreply
  rw [hstored]
  exact ⟨takeWhile_headerText hlines, hreply, hfailures⟩

/-- A download that succeeds saves the content that was sent. -/
theorem downloadHttpFile_saved (hlen : content.length < 2 ^ 63)
    (hreply : carried session.reply <+: okHeader content.length ++ content)
    (hstays : session.ops.again.length < failures session.reply)
    (hwrites : ∀ w ∈ session.ops.writes, w = none)
    (h : (downloadHttpFile session saved file).ret = 0) :
    (downloadHttpFile session saved file).disk =
      saved.store (pathIn downloadDir file.nameText) content := by
  obtain ⟨hret, -, field, hfield, hstop, hdisk⟩ := downloadHttpFile_cases h
  have hsize : (okHeader content.length).length ≤ httpHeaderSize :=
    (List.length_take_le _ _).trans (by decide)
  rw [okHeader_eq hlen] at hreply hsize
  obtain ⟨hheader, hbody, hfailures⟩ := recvUntil_response (isLine_okLines content.length)
    (List.cons_ne_nil _ _) hsize hreply (fails_of_lt_failures hstays) hret
  obtain ⟨field', hfield', hlength⟩ := field_okLines content.length
  rw [hheader, hfield', Option.some.injEq] at hfield
  subst hfield
  rw [hlength hlen, Option.getD_some] at hstop hdisk
  rw [← hfailures] at hstays
  rw [hdisk]
  generalize hreceived : receiveBody false content.length [] session.ops.writes
    session.ops.again (recvUntil session.reply httpHeaderSize httpPattern).rest = received at *
  have hover : received.stop = .complete ∨ received.stop = .ended := by
    have hchecked : received.stop ≠ .writeError := by
      rw [← hreceived]
      exact receiveLoop_ne_writeError
    cases hcase : received.stop with
    | complete => exact Or.inl rfl
    | ended => exact Or.inr rfl
    | failed => exact absurd hcase hstop
    | writeError => exact absurd hcase hchecked
  rw [← hreceived] at hover ⊢
  rw [receiveBody_eq hbody hstays (Or.inr hwrites) hover]

theorem downloadHttpFile_notFound (hreply : carried session.reply <+: notFound)
    (hstays : fails session.reply = true) : (downloadHttpFile session saved file).ret ≠ 0 := by
  intro h
  obtain ⟨hret, hmissing, -⟩ := downloadHttpFile_cases h
  rw [notFound_eq] at hreply
  obtain ⟨hheader, -, -⟩ := recvUntil_response isLine_notFoundLines (List.cons_ne_nil _ _)
    (by decide) hreply hstays hret
  rw [hheader] at hmissing
  revert hmissing
  decide

theorem downloadHttpFile_nothing (hreply : carried session.reply = []) :
    (downloadHttpFile session saved file).ret ≠ 0 := by
  intro h
  obtain ⟨hret, -, -⟩ := downloadHttpFile_cases h
  have hdelivered := ((recvUntil_pos_iff (by decide) httpPattern_ne_nil _).mp hret).1
  have hnil := List.prefix_nil.mp (hreply ▸ delivered_isPrefix_carried session.reply)
  exact hdelivered hnil

end Get

end Kademlia.Http
