import Kademlia.Http.GetBody
import Kademlia.Http.PutBody

/-!
Whether a response is as long as it says.

The lengths of the short texts are written out by hand, and three of the five are
not those of the texts. That of a file is what `ftell` returns, and the body is
what `fread` gets.
-/

namespace Kademlia.Http

open Foundations Foundations.Source CString Model Framing

/-- The body of a response has the length that its header declares. -/
def SelfConsistent (response : List UInt8) : Prop :=
  ∃ header body, response = header ++ body ∧ IsHeader header ∧
    declaredLength header = some body.length

theorem selfConsistent_append_iff {header : List UInt8} (h : IsHeader header)
    (body : List UInt8) :
    SelfConsistent (header ++ body) ↔ declaredLength header = some body.length := by
  constructor
  · rintro ⟨header', body', hsplit, h', hlength⟩
    have hsame : header' = header :=
      h'.eq_of_prefix h ⟨body', hsplit.symm⟩ (List.prefix_append header body)
    subst hsame
    rw [List.append_cancel_left hsplit]
    exact hlength
  · intro hlength
    exact ⟨header, body, rfl, h, hlength⟩

/-! ### The responses of the program -/

section Lines

variable {status type length : List UInt8} {after : List (List UInt8)}

theorem declaredLength_responseLines
    (h : ∀ line ∈ responseLines status type length after, IsLine line)
    (htype : isLengthField type = false) :
    declaredLength (headerText (responseLines status type length after)) =
      fieldNumber (32 :: length) := by
  have hname : ascii "Content-Length: " ++ length = contentLengthName ++ 32 :: length := by
    have hsplit : ascii "Content-Length: " = contentLengthName ++ [32] := by decide
    rw [hsplit, List.append_assoc, List.singleton_append]
  have hfield : isLengthField (contentLengthName ++ 32 :: length) = true := by
    rw [isLengthField, startsWithCase_iff, List.take_left]
  rw [declaredLength, splitLines_headerText fun line hline => (h line hline).no_newline]
  simp only [responseLines, hname, List.cons_append, List.tail_cons, List.find?_cons, htype,
    hfield]
  rw [Option.bind_eq_bind, Option.bind_some, List.drop_left]

theorem selfConsistent_responseLines_iff
    (h : ∀ line ∈ responseLines status type length after, IsLine line)
    (htype : isLengthField type = false) (body : List UInt8) :
    SelfConsistent (headerText (responseLines status type length after) ++ body) ↔
      fieldNumber (32 :: length) = some body.length := by
  have hheader : IsHeader (headerText (responseLines status type length after)) :=
    ⟨matchedLast_headerText h, suffix_headerText (List.cons_ne_nil _ _)⟩
  rw [selfConsistent_append_iff hheader, declaredLength_responseLines h htype]

end Lines

def textResponse (status : List UInt8) (length : ℕ) (after : List (List UInt8))
    (text : List UInt8) : List UInt8 :=
  headerText (responseLines status (ascii "Content-Type: text/plain") (decimal length) after) ++
    text

theorem selfConsistent_textResponse_iff {status : List UInt8} {after : List (List UInt8)}
    (hstatus : IsLine status) (hafter : ∀ line ∈ after, IsLine line) (length : ℕ)
    (text : List UInt8) :
    SelfConsistent (textResponse status length after text) ↔ length = text.length := by
  have htype : IsLine (ascii "Content-Type: text/plain") := by decide
  have hlines : ∀ line ∈ responseLines status (ascii "Content-Type: text/plain")
      (decimal length) after, IsLine line := by
    simp only [responseLines, List.forall_mem_cons]
    exact ⟨hstatus, htype, isLine_contentLength.append (isText_decimal length), hafter⟩
  rw [textResponse, selfConsistent_responseLines_iff hlines (by decide),
    fieldNumber_decimal, Option.some.injEq]

theorem notFound_eq_textResponse :
    notFound = textResponse (ascii "HTTP/1.1 404 Not Found") 13 [] (ascii "404 Not Found") := by
  decide

theorem methodNotAllowed_eq_textResponse :
    methodNotAllowed = textResponse (ascii "HTTP/1.1 405 Method Not Allowed") 23
      [ascii "Allow: GET, PUT"] (ascii "405 Method Not Allowed") := by
  decide

theorem fileCreated_eq_textResponse :
    fileCreated = textResponse (ascii "HTTP/1.1 201 Created") 24 [ascii "Connection: close"]
      (ascii "File uploaded successfully") := by
  decide

theorem internalServerError_eq_textResponse :
    internalServerError = textResponse (ascii "HTTP/1.1 500 Internal Server Error") 21
      [ascii "Connection: close"] (ascii "Internal Server Error") := by
  decide

theorem badRequest_eq_textResponse :
    badRequest = textResponse (ascii "HTTP/1.1 400 Bad Request") 12 [ascii "Connection: close"]
      (ascii "Bad Request") := by
  decide

theorem selfConsistent_notFound : SelfConsistent notFound := by
  rw [notFound_eq_textResponse, selfConsistent_textResponse_iff (by decide) (by decide)]
  decide

theorem selfConsistent_internalServerError : SelfConsistent internalServerError := by
  rw [internalServerError_eq_textResponse,
    selfConsistent_textResponse_iff (by decide) (by decide)]
  decide

/-- One byte too many. -/
theorem not_selfConsistent_methodNotAllowed : ¬ SelfConsistent methodNotAllowed := by
  rw [methodNotAllowed_eq_textResponse, selfConsistent_textResponse_iff (by decide) (by decide)]
  decide

/-- Two bytes too few. -/
theorem not_selfConsistent_fileCreated : ¬ SelfConsistent fileCreated := by
  rw [fileCreated_eq_textResponse, selfConsistent_textResponse_iff (by decide) (by decide)]
  decide

/-- One byte too many. -/
theorem not_selfConsistent_badRequest : ¬ SelfConsistent badRequest := by
  rw [badRequest_eq_textResponse, selfConsistent_textResponse_iff (by decide) (by decide)]
  decide

theorem isText_signedDecimal (size : ℤ) : IsText (signedDecimal size) := by
  have hminus : IsText [45] := by decide
  rw [signedDecimal]
  split
  · have hdigits := isText_decimal size.natAbs
    refine ⟨?_, ?_⟩
    · simp [hdigits.no_newline]
    · simp [hdigits.no_nul]
  · exact isText_decimal _

/-- The header of a file is right about a body of as many bytes as `ftell` told. -/
theorem selfConsistent_okHeader_iff {size : ℤ} (hlow : -2 ^ 63 ≤ size) (hhigh : size < 2 ^ 63)
    (body : List UInt8) : SelfConsistent (okHeader size ++ body) ↔ size = body.length := by
  have hstatus : IsLine (ascii "HTTP/1.1 200 OK") := by decide
  have hlines : ∀ line ∈ responseLines (ascii "HTTP/1.1 200 OK")
      (ascii "Content-Type: application/octet-stream") (signedDecimal size)
      [ascii "Connection: close"], IsLine line := by
    simp only [responseLines, List.forall_mem_cons]
    exact ⟨hstatus, isLine_contentType, isLine_contentLength.append (isText_signedDecimal size),
      isLine_close, List.forall_mem_nil _⟩
  rw [okHeader_eq_responseLines hlow hhigh,
    selfConsistent_responseLines_iff hlines (by decide), fieldNumber_signedDecimal_iff]

/-! ### Requests that are answered right -/

/-- What `ftell` returns is a `long`, whichever file is opened. -/
def TellsLong (ops : FileOps) (disk : Disk) : Prop :=
  ∀ path content, disk path = some content →
    -2 ^ 63 ≤ ops.tell.getD content.length ∧ ops.tell.getD content.length < 2 ^ 63

/-- The file is not there, or as many bytes are read of it as `ftell` tells. -/
def ReadsWhatItTells (ops : FileOps) (disk : Disk) (path : List UInt8) : Prop :=
  ops.opens = true → ∀ content, disk path = some content →
    ops.tell.getD content.length =
      (min (ops.readable.getD content.length) content.length : ℕ)

/-- The server fails with a PUT: there is no directory, or it has a length and cannot open the
file, store what is in the buffer or go on to the end of the transfer. -/
def PutFails (ops : FileOps) (headers : Memory) (headerLen : ℕ) (s : Source Unit) : Prop :=
  ops.dirReady = false ∨
    ∃ length, lengthOf headers.cString = some length ∧
      (ops.opens = false ∨
        firstBytes headers headerLen length ≠ [] ∧
          ¬ WriteFits ops.writes (firstBytes headers headerLen length).length ∨
        Aborts true (length - (firstBytes headers headerLen length).length)
          (writesLeft ops.writes (firstBytes headers headerLen length)) ops.again s)

/-- The request is answered with one of the texts that are as long as they say, or with a file
that is. -/
def AnsweredRight (ops : FileOps) (disk : Disk) (contents : Memory) (length : ℕ)
    (s : Source Unit) : Prop :=
  if (contents.bytes 0 4).toList = ascii "GET " then
    filePath contents = [] ∨ ReadsWhatItTells ops disk (pathIn uploadDir (filePath contents))
  else
    (contents.bytes 0 4).toList = ascii "PUT " ∧
      (filePath contents = [] ∨ PutFails ops contents length s)

variable {ops : FileOps} {disk : Disk} {filename : List UInt8} {headers : Memory}
  {headerLen length : ℕ} {conn : Conn}

theorem selfConsistent_sendHttpFile_iff (h : TellsLong ops disk) :
    SelfConsistent (sendHttpFile ops disk filename conn).sent ↔
      ReadsWhatItTells ops disk (pathIn uploadDir filename) := by
  rw [sendHttpFile, ReadsWhatItTells]
  cases hopens : ops.opens with
  | false => exact iff_of_true selfConsistent_notFound fun hopen => by cases hopen
  | true =>
      simp only [if_true]
      cases hcontent : disk (pathIn uploadDir filename) with
      | none => exact iff_of_true selfConsistent_notFound fun _ _ hfile => by cases hfile
      | some content =>
          obtain ⟨hlow, hhigh⟩ := h _ _ hcontent
          dsimp only
          rw [selfConsistent_okHeader_iff hlow hhigh, List.length_take]
          constructor
          · rintro htell _ _ ⟨⟩
            exact htell
          · intro htell
            exact htell trivial content rfl

theorem PutAccepted.length_unique {length' : ℕ} (h : PutAccepted ops headers length)
    (h' : lengthOf headers.cString = some length') : length' = length :=
  Option.some.inj (h'.symm.trans h.length_eq)

/-- Behind the header, a PUT fails at the buffer or in the loop. -/
theorem PutAccepted.fails_iff (h : PutAccepted ops headers length) {s : Source Unit} :
    PutFails ops headers headerLen s ↔
      firstBytes headers headerLen length ≠ [] ∧
          ¬ WriteFits ops.writes (firstBytes headers headerLen length).length ∨
        Aborts true (length - (firstBytes headers headerLen length).length)
          (writesLeft ops.writes (firstBytes headers headerLen length)) ops.again s := by
  constructor
  · rintro (hready | ⟨length', hlength, hopens | hfails⟩)
    · cases h.ready.symm.trans hready
    · cases h.opens.symm.trans hopens
    · rwa [h.length_unique hlength] at hfails
  · intro hfails
    exact Or.inr ⟨length, h.length_eq, Or.inr hfails⟩

theorem receiveHttpFile_fails (h : PutFails ops headers headerLen (splitting conn)) :
    (receiveHttpFile ops disk filename headers headerLen conn).sent = internalServerError := by
  by_cases haccepted : ∃ length, PutAccepted ops headers length
  · obtain ⟨length, haccepted⟩ := haccepted
    by_cases hwrite : firstBytes headers headerLen length ≠ [] →
        WriteFits ops.writes (firstBytes headers headerLen length).length
    · have habort := (haccepted.fails_iff.mp h).resolve_left fun hnot => hnot.2 (hwrite hnot.1)
      rw [receiveHttpFile_accepted disk filename conn haccepted hwrite]
      dsimp only
      rw [if_neg]
      exact fun hstop => (stop_iff_aborts le_rfl _ conn).mp hstop habort
    · rw [Classical.not_imp] at hwrite
      exact receiveHttpFile_unwritten haccepted hwrite.1 hwrite.2
  · rw [receiveHttpFile_refused (not_exists.mp haccepted), if_neg]
    rintro ⟨hready, hnone⟩
    rcases h with hnot | ⟨length, hlength, -⟩
    · cases hready.symm.trans hnot
    · cases hnone.symm.trans hlength

/-- What does not fail is refused for its header, or done. -/
theorem receiveHttpFile_not_fails (h : ¬ PutFails ops headers headerLen (splitting conn)) :
    (receiveHttpFile ops disk filename headers headerLen conn).sent = badRequest ∨
      (receiveHttpFile ops disk filename headers headerLen conn).sent = fileCreated := by
  by_cases haccepted : ∃ length, PutAccepted ops headers length
  · obtain ⟨length, haccepted⟩ := haccepted
    rw [haccepted.fails_iff, not_or] at h
    obtain ⟨hwritten, hstays⟩ := h
    have hwrite : firstBytes headers headerLen length ≠ [] →
        WriteFits ops.writes (firstBytes headers headerLen length).length :=
      fun hne => not_not.mp fun hnot => hwritten ⟨hne, hnot⟩
    rw [receiveHttpFile_accepted disk filename conn haccepted hwrite]
    exact Or.inr (if_pos ((stop_iff_aborts le_rfl _ conn).mpr hstays))
  · rw [PutFails, not_or] at h
    obtain ⟨hready, hlength⟩ := h
    rw [Bool.not_eq_false] at hready
    have hnone : lengthOf headers.cString = none := by
      rw [Option.eq_none_iff_forall_ne_some]
      intro length hsome
      have hopens : ops.opens = true :=
        eq_true_of_ne_false fun hclosed => hlength ⟨length, hsome, Or.inl hclosed⟩
      exact haccepted ⟨length, hready, hsome, hopens⟩
    rw [receiveHttpFile_refused (not_exists.mp haccepted), if_pos ⟨hready, hnone⟩]
    exact Or.inl rfl

/-- Of the answers to a PUT only that to a failure is as long as it says. -/
theorem selfConsistent_receiveHttpFile_iff :
    SelfConsistent (receiveHttpFile ops disk filename headers headerLen conn).sent ↔
      PutFails ops headers headerLen (splitting conn) := by
  constructor
  · intro hright
    by_contra hnot
    rcases receiveHttpFile_not_fails hnot with hsent | hsent
    · exact not_selfConsistent_badRequest (hsent ▸ hright)
    · exact not_selfConsistent_fileCreated (hsent ▸ hright)
  · intro hfails
    rw [receiveHttpFile_fails hfails]
    exact selfConsistent_internalServerError

/-- A response is as long as it says exactly where the request is answered with a text that is, or
with a file of which as many bytes are read as `ftell` tells. -/
theorem selfConsistent_iff (h : TellsLong ops disk) (contents : Memory) (length : ℕ)
    (conn : Conn) :
    SelfConsistent (handleHttpRequest ops disk contents length conn).sent ↔
      AnsweredRight ops disk contents length (splitting conn) := by
  rw [handleHttpRequest, AnsweredRight]
  split
  · split
    · next hpath => exact iff_of_true selfConsistent_notFound (Or.inl hpath)
    · next hpath => rw [selfConsistent_sendHttpFile_iff h, or_iff_right hpath]
  · split
    · next hput =>
        rw [and_iff_right hput]
        split
        · next hpath => exact iff_of_true selfConsistent_notFound (Or.inl hpath)
        · next hpath => rw [selfConsistent_receiveHttpFile_iff, or_iff_right hpath]
    · next hput =>
        exact iff_of_false not_selfConsistent_methodNotAllowed fun hright => hput hright.1

def oneFile : Disk := Disk.empty.store (pathIn uploadDir (ascii "a")) (ascii "abc")

theorem tellsLong_oneFile : TellsLong .ordinary oneFile := by
  intro path content hcontent
  rw [oneFile, Disk.store_read] at hcontent
  split at hcontent
  · cases hcontent
    decide
  · cases hcontent

theorem selfConsistent_oneFile :
    TellsLong .ordinary oneFile ∧
      SelfConsistent (handleHttpRequest .ordinary oneFile
        (Memory.write (fun _ => 0) 0 (ascii "GET /a HTTP/1.1\r\n\r\n")) 19 []).sent := by
  refine ⟨tellsLong_oneFile, (selfConsistent_iff tellsLong_oneFile _ _ _).mpr ?_⟩
  have hget : ((Memory.write (fun _ => 0) 0 (ascii "GET /a HTTP/1.1\r\n\r\n")).bytes 0 4).toList =
      ascii "GET " := by decide
  rw [AnsweredRight, if_pos hget]
  refine Or.inr fun _ content _ => ?_
  exact congrArg Nat.cast (min_self content.length).symm

/-- The 23 bytes that are announced are 22. -/
theorem not_selfConsistent_post :
    ¬ SelfConsistent (handleHttpRequest .ordinary .empty
      (Memory.write (fun _ => 0) 0 (ascii "POST / HTTP/1.1\r\n\r\n")) 19 []).sent := by
  have hsent : (handleHttpRequest .ordinary .empty
      (Memory.write (fun _ => 0) 0 (ascii "POST / HTTP/1.1\r\n\r\n")) 19 []).sent =
        methodNotAllowed := by decide
  rw [hsent]
  exact not_selfConsistent_methodNotAllowed

end Kademlia.Http
