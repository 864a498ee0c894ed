import Kademlia.Http.ContentLength
import Kademlia.Http.Names

/-!
The headers that the program writes.

Each is a list of lines that are not empty, so the first empty line is its end.
The array it is printed into is large enough for every name that the server can
read, and the length in it is read back, unless the name looks like the field.
-/

namespace Kademlia.Http

open Foundations CString Source Model Framing

/-! ### Lines -/

def joinLines (lines : List (List UInt8)) : List UInt8 := lines.flatMap (· ++ [13, 10])

def headerText (lines : List (List UInt8)) : List UInt8 := joinLines lines ++ [13, 10]

/-- A line of text that is not empty. -/
structure IsLine (line : List UInt8) : Prop where
  ne_nil : line ≠ []
  no_newline : 10 ∉ line
  no_nul : 0 ∉ line

instance : DecidablePred IsLine := fun line =>
  decidable_of_iff (line ≠ [] ∧ 10 ∉ line ∧ 0 ∉ line)
    ⟨fun ⟨hne, hnewline, hnul⟩ => ⟨hne, hnewline, hnul⟩,
      fun ⟨hne, hnewline, hnul⟩ => ⟨hne, hnewline, hnul⟩⟩

/-- The pattern ends with a newline, so it does not end where there is none. -/
theorem unmatched_append {s t : List UInt8} (h : Unmatched httpPattern s)
    (ht : 10 ∉ t) : Unmatched httpPattern (s ++ t) := by
  intro k hk hsuffix
  rcases Nat.lt_or_ge s.length k with hlt | hle
  · rw [List.take_append, List.take_of_length_le hlt.le] at hsuffix
    have hne : t.take (k - s.length) ≠ [] := by
      rw [List.length_append] at hk
      rw [Ne, ← List.length_eq_zero_iff, List.length_take]
      omega
    obtain ⟨u, hu⟩ := hsuffix
    have hlast := congrArg List.getLast? hu
    rw [List.getLast?_append_of_ne_nil _ httpPattern_ne_nil, List.getLast?_append_of_ne_nil _ hne]
      at hlast
    exact ht (List.mem_of_mem_take (List.mem_of_getLast? hlast.symm))
  · rw [List.take_append_of_le_length hle] at hsuffix
    exact h k hle hsuffix

theorem unmatched_append_line {s line : List UInt8} (h : Unmatched httpPattern s)
    (hline : IsLine line) : Unmatched httpPattern (s ++ (line ++ [13, 10])) := by
  have hreturn : Unmatched httpPattern (s ++ (line ++ [13])) :=
    unmatched_append h (by simp [hline.no_newline])
  have hassoc : s ++ (line ++ [13, 10]) = s ++ (line ++ [13]) ++ [10] := by simp
  rw [hassoc]
  refine (hreturn.append_singleton 10).unmatched ?_
  rintro ⟨u, hu⟩
  -- in front of the last line end there would be another one
  have hfront : (u ++ [13, 10]) ++ [13, 10] = (s ++ line) ++ [13, 10] := by
    simpa [httpPattern] using hu
  have hlast := congrArg List.getLast? (List.append_cancel_right hfront)
  rw [List.getLast?_append_of_ne_nil _ (by simp), List.getLast?_append_of_ne_nil _ hline.ne_nil]
    at hlast
  exact hline.no_newline (List.mem_of_getLast? hlast.symm)

theorem unmatched_append_joinLines {lines : List (List UInt8)} {s : List UInt8}
    (hs : Unmatched httpPattern s) (h : ∀ line ∈ lines, IsLine line) :
    Unmatched httpPattern (s ++ joinLines lines) := by
  induction lines generalizing s with
  | nil => rwa [joinLines, List.flatMap_nil, List.append_nil]
  | cons line lines ih =>
      have hline := unmatched_append_line hs (h line List.mem_cons_self)
      have hrest := ih hline fun l hl => h l (List.mem_cons_of_mem line hl)
      rwa [List.append_assoc] at hrest

theorem matchedLast_headerText {lines : List (List UInt8)} (h : ∀ line ∈ lines, IsLine line) :
    MatchedLast httpPattern (headerText lines) := by
  have hlines := unmatched_append_joinLines (unmatched_nil httpPattern_ne_nil) h
  rw [List.nil_append] at hlines
  have hreturn : Unmatched httpPattern (joinLines lines ++ [13]) :=
    unmatched_append hlines (by decide)
  have hassoc : headerText lines = joinLines lines ++ [13] ++ [10] := by simp [headerText]
  rw [hassoc]
  exact hreturn.append_singleton 10

theorem suffix_headerText {lines : List (List UInt8)} (h : lines ≠ []) :
    httpPattern <:+ headerText lines := by
  obtain ⟨front, last, rfl⟩ := (List.eq_nil_or_concat' lines).resolve_left h
  exact ⟨joinLines front ++ last, by simp [headerText, joinLines, httpPattern]⟩

/-! ### Lengths -/

theorem inetNtop_length_le (addr : Bytes 4) : (inetNtop addr).length ≤ 15 := by
  have hbyte : ∀ b : UInt8, (decimal b.toNat).length ≤ 3 := fun b =>
    decimal_length_le (by decide) (b.toNat_lt.trans (by decide))
  obtain ⟨bytes, hlen⟩ := addr
  obtain ⟨a, b, c, d, rfl⟩ := List.length_eq_four.mp hlen
  have ha := hbyte a
  have hb := hbyte b
  have hc := hbyte c
  have hd := hbyte d
  simp only [inetNtop, List.Vector.toList, List.map_cons, List.map_nil, List.intercalate_cons_cons,
    List.intercalate_singleton, List.length_append, List.length_singleton]
  omega

theorem ntohs_lt (port : Bytes 2) : ntohs port < 10 ^ 5 := by
  obtain ⟨bytes, hlen⟩ := port
  obtain ⟨a, b, rfl⟩ := List.length_eq_two.mp hlen
  have ha := a.toNat_lt
  have hb := b.toNat_lt
  simp only [ntohs, List.Vector.toList, List.foldl_cons, List.foldl_nil]
  omega

theorem hostText_length_le (addr : SockAddrIn) : (hostText addr).length ≤ 21 := by
  have haddr := inetNtop_length_le addr.sinAddr
  have hport := decimal_length_le (by decide) (ntohs_lt addr.sinPort)
  simp only [hostText, List.length_append, List.length_singleton]
  omega

/-! ### The headers of the program -/

/-- A file name that reaches the server as it is and does not look like the field
that the server searches. -/
structure PlainName (name : List UInt8) : Prop where
  ne_nil : name ≠ []
  no_nul : 0 ∉ name
  no_slash : 47 ∉ name
  word : ∀ b ∈ name, isSpace b = false
  length_le : name.length ≤ 254
  no_field : strcasestrPortable name contentLengthName = none

instance : DecidablePred PlainName := fun name =>
  decidable_of_iff (name ≠ [] ∧ 0 ∉ name ∧ 47 ∉ name ∧ (∀ b ∈ name, isSpace b = false) ∧
      name.length ≤ 254 ∧ strcasestrPortable name contentLengthName = none)
    ⟨fun ⟨hne, hnul, hslash, hword, hlen, hfield⟩ => ⟨hne, hnul, hslash, hword, hlen, hfield⟩,
      fun ⟨hne, hnul, hslash, hword, hlen, hfield⟩ => ⟨hne, hnul, hslash, hword, hlen, hfield⟩⟩

theorem PlainName.not_mem {name : List UInt8} (h : PlainName name) {b : UInt8}
    (hb : isSpace b = true) : b ∉ name := by
  intro hmem
  rw [h.word b hmem] at hb
  cases hb

theorem toLower_ne_of_mem_hostText {addr : SockAddrIn} {b : UInt8} (h : b ∈ hostText addr) :
    toLower b ≠ 99 := by
  rcases mem_hostText h with h | rfl | rfl
  · simp only [isDigit, decide_eq_true_eq, UInt8.le_iff_toNat_le] at h
    have hhigh : b.toNat ≤ 57 := h.2
    have hupper : ¬ (65 ≤ b ∧ b ≤ 90) := by
      rw [UInt8.le_iff_toNat_le]
      have hlow : (65 : UInt8).toNat = 65 := rfl
      omega
    rw [toLower, if_neg hupper]
    rintro rfl
    exact absurd hhigh (by decide)
  · decide
  · decide

def getLines (name : List UInt8) (addr : SockAddrIn) : List (List UInt8) :=
  [ascii "GET /" ++ name ++ ascii " HTTP/1.1", ascii "Host: " ++ hostText addr,
    ascii "Connection: close"]

def putLines (name : List UInt8) (addr : SockAddrIn) (length : ℕ) : List (List UInt8) :=
  [ascii "PUT /" ++ name ++ ascii " HTTP/1.1", ascii "Host: " ++ hostText addr,
    ascii "Content-Type: application/octet-stream", ascii "Content-Length: " ++ decimal length,
    ascii "Connection: close"]

/-- A response that has its length in the third line. -/
def responseLines (status type length : List UInt8) (after : List (List UInt8)) :
    List (List UInt8) :=
  status :: type :: (ascii "Content-Length: " ++ length) :: after

def okLines (length : ℕ) : List (List UInt8) :=
  [ascii "HTTP/1.1 200 OK", ascii "Content-Type: application/octet-stream",
    ascii "Content-Length: " ++ decimal length, ascii "Connection: close"]

theorem headerText_length (lines : List (List UInt8)) :
    (headerText lines).length = (lines.map fun line => line.length + 2).sum + 2 := by
  rw [headerText, joinLines, List.length_append, List.length_flatMap]
  simp

-- the texts that more than one header has

theorem ascii_version : ascii " HTTP/1.1\r\n" = ascii " HTTP/1.1" ++ [13, 10] := by decide

theorem ascii_contentType : ascii "Content-Type: application/octet-stream\r\n" =
    ascii "Content-Type: application/octet-stream" ++ [13, 10] := by decide

theorem ascii_lineEnd : ascii "\r\n" = [13, 10] := by decide

theorem ascii_close : ascii "Connection: close\r\n\r\n" =
    ascii "Connection: close" ++ [13, 10, 13, 10] := by decide

theorem length_version : (ascii " HTTP/1.1").length = 9 := by decide

theorem length_host : (ascii "Host: ").length = 6 := by decide

theorem length_contentType : (ascii "Content-Type: application/octet-stream").length = 38 := by
  decide

theorem length_contentLength : (ascii "Content-Length: ").length = 16 := by decide

theorem length_close : (ascii "Connection: close").length = 17 := by decide

theorem putRequest_eq {file : FileMagnet} {name : List UInt8}
    (hfile : file.displayName = some name) (hname : name.length ≤ 254) (addr : SockAddrIn)
    {length : ℕ} (hlength : length < 2 ^ 63) :
    putRequest file addr length = headerText (putLines name addr length) := by
  have htext : ascii "PUT /" ++ file.nameText ++ ascii " HTTP/1.1\r\n" ++
      ascii "Host: " ++ hostText addr ++ ascii "\r\n" ++
      ascii "Content-Type: application/octet-stream\r\n" ++
      ascii "Content-Length: " ++ decimal length ++ ascii "\r\n" ++
      ascii "Connection: close\r\n\r\n" = headerText (putLines name addr length) := by
    rw [ascii_version, ascii_contentType, ascii_lineEnd, ascii_close]
    simp [headerText, joinLines, putLines, FileMagnet.nameText, hfile]
  have hhost := hostText_length_le addr
  have hdigits := decimal_length_le (by decide) (hlength.trans (by decide : 2 ^ 63 < 10 ^ 19))
  rw [putRequest, htext]
  apply snprintf_eq_self
  have hput : (ascii "PUT /").length = 5 := by decide
  simp only [headerText_length, putLines, List.map_cons, List.map_nil, List.sum_cons,
    List.sum_nil, List.length_append, hput, length_version, length_host, length_contentType,
    length_contentLength, length_close]
  omega

theorem getRequest_eq {file : FileMagnet} {name : List UInt8}
    (hfile : file.displayName = some name) (hname : name.length ≤ 254) (addr : SockAddrIn) :
    getRequest file addr = headerText (getLines name addr) := by
  have htext : ascii "GET /" ++ file.nameText ++ ascii " HTTP/1.1\r\n" ++
      ascii "Host: " ++ hostText addr ++ ascii "\r\n" ++ ascii "Connection: close\r\n\r\n" =
        headerText (getLines name addr) := by
    rw [ascii_version, ascii_lineEnd, ascii_close]
    simp [headerText, joinLines, getLines, FileMagnet.nameText, hfile]
  have hhost := hostText_length_le addr
  rw [getRequest, htext]
  apply snprintf_eq_self
  have hget : (ascii "GET /").length = 5 := by decide
  simp only [headerText_length, getLines, List.map_cons, List.map_nil, List.sum_cons,
    List.sum_nil, List.length_append, hget, length_version, length_host, length_close]
  omega

theorem signedDecimal_natCast (n : ℕ) : signedDecimal n = decimal n := if_neg (by omega)

theorem signedDecimal_length_le {size : ℤ} (hlow : -2 ^ 63 ≤ size) (hhigh : size < 2 ^ 63) :
    (signedDecimal size).length ≤ 20 := by
  have habs : size.natAbs < 10 ^ 19 := by omega
  have hdigits := decimal_length_le (by decide) habs
  rw [signedDecimal]
  split
  · rw [List.length_cons]
    omega
  · omega

/-- What `ftell` returns is printed, also where it is an error. -/
theorem okHeader_eq_responseLines {size : ℤ} (hlow : -2 ^ 63 ≤ size) (hhigh : size < 2 ^ 63) :
    okHeader size = headerText (responseLines (ascii "HTTP/1.1 200 OK")
      (ascii "Content-Type: application/octet-stream") (signedDecimal size)
      [ascii "Connection: close"]) := by
  have htext : ascii "HTTP/1.1 200 OK\r\n" ++ ascii "Content-Type: application/octet-stream\r\n" ++
      ascii "Content-Length: " ++ signedDecimal size ++ ascii "\r\n" ++
      ascii "Connection: close\r\n" ++ ascii "\r\n" =
        headerText (responseLines (ascii "HTTP/1.1 200 OK")
          (ascii "Content-Type: application/octet-stream") (signedDecimal size)
          [ascii "Connection: close"]) := by
    have hstatus : ascii "HTTP/1.1 200 OK\r\n" = ascii "HTTP/1.1 200 OK" ++ [13, 10] := by decide
    have hclose : ascii "Connection: close\r\n" = ascii "Connection: close" ++ [13, 10] := by decide
    rw [hstatus, ascii_contentType, ascii_lineEnd, hclose]
    simp [headerText, joinLines, responseLines]
  have hdigits := signedDecimal_length_le hlow hhigh
  rw [okHeader, htext]
  apply snprintf_eq_self
  have hstatus : (ascii "HTTP/1.1 200 OK").length = 15 := by decide
  simp only [headerText_length, responseLines, List.map_cons, List.map_nil, List.sum_cons,
    List.sum_nil, List.length_append, hstatus, length_contentType, length_contentLength,
    length_close]
  omega

theorem okHeader_eq {length : ℕ} (hlength : length < 2 ^ 63) :
    okHeader length = headerText (okLines length) := by
  rw [okHeader_eq_responseLines (by omega) (by omega), signedDecimal_natCast]
  rfl

theorem not_mem_headerText {lines : List (List UInt8)} (h : ∀ line ∈ lines, IsLine line) :
    0 ∉ headerText lines := by
  simp only [headerText, joinLines, List.mem_append, List.mem_flatMap, not_or, not_exists, not_and]
  refine ⟨fun line hline => ⟨(h line hline).no_nul, by decide⟩, by decide⟩

/-- What can be appended to the beginning of a line. -/
structure IsText (s : List UInt8) : Prop where
  no_newline : 10 ∉ s
  no_nul : 0 ∉ s

instance : DecidablePred IsText := fun s =>
  decidable_of_iff (10 ∉ s ∧ 0 ∉ s)
    ⟨fun ⟨hnewline, hnul⟩ => ⟨hnewline, hnul⟩, fun ⟨hnewline, hnul⟩ => ⟨hnewline, hnul⟩⟩

theorem IsLine.append {s t : List UInt8} (hs : IsLine s) (ht : IsText t) : IsLine (s ++ t) where
  ne_nil := List.append_ne_nil_of_left_ne_nil hs.ne_nil t
  no_newline h := (List.mem_append.mp h).elim hs.no_newline ht.no_newline
  no_nul h := (List.mem_append.mp h).elim hs.no_nul ht.no_nul

theorem PlainName.isText {name : List UInt8} (h : PlainName name) : IsText name :=
  ⟨h.not_mem (by decide), h.no_nul⟩

theorem isText_hostText (addr : SockAddrIn) : IsText (hostText addr) where
  no_newline h := by
    rcases mem_hostText h with h | h | h <;> cases h
  no_nul := not_mem_hostText addr

theorem isText_decimal (n : ℕ) : IsText (decimal n) where
  no_newline h := by
    have hdigit := isDigit_of_mem_decimal h
    cases hdigit
  no_nul := not_mem_decimal n

theorem isText_version : IsText (ascii " HTTP/1.1") := by decide

theorem isLine_host : IsLine (ascii "Host: ") := by decide

theorem isLine_contentType : IsLine (ascii "Content-Type: application/octet-stream") := by decide

theorem isLine_contentLength : IsLine (ascii "Content-Length: ") := by decide

theorem isLine_close : IsLine (ascii "Connection: close") := by decide

theorem isLine_getLines {name : List UInt8} (hname : PlainName name) (addr : SockAddrIn) :
    ∀ line ∈ getLines name addr, IsLine line := by
  have hget : IsLine (ascii "GET /") := by decide
  simp only [getLines, List.forall_mem_cons]
  exact ⟨(hget.append hname.isText).append isText_version,
    isLine_host.append (isText_hostText addr), isLine_close, List.forall_mem_nil _⟩

theorem isLine_putLines {name : List UInt8} (hname : PlainName name) (addr : SockAddrIn)
    (length : ℕ) : ∀ line ∈ putLines name addr length, IsLine line := by
  have hput : IsLine (ascii "PUT /") := by decide
  simp only [putLines, List.forall_mem_cons]
  exact ⟨(hput.append hname.isText).append isText_version,
    isLine_host.append (isText_hostText addr), isLine_contentType,
    isLine_contentLength.append (isText_decimal length), isLine_close, List.forall_mem_nil _⟩

theorem isLine_okLines (length : ℕ) : ∀ line ∈ okLines length, IsLine line := by
  have hstatus : IsLine (ascii "HTTP/1.1 200 OK") := by decide
  simp only [okLines, List.forall_mem_cons]
  exact ⟨hstatus, isLine_contentType, isLine_contentLength.append (isText_decimal length),
    isLine_close, List.forall_mem_nil _⟩

/-! ### The length read back -/

theorem field_skip {s : List UInt8} (h : ∀ b ∈ s, toLower b ≠ 99) (t : List UInt8) :
    strcasestrPortable (s ++ t) contentLengthName = strcasestrPortable t contentLengthName := by
  rw [strcasestrPortable_eq contentLengthName_ne_nil, strcasestrPortable_eq contentLengthName_ne_nil]
  have hname : contentLengthName = 67 :: ascii "ontent-Length:" := by decide
  induction s with
  | nil => rfl
  | cons b s ih =>
      have hfirst : startsWithCase (b :: (s ++ t)) contentLengthName = false := by
        rw [hname, startsWithCase]
        have hb : decide (toLower b = toLower 67) = false :=
          decide_eq_false (h b List.mem_cons_self)
        rw [hb, Bool.false_and]
      rw [List.cons_append, findFirst, hfirst, if_neg Bool.false_ne_true]
      exact ih fun b' hb' => h b' (List.mem_cons_of_mem b hb')

/-- What stands in front of the length in both headers that have one. -/
def lengthPrelude : List UInt8 :=
  ascii "Content-Type: application/octet-stream" ++ [13, 10] ++ ascii "Content-Length: "

theorem field_prelude (t : List UInt8) :
    strcasestrPortable (lengthPrelude ++ t) contentLengthName =
      some (ascii "Content-Length: " ++ t) := by
  have hfield : strcasestrPortable lengthPrelude contentLengthName =
      some (ascii "Content-Length: ") := by decide
  exact field_append hfield t

theorem scanContentLength_decimal {n : ℕ} (hn : n < 2 ^ 64) (t : List UInt8) :
    scanContentLength (ascii "Content-Length: " ++ (decimal n ++ 13 :: t)) = some n := by
  have hsplit : ascii "Content-Length: " = contentLengthName ++ [32] := by decide
  have hspace : isSpace 32 = true := by decide
  rw [scanContentLength, hsplit, List.append_assoc,
    if_pos (List.isPrefixOf_iff_prefix.mpr (List.prefix_append _ _)), List.drop_left,
    List.singleton_append, skipSpace, List.dropWhile_cons_of_pos hspace]
  rw [← skipSpace, scanUnsigned_skipSpace]
  exact scanUnsigned_decimal hn (by decide) t

theorem lengthOf_putLines {name : List UInt8} (hname : PlainName name) (addr : SockAddrIn)
    {length : ℕ} (hlength : length < 2 ^ 63) (t : List UInt8) :
    lengthOf (headerText (putLines name addr length) ++ t) = some length := by
  have htext : headerText (putLines name addr length) ++ t =
      ascii "PUT /" ++ (name ++ 32 :: ((ascii "HTTP/1.1" ++ [13, 10] ++ ascii "Host: " ++
        hostText addr ++ [13, 10]) ++ (lengthPrelude ++ (decimal length ++ 13 :: (10 ::
          (ascii "Connection: close" ++ [13, 10, 13, 10] ++ t)))))) := by
    have hversion : ascii " HTTP/1.1" = 32 :: ascii "HTTP/1.1" := by decide
    simp [headerText, joinLines, putLines, lengthPrelude, hversion]
  have hput : ∀ b ∈ ascii "PUT /", toLower b ≠ 99 := by decide +kernel
  have hhost : ∀ b ∈ 32 :: (ascii "HTTP/1.1" ++ [13, 10] ++ ascii "Host: " ++ hostText addr ++
      [13, 10]), toLower b ≠ 99 := by
    have hversion : ∀ b ∈ 32 :: (ascii "HTTP/1.1" ++ [13, 10] ++ ascii "Host: "),
        toLower b ≠ 99 := by decide +kernel
    have hend : ∀ b ∈ ([13, 10] : List UInt8), toLower b ≠ 99 := by decide +kernel
    intro b hb
    rw [List.append_assoc, ← List.cons_append, List.mem_append, List.mem_append] at hb
    rcases hb with hb | hb | hb
    · exact hversion b hb
    · exact toLower_ne_of_mem_hostText hb
    · exact hend b hb
  rw [lengthOf, htext, field_skip hput, field_append_of_none (by decide +kernel) hname.no_field,
    ← List.cons_append, field_skip hhost, field_prelude, Option.bind_some]
  exact scanContentLength_decimal (hlength.trans (by decide)) _

theorem field_okLines (length : ℕ) :
    ∃ field, strcasestrPortable (headerText (okLines length)) contentLengthName = some field ∧
      (length < 2 ^ 63 → scanContentLength field = some length) := by
  have htext : headerText (okLines length) = ascii "HTTP/1.1 200 OK" ++ [13, 10] ++
      (lengthPrelude ++ (decimal length ++ 13 :: (10 ::
        (ascii "Connection: close" ++ [13, 10, 13, 10])))) := by
    simp [headerText, joinLines, okLines, lengthPrelude]
  have hstatus : ∀ b ∈ ascii "HTTP/1.1 200 OK" ++ [13, 10], toLower b ≠ 99 := by decide +kernel
  rw [htext, field_skip hstatus, field_prelude]
  exact ⟨_, rfl, fun hlength => scanContentLength_decimal (hlength.trans (by decide)) _⟩

/-! ### Responses told apart -/

def notFoundLines : List (List UInt8) :=
  [ascii "HTTP/1.1 404 Not Found", ascii "Content-Type: text/plain", ascii "Content-Length: 13"]

theorem notFound_eq : notFound = headerText notFoundLines ++ ascii "404 Not Found" := by
  decide

theorem isLine_notFoundLines : ∀ line ∈ notFoundLines, IsLine line := by decide

theorem takeWhile_headerText {lines : List (List UInt8)} (h : ∀ line ∈ lines, IsLine line) :
    (headerText lines).takeWhile (· ≠ 0) = headerText lines := by
  rw [List.takeWhile_eq_self_iff]
  intro b hb
  have hne : b ≠ 0 := fun heq => not_mem_headerText h (heq ▸ hb)
  simpa using hne

end Kademlia.Http
