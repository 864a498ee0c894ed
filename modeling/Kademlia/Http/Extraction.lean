import Kademlia.Http.GetBody
import Kademlia.Http.PutBody

/-!
The length that is read of a header.

The program looks for the name in the whole text and without regard to case, but
reads a number only where it is spelled as in the program. So what it gets is the
value of the field if nothing in front of the field has the name in it.
-/

namespace Kademlia.Http

open Foundations Foundations.Source CString Model Framing

/-! ### Headers with a length -/

/-- A header with one field for the length, apart from the lines around that. -/
structure LengthHeader where
  /-- the request or the status -/
  first : List UInt8
  before : List (List UInt8)
  /-- `Content-Length:`, in whichever case -/
  name : List UInt8
  value : List UInt8
  after : List (List UInt8)
  number : ℕ
  isLine_first : IsLine first
  isLine_before : ∀ line ∈ before, IsLine line
  isLine_after : ∀ line ∈ after, IsLine line
  before_other : ∀ line ∈ before, isLengthField line = false
  after_other : ∀ line ∈ after, isLengthField line = false
  name_eq : name.map toLower = contentLengthName.map toLower
  isText_value : IsText value
  number_eq : fieldNumber value = some number
  /-- it fits into memory -/
  length_le : (headerText (first :: before ++ (name ++ value) :: after)).length ≤ 2 ^ 64

namespace LengthHeader

variable (header : LengthHeader)

def front : List (List UInt8) := header.first :: header.before

def text : List UInt8 :=
  headerText (header.front ++ (header.name ++ header.value) :: header.after)

end LengthHeader

section Header

variable (header : LengthHeader)

theorem LengthHeader.length_name : header.name.length = contentLengthName.length := by
  have hlen := congrArg List.length header.name_eq
  rwa [List.length_map, List.length_map] at hlen

theorem LengthHeader.startsWithCase_name (t : List UInt8) :
    startsWithCase (header.name ++ t) contentLengthName = true := by
  rw [startsWithCase_iff, ← header.length_name, List.take_left]
  exact header.name_eq

theorem LengthHeader.isLine_name : IsLine header.name := by
  have hmem {b : UInt8} (hb : b ∈ header.name) : toLower b ∈ contentLengthName.map toLower := by
    rw [← header.name_eq]
    exact List.mem_map_of_mem hb
  refine ⟨fun hnil => ?_, fun hb => ?_, fun hb => ?_⟩
  · have hlen := header.length_name
    rw [hnil] at hlen
    exact absurd hlen (by decide)
  · exact absurd (hmem hb) (by decide)
  · exact absurd (hmem hb) (by decide)

theorem LengthHeader.isLine_lines :
    ∀ line ∈ header.front ++ (header.name ++ header.value) :: header.after, IsLine line := by
  simp only [LengthHeader.front, List.mem_append, List.mem_cons]
  rintro line ((rfl | hline) | rfl | hline)
  · exact header.isLine_first
  · exact header.isLine_before line hline
  · exact header.isLine_name.append header.isText_value
  · exact header.isLine_after line hline

theorem LengthHeader.declaredLength_text : declaredLength header.text = some header.number := by
  have hlines : ∀ line ∈ header.front ++ (header.name ++ header.value) :: header.after,
      10 ∉ line := fun line hline => (header.isLine_lines line hline).no_newline
  have hbefore : header.before.find? isLengthField = none :=
    List.find?_eq_none.mpr fun line hline => by simp [header.before_other line hline]
  have hfield : isLengthField (header.name ++ header.value) = true :=
    header.startsWithCase_name header.value
  rw [declaredLength, LengthHeader.text, splitLines_headerText hlines]
  simp only [LengthHeader.front, List.cons_append, List.tail_cons, List.append_assoc,
    List.find?_append, hbefore, Option.none_or, List.find?_cons, hfield]
  rw [Option.bind_eq_bind, Option.bind_some, ← header.length_name, List.drop_left]
  exact header.number_eq

def LengthHeader.rest : List UInt8 := 13 :: 10 :: headerText header.after

theorem LengthHeader.text_eq :
    header.text = joinLines header.front ++ (header.name ++ (header.value ++ header.rest)) := by
  simp [LengthHeader.text, LengthHeader.rest, headerText, joinLines]

end Header

/-! ### The number behind the name -/

theorem scanUnsigned_value {value t : List UInt8} {n : ℕ} (h : fieldNumber value = some n)
    (ht : ∀ b ∈ t.head?, isDigit b = false) (bound : ℕ) :
    scanUnsigned bound (value ++ t) = some (if bound ≤ n then bound - 1 else n) := by
  rw [fieldNumber] at h
  split at h
  · next hdigits =>
      obtain ⟨hne, hall⟩ := hdigits
      have hsplit : skipSpace value = (skipSpace value).rdropWhile isSpace ++
          (skipSpace value).rtakeWhile isSpace := List.rdropWhile_append_rtakeWhile.symm
      have hvalue : skipSpace value ≠ [] := by
        intro hnil
        rw [hnil] at hne
        exact hne rfl
      have hbehind : ∀ b ∈ ((skipSpace value).rtakeWhile isSpace ++ t).head?,
          isDigit b = false := by
        intro b hb
        cases hspaces : (skipSpace value).rtakeWhile isSpace with
        | nil =>
            rw [hspaces] at hb
            exact ht b hb
        | cons c spaces =>
            rw [hspaces] at hb
            obtain rfl : c = b := Option.some.inj hb
            have hspace := List.mem_rtakeWhile_imp (hspaces ▸ List.mem_cons_self)
            by_contra hdigit
            rw [isSpace_of_isDigit (by simpa using hdigit)] at hspace
            cases hspace
      cases h
      rw [← scanUnsigned_skipSpace, skipSpace_append hvalue, hsplit, List.append_assoc,
        scanUnsigned, ← hsplit, scanDigits_append hne hall hbehind]
      dsimp only [Option.bind_eq_bind, Option.bind_some]
      split
      · rfl
      · rfl
  · cases h

theorem scanContentLength_exact (v : List UInt8) :
    scanContentLength (contentLengthName ++ v) = scanUnsigned (2 ^ 64) v := by
  rw [scanContentLength, if_pos (List.isPrefixOf_iff_prefix.mpr (List.prefix_append _ _)),
    List.drop_left, scanUnsigned_skipSpace]

/-- The name is first found behind `u`, where it is spelled as in the program. -/
structure FirstName (s u v : List UInt8) : Prop where
  split : s = u ++ (contentLengthName ++ v)
  first : ∀ k < u.length, startsWithCase (s.drop k) contentLengthName = false

theorem startsWithCase_exact (v : List UInt8) :
    startsWithCase (contentLengthName ++ v) contentLengthName = true := by
  rw [startsWithCase_iff, List.take_left]

theorem firstName_iff {s v : List UInt8} :
    strcasestrPortable s contentLengthName = some (contentLengthName ++ v) ↔
      ∃ u, FirstName s u v := by
  rw [strcasestrPortable_eq contentLengthName_ne_nil, findFirst_eq_some_iff]
  constructor
  · rintro ⟨-, -, u, hsplit, hfirst⟩
    exact ⟨u, hsplit, hfirst⟩
  · rintro ⟨u, hsplit, hfirst⟩
    exact ⟨List.append_ne_nil_of_left_ne_nil contentLengthName_ne_nil v, startsWithCase_exact v,
      u, hsplit, hfirst⟩

/-- A number is read only behind a name that is spelled as in the program. -/
theorem lengthOf_eq_some_iff {s : List UInt8} {n : ℕ} :
    lengthOf s = some n ↔ ∃ u v, FirstName s u v ∧ scanUnsigned (2 ^ 64) v = some n := by
  rw [lengthOf, Option.bind_eq_some_iff]
  constructor
  · rintro ⟨field, hfield, hscan⟩
    have hname : contentLengthName <+: field := by
      rw [scanContentLength] at hscan
      split at hscan
      · next hname => exact List.isPrefixOf_iff_prefix.mp hname
      · cases hscan
    obtain ⟨v, rfl⟩ := hname
    obtain ⟨u, hfirst⟩ := firstName_iff.mp hfield
    exact ⟨u, v, hfirst, scanContentLength_exact v ▸ hscan⟩
  · rintro ⟨u, v, hfirst, hscan⟩
    exact ⟨_, firstName_iff.mpr ⟨u, hfirst⟩, (scanContentLength_exact v).trans hscan⟩

/-! ### What stands in front -/

/-- The line has the name in it, in whichever case. -/
def Mentions (line : List UInt8) : Prop := strcasestrPortable line contentLengthName ≠ none

instance : DecidablePred Mentions := fun line =>
  inferInstanceAs (Decidable (strcasestrPortable line contentLengthName ≠ none))

theorem field_joinLines {lines : List (List UInt8)} (h : ∀ line ∈ lines, ¬ Mentions line)
    (t : List UInt8) :
    strcasestrPortable (joinLines lines ++ t) contentLengthName =
      strcasestrPortable t contentLengthName := by
  induction lines with
  | nil => rfl
  | cons line lines ih =>
      have hline := not_not.mp (h line List.mem_cons_self)
      have hends : ∀ b ∈ ([13, 10] : List UInt8), toLower b ≠ 99 := by decide +kernel
      have htext : joinLines (line :: lines) ++ t =
          line ++ 13 :: ([10] ++ (joinLines lines ++ t)) := by simp [joinLines]
      rw [htext, field_append_of_none (by decide +kernel) hline, ← List.cons_append]
      exact (field_skip hends _).trans (ih fun l hl => h l (List.mem_cons_of_mem line hl))

section Unmentioned

variable (header : LengthHeader)

/-- Where nothing in front has the name, the field is found, and its number is read if its name
is spelled as in the program. -/
theorem lengthOf_text_iff (h : ∀ line ∈ header.front, ¬ Mentions line) :
    lengthOf header.text = some header.number ↔
      header.name = contentLengthName ∧ header.number < 2 ^ 64 := by
  have hfound : strcasestrPortable header.text contentLengthName =
      some (header.name ++ (header.value ++ header.rest)) := by
    rw [header.text_eq, field_joinLines h, strcasestrPortable_eq contentLengthName_ne_nil,
      findFirst_eq_some_iff]
    exact ⟨List.append_ne_nil_of_left_ne_nil header.isLine_name.ne_nil _,
      header.startsWithCase_name _, [], rfl, fun k hk => absurd hk (Nat.not_lt_zero k)⟩
  rw [lengthOf, hfound, Option.bind_some]
  by_cases hname : header.name = contentLengthName
  · have hreturn : ∀ b ∈ header.rest.head?, isDigit b = false := by
      rintro b ⟨⟩
      decide
    rw [and_iff_right hname, hname, scanContentLength_exact,
      scanUnsigned_value header.number_eq hreturn, Option.some.injEq]
    split
    · omega
    · next hlt => exact iff_of_true rfl (not_le.mp hlt)
  · refine iff_of_false (fun hscan => hname ?_) fun hexact => hname hexact.1
    rw [scanContentLength] at hscan
    split at hscan
    · next hpre =>
        have hle := header.length_name.le
        exact (List.prefix_of_prefix_length_le (List.prefix_append _ _)
          (List.isPrefixOf_iff_prefix.mp hpre) hle).eq_of_length header.length_name
    · cases hscan

end Unmentioned

/-! ### What both sides use -/

/-- Both functions take the number for the length of the body: the server whatever its buffer
has behind the header, the client whatever follows on the connection. -/
structure UsesLength (header : LengthHeader) : Prop where
  receive : ∀ ops disk filename headers headerLen conn, ops.dirReady = true →
    ops.opens = true → header.text <+: headers.cString →
    receiveHttpFile ops disk filename headers headerLen conn =
      putOf ops disk filename headers headerLen header.number conn
  download : ∀ session disk file, session.connected = true → session.headerSent = true →
    session.ops.dirReady = true → session.ops.opens = true →
    header.text <+: delivered session.reply →
    downloadHttpFile session disk file =
      session.saved disk file (receiveBody false header.number [] session.ops.writes
        session.ops.again (responseRest session.reply))

/-- The number is read as it is: nothing in front has the name, which is spelled as in the
program, or something in front gives the same number by chance. -/
def ReadsNumber (header : LengthHeader) : Prop :=
  if ∀ line ∈ header.front, ¬ Mentions line then
    header.name = contentLengthName ∧ header.number < 2 ^ 64
  else
    ∃ u v, FirstName header.text u v ∧ scanUnsigned (2 ^ 64) v = some header.number

/-- The part of a longer header that is received gives the same number. -/
def ReadsCut (header : LengthHeader) : Prop :=
  ∃ u v, FirstName (header.text.take httpHeaderSize) u v ∧
    (scanUnsigned (2 ^ 64) v).getD 0 = header.number

/-- Nothing in the part that is received looks like the status of a missing file. -/
def NoNotFound (header : LengthHeader) : Prop :=
  strstr (header.text.take httpHeaderSize) (ascii "404 Not Found") = none

/-- A header is received up to its end or to that of the buffer. -/
theorem responseHeader_of_sent {text : List UInt8} (htext : IsHeader text) {reply : Conn}
    (h : text <+: delivered reply) : responseHeader reply = text.take httpHeaderSize := by
  obtain ⟨used, hread⟩ := recvUntil_spec httpHeaderSize httpPattern_ne_nil reply
  have hlen := hread.length_le
  have hlast := hread.matchedLast
  have houtcome := hread.outcome
  rw [responseHeader, hread.stored_eq]
  rw [List.nil_append] at hlen hlast ⊢
  obtain ⟨hused, hstop⟩ : used <+: delivered reply ∧
      (httpPattern <:+ used ∨ min text.length httpHeaderSize ≤ used.length) := by
    cases houtcome with
    | failed _ hused _ =>
        rw [hused]
        exact ⟨List.prefix_rfl, Or.inr ((Nat.min_le_left _ _).trans h.length_le)⟩
    | ended _ hused _ _ =>
        rw [hused]
        exact ⟨List.prefix_rfl, Or.inr ((Nat.min_le_left _ _).trans h.length_le)⟩
    | stopped hstop hused _ _ =>
        rw [List.nil_append] at hstop
        exact ⟨hused, hstop.imp_right fun hfull => (Nat.min_le_right _ _).trans hfull.ge⟩
  rcases Nat.lt_or_ge httpHeaderSize text.length with hlong | hshort
  · have hpre := List.prefix_of_prefix_length_le hused h (hlen.trans hlong.le)
    have hnone : ¬ httpPattern <:+ used := by
      rw [List.prefix_iff_eq_take.mp hpre]
      exact htext.first _ (hlen.trans_lt hlong)
    have hfull := hstop.resolve_left hnone
    have hsize : used.length = httpHeaderSize := by omega
    rw [← hsize]
    exact List.prefix_iff_eq_take.mp hpre
  · rw [List.take_of_length_le hshort]
    refine hlast.eq_of_prefix htext.first htext.ends (hstop.imp_right ?_) hused h
    omega

theorem LengthHeader.isHeader_text (header : LengthHeader) : IsHeader header.text :=
  ⟨matchedLast_headerText header.isLine_lines, suffix_headerText (by simp)⟩

theorem takeWhile_take_text (header : LengthHeader) (n : ℕ) :
    (header.text.take n).takeWhile (· ≠ 0) = header.text.take n := by
  rw [List.takeWhile_eq_self_iff]
  intro b hb
  have hne : b ≠ 0 := fun heq =>
    not_mem_headerText header.isLine_lines (heq ▸ List.mem_of_mem_take hb)
  simpa using hne

theorem readsNumber_iff (header : LengthHeader) :
    lengthOf header.text = some header.number ↔ ReadsNumber header := by
  rw [ReadsNumber]
  split
  · next hnone => exact lengthOf_text_iff header hnone
  · exact lengthOf_eq_some_iff

theorem lengthOf_text_append (header : LengthHeader) {n : ℕ}
    (h : lengthOf header.text = some n) (following : List UInt8) :
    lengthOf (header.text ++ following) = some n := by
  obtain ⟨u, v, hfirst, hscan⟩ := lengthOf_eq_some_iff.mp h
  have hfield := firstName_iff.mpr ⟨u, hfirst⟩
  have hverdict : (lengthVerdict header.text).isSome = true := by
    have hdigit := scanUnsigned_isSome (2 ^ 64) v
    rw [hscan, Option.isSome_some] at hdigit
    rw [lengthVerdict, hfield, Option.bind_eq_bind, Option.bind_some,
      if_pos (List.isPrefixOf_iff_prefix.mpr (List.prefix_append _ _)), List.drop_left,
      Option.isSome_map]
    cases hstart : (numberStart v).head? with
    | none =>
        rw [hstart] at hdigit
        cases hdigit
    | some b => rfl
  rw [lengthOf_append hverdict, h]
  intro b hb
  have hends : header.text.getLast? = some 10 := by
    obtain ⟨u, hu⟩ := header.isHeader_text.ends
    rw [← hu, List.getLast?_append_of_ne_nil _ httpPattern_ne_nil]
    rfl
  rw [hends, Option.some.injEq] at hb
  exact hb ▸ by decide

/-! ### Telling numbers apart -/

/-- A body that arrives at once is received whole, whichever length is expected. -/
theorem receiveLoop_unread (checked : Bool) {fuel length : ℕ} {body : List UInt8}
    (hfuel : length ≤ fuel) (hlen : length ≤ body.length) (written : List UInt8) :
    receiveLoop checked fuel length written [] [] (unread body []) =
      ⟨written ++ body.take length, 0, .complete, unread (body.drop length) []⟩ := by
  induction fuel generalizing length body written with
  | zero =>
      obtain rfl := Nat.le_zero.mp hfuel
      rw [receiveLoop_of_eq_zero rfl, List.take_zero, List.append_nil, List.drop_zero]
  | succ fuel ih =>
      rcases Nat.eq_zero_or_pos length with rfl | hpos
      · rw [receiveLoop_of_eq_zero rfl, List.take_zero, List.append_nil, List.drop_zero]
      · have hchunk := chunk_pos hpos
        have hle : min length chunkSize ≤ body.length := (Nat.min_le_left _ _).trans hlen
        have hdelivered : delivered (unread body []) = body := by
          rw [delivered_unread, delivered_nil, List.append_nil]
        have hfirst : firstChunk (unread body []) = body := by
          obtain ⟨b, bs, rfl⟩ := List.exists_cons_of_length_pos (hchunk.trans_le hle)
          rfl
        obtain ⟨hrest, -, -, hret⟩ := recvAll_complete (unread body []) hchunk
          (hdelivered.symm ▸ hle)
        have hret' := hret.mpr (hfirst.symm ▸ hle)
        have hskip : skip (min length chunkSize) (unread body []) =
            unread (body.drop (min length chunkSize)) [] := by
          have happend := skip_unread_append (body.take (min length chunkSize))
            (body.drop (min length chunkSize)) []
          rwa [List.take_append_drop, List.length_take, Nat.min_eq_left hle] at happend
        rw [receiveLoop, if_neg hpos.ne']
        dsimp only
        have hwrite (bytes : List UInt8) : fwrite [] bytes = (bytes, true) := rfl
        rw [hret', if_neg (by omega), if_neg (by omega), Int.toNat_natCast, recvAll_stored,
          hdelivered, List.take_take, Nat.min_self, hrest, hskip, hwrite, if_neg (by simp),
          List.tail_nil, ih (by omega) (by rw [List.length_drop]; omega)]
        have htake : body.take (min length chunkSize) ++
            (body.drop (min length chunkSize)).take (length - min length chunkSize) =
              body.take length := by
          rw [← List.take_add]
          congr 1
          omega
        have hdrop : (body.drop (min length chunkSize)).drop (length - min length chunkSize) =
            body.drop length := by
          rw [List.drop_drop]
          congr 1
          omega
        rw [List.append_assoc, htake, hdrop]

theorem receiveBody_unread (checked : Bool) {length : ℕ} {body : List UInt8}
    (hlen : length ≤ body.length) :
    receiveBody checked length [] [] [] (unread body []) =
      ⟨body.take length, 0, .complete, unread (body.drop length) []⟩ :=
  receiveLoop_unread checked (Nat.le_add_right _ _) hlen []

theorem eq_of_take_eq {m n : ℕ} {body : List UInt8} (hm : m ≤ body.length) (hn : n ≤ body.length)
    (h : body.take m = body.take n) : m = n := by
  have hlen := congrArg List.length h
  rwa [List.length_take, List.length_take, Nat.min_eq_left hm, Nat.min_eq_left hn] at hlen

/-! ### The server -/

def LengthHeader.buffer (header : LengthHeader) : Memory :=
  Memory.write (fun _ => 0) 0 header.text

theorem LengthHeader.cString_buffer (header : LengthHeader) :
    header.buffer.cString = header.text := by
  have hnil (limit i : ℕ) : Memory.cStringAt (fun _ => 0) limit i = [] := by
    cases limit with
    | zero => rfl
    | succ limit => rfl
  have hstring := Memory.cString_write (fun _ => 0) (not_mem_headerText header.isLine_lines)
    header.length_le
  rwa [hnil, List.append_nil] at hstring

theorem receive_iff (header : LengthHeader) :
    (∀ ops disk filename headers headerLen conn, ops.dirReady = true → ops.opens = true →
      header.text <+: headers.cString →
      receiveHttpFile ops disk filename headers headerLen conn =
        putOf ops disk filename headers headerLen header.number conn) ↔
      lengthOf header.text = some header.number := by
  constructor
  · intro h
    have hempty : bodyInBuffer header.buffer header.text.length = [] :=
      bodyInBuffer_of_matchedLast header.isHeader_text.first header.length_le _
    have hput (conn : Conn) := h .ordinary .empty [] header.buffer header.text.length conn rfl rfl
      (header.cString_buffer ▸ List.prefix_rfl)
    have hreceived (length : ℕ) (conn : Conn) :
        bodyReceived .ordinary header.buffer header.text.length length conn =
          receiveBody true length [] [] [] conn := by
      rw [bodyReceived, firstBytes, hempty, List.take_nil]
      rfl
    cases hlength : lengthOf header.text with
    | none =>
        have hnot : ∀ length, ¬ PutAccepted .ordinary header.buffer length := by
          rintro length ⟨-, hsome, -⟩
          rw [header.cString_buffer, hlength] at hsome
          cases hsome
        have hsent := congrArg HttpServed.sent (hput [])
        rw [receiveHttpFile_refused hnot, header.cString_buffer, if_pos ⟨rfl, hlength⟩,
          putOf] at hsent
        dsimp only at hsent
        split at hsent
        · exact absurd hsent (by decide)
        · exact absurd hsent (by decide)
    | some m =>
        have haccepted : PutAccepted .ordinary header.buffer m :=
          ⟨rfl, header.cString_buffer ▸ hlength, rfl⟩
        have hm : m ≤ (List.replicate (m + header.number) (0 : UInt8)).length := by
          rw [List.length_replicate]
          omega
        have hn : header.number ≤ (List.replicate (m + header.number) (0 : UInt8)).length := by
          rw [List.length_replicate]
          omega
        have hsame := hput (unread (List.replicate (m + header.number) 0) [])
        rw [receiveHttpFile_eq_putOf _ _ _ _ haccepted, putOf, putOf, hreceived, hreceived,
          receiveBody_unread true hm, receiveBody_unread true hn] at hsame
        have hfile := congrArg (fun served => served.disk (pathIn uploadDir [])) hsame
        rw [Disk.store_self, Disk.store_self, Option.some.injEq, FileOps.flushed,
          FileOps.flushed] at hfile
        have hlost : FileOps.ordinary.lost = 0 := rfl
        rw [hlost, Nat.sub_zero, Nat.sub_zero, List.take_length, List.take_length] at hfile
        exact congrArg some (eq_of_take_eq hm hn hfile)
  · intro h ops disk filename headers headerLen conn hready hopens hprefix
    obtain ⟨following, hstring⟩ := hprefix
    refine receiveHttpFile_eq_putOf disk filename headerLen conn ⟨hready, ?_, hopens⟩
    rw [← hstring]
    exact lengthOf_text_append header h following

/-! ### The client -/

theorem LengthHeader.take_stops (header : LengthHeader) :
    httpPattern <:+ header.text.take httpHeaderSize ∨
      (header.text.take httpHeaderSize).length = httpHeaderSize := by
  rcases Nat.lt_or_ge header.text.length httpHeaderSize with hshort | hlong
  · rw [List.take_of_length_le hshort.le]
    exact Or.inl header.isHeader_text.ends
  · exact Or.inr (List.length_take_of_le hlong)

theorem accepted_of_sent (header : LengthHeader) {session : HttpSession} {field : List UInt8}
    (hconnected : session.connected = true) (hsent : session.headerSent = true)
    (hready : session.ops.dirReady = true) (hopens : session.ops.opens = true)
    (hreply : header.text <+: delivered session.reply) :
    GetAccepted session field ↔ NoNotFound header ∧
      strcasestrPortable (header.text.take httpHeaderSize) contentLengthName = some field := by
  have hreceived := responseHeader_of_sent header.isHeader_text hreply
  have hstring := takeWhile_take_text header httpHeaderSize
  constructor
  · intro h
    have hfound := h.found
    have hfield := h.field_eq
    rw [hreceived, hstring] at hfound hfield
    exact ⟨hfound, hfield⟩
  · rintro ⟨hnone, hfield⟩
    have hstored : untilPattern httpHeaderSize httpPattern (delivered session.reply) =
        header.text.take httpHeaderSize := (recvUntil_stored session.reply).symm.trans hreceived
    refine ⟨hconnected, hsent, ?_, ?_, ?_, hready, hopens⟩
    · rw [recvUntil_pos_iff (by decide) httpPattern_ne_nil]
      refine ⟨fun hnil => ?_, Or.inr ?_⟩
      · rw [hnil, List.prefix_nil, header.text_eq] at hreply
        exact absurd hreply (by simp [joinLines, LengthHeader.front])
      · rw [StopsWithin, hstored]
        exact header.take_stops
    · rw [hreceived, hstring]
      exact hnone
    · rw [hreceived, hstring]
      exact hfield

/-- A client that meets no error gets the header, and `body` at once. -/
def LengthHeader.session (header : LengthHeader) (body : List UInt8) : HttpSession :=
  ⟨true, true, true, unread (header.text.take httpHeaderSize)
    (unread (header.text.drop httpHeaderSize ++ body) []), .ordinary, false⟩

theorem LengthHeader.delivered_session (header : LengthHeader) (body : List UInt8) :
    delivered (header.session body).reply = header.text ++ body := by
  rw [LengthHeader.session, delivered_unread, delivered_unread, delivered_nil, List.append_nil,
    ← List.append_assoc, List.take_append_drop]

theorem LengthHeader.responseRest_session (header : LengthHeader) (body : List UInt8) :
    responseRest (header.session body).reply =
      unread (header.text.drop httpHeaderSize ++ body) [] := by
  have hne : header.text.take httpHeaderSize ≠ [] := by
    rcases header.take_stops with hends | hfull
    · exact fun hnil => httpPattern_ne_nil (List.suffix_nil.mp (hnil ▸ hends))
    · exact fun hnil => by
        rw [hnil] at hfull
        exact absurd hfull (by decide)
  have hlast : MatchedLast httpPattern (header.text.take httpHeaderSize) := by
    intro k hk
    rw [List.length_take] at hk
    rw [List.take_take, Nat.min_eq_left (by omega)]
    exact header.isHeader_text.first k (by omega)
  rw [responseRest, LengthHeader.session, recvUntil_unread httpPattern_ne_nil hne
    (List.length_take_le _ _) hlast (header.take_stops.imp_right Or.inl)]

theorem saved_session (header : LengthHeader) (disk : Disk) (file : FileMagnet)
    {body : List UInt8} {length : ℕ} (hlen : length ≤ body.length) :
    (header.session body).saved disk file (receiveBody false length []
      (header.session body).ops.writes (header.session body).ops.again
        (responseRest (header.session body).reply)) =
      ⟨0, disk.store (pathIn downloadDir file.nameText)
        ((header.text.drop httpHeaderSize ++ body).take length), true⟩ := by
  have hwhole : length ≤ (header.text.drop httpHeaderSize ++ body).length := by
    rw [List.length_append]
    omega
  have hbody := receiveBody_unread false hwhole
  rw [header.responseRest_session]
  exact congrArg ((header.session body).saved disk file) hbody

theorem download_iff (header : LengthHeader) :
    (∀ session disk file, session.connected = true → session.headerSent = true →
      session.ops.dirReady = true → session.ops.opens = true →
      header.text <+: delivered session.reply →
      downloadHttpFile session disk file =
        session.saved disk file (receiveBody false header.number [] session.ops.writes
          session.ops.again (responseRest session.reply))) ↔
      NoNotFound header ∧
        (strcasestrPortable (header.text.take httpHeaderSize) contentLengthName).map
          expectedLength = some header.number := by
  constructor
  · intro h
    have hsent (body : List UInt8) : header.text <+: delivered (header.session body).reply :=
      header.delivered_session body ▸ List.prefix_append _ _
    have haccepted (body field : List UInt8) :=
      @accepted_of_sent header (header.session body) field rfl rfl rfl rfl (hsent body)
    let file : FileMagnet := ⟨zeroBytes 32, none, 0⟩
    have hdownload (body : List UInt8) (hlen : header.number ≤ body.length) :
        downloadHttpFile (header.session body) .empty file = ⟨0, _, true⟩ :=
      (h _ _ _ rfl rfl rfl rfl (hsent body)).trans (saved_session header .empty file hlen)
    -- the download is accepted, since it returns 0
    obtain ⟨field, hfield⟩ := exists_getAccepted (congrArg GetResult.ret
      (hdownload (List.replicate header.number 0) (List.length_replicate).ge))
    obtain ⟨hnone, hfound⟩ := (haccepted _ _).mp hfield
    refine ⟨hnone, ?_⟩
    rw [hfound, Option.map_some]
    generalize hbody : List.replicate (header.number + expectedLength field) (0 : UInt8) = body
    have hlen : body.length = header.number + expectedLength field := by
      rw [← hbody, List.length_replicate]
    have hsame := (downloadHttpFile_accepted ((haccepted body field).mpr ⟨hnone, hfound⟩)).symm.trans
      (hdownload body (by omega))
    rw [saved_session header .empty file (by omega)] at hsame
    have hfile := congrArg (fun got => got.disk (pathIn downloadDir file.nameText)) hsame
    rw [Disk.store_self, Disk.store_self, Option.some.injEq] at hfile
    refine congrArg some (eq_of_take_eq ?_ ?_ hfile)
    · rw [List.length_append]
      omega
    · rw [List.length_append]
      omega
  · rintro ⟨hnone, hread⟩ session disk file hconnected hsent hready hopens hreply
    obtain ⟨field, hfield, hlength⟩ := Option.map_eq_some_iff.mp hread
    rw [downloadHttpFile_accepted ((accepted_of_sent header hconnected hsent hready hopens
      hreply).mpr ⟨hnone, hfield⟩), hlength]

/-- Where the whole header gives the number, its part gives it if the name is in it, with the
digits up to which it goes. -/
theorem readsCut_iff (header : LengthHeader) (h : lengthOf header.text = some header.number) :
    (strcasestrPortable (header.text.take httpHeaderSize) contentLengthName).map
      expectedLength = some header.number ↔ ReadsCut header := by
  rw [Option.map_eq_some_iff]
  constructor
  · rintro ⟨field, hfield, hlength⟩
    -- the name is spelled in the part as it is in the whole
    obtain ⟨u, v, hfirst, -⟩ := lengthOf_eq_some_iff.mp h
    have hwhole := field_append hfield (header.text.drop httpHeaderSize)
    rw [List.take_append_drop, firstName_iff.mpr ⟨u, hfirst⟩, Option.some.injEq] at hwhole
    have hname : contentLengthName <+: field :=
      List.prefix_of_prefix_length_le (hwhole ▸ List.prefix_append _ _)
        (List.prefix_append field _) (length_le_of_field hfield)
    obtain ⟨w, rfl⟩ := hname
    obtain ⟨u', hfirst'⟩ := firstName_iff.mp hfield
    rw [expectedLength, scanContentLength_exact] at hlength
    exact ⟨u', w, hfirst', hlength⟩
  · rintro ⟨u, v, hfirst, hscan⟩
    refine ⟨_, firstName_iff.mpr ⟨u, hfirst⟩, ?_⟩
    rw [expectedLength, scanContentLength_exact]
    exact hscan

/-- Both sides use the number exactly where it is read as it is, and is in the part that a
client receives of a long header, with nothing that looks like a missing file. -/
theorem usesLength_iff (header : LengthHeader) :
    UsesLength header ↔
      ReadsNumber header ∧ (httpHeaderSize < header.text.length → ReadsCut header) ∧
        NoNotFound header := by
  rw [← readsNumber_iff]
  constructor
  · intro h
    have hlength := (receive_iff header).mp h.receive
    obtain ⟨hnone, hread⟩ := (download_iff header).mp h.download
    exact ⟨hlength, fun _ => (readsCut_iff header hlength).mp hread, hnone⟩
  · rintro ⟨hlength, hcut, hnone⟩
    refine ⟨(receive_iff header).mpr hlength, (download_iff header).mpr ⟨hnone, ?_⟩⟩
    rcases Nat.lt_or_ge httpHeaderSize header.text.length with hlong | hshort
    · exact (readsCut_iff header hlength).mpr (hcut hlong)
    · obtain ⟨field, hfield, hscan⟩ := Option.bind_eq_some_iff.mp hlength
      rw [List.take_of_length_le hshort, hfield, Option.map_some, expectedLength, hscan,
        Option.getD_some]

def smallLetters : LengthHeader where
  first := ascii "HTTP/1.1 200 OK"
  before := []
  name := ascii "content-length:"
  value := ascii " 5"
  after := []
  number := 5
  isLine_first := by decide
  isLine_before := List.forall_mem_nil _
  isLine_after := List.forall_mem_nil _
  before_other := List.forall_mem_nil _
  after_other := List.forall_mem_nil _
  name_eq := by decide
  isText_value := by decide
  number_eq := by decide +kernel
  length_le := by decide +kernel

/-- The field is found, but its number is not read. -/
theorem not_usesLength_smallLetters : ¬ UsesLength smallLetters := by
  intro h
  have hlength := (receive_iff smallLetters).mp h.receive
  have hnone : lengthOf smallLetters.text = none := by decide
  rw [hnone] at hlength
  cases hlength

end Kademlia.Http
