import Kademlia.Http.ContentLength

/-!
Leaks between requests.

A request is parsed as a string in a buffer that earlier requests were received
into, and nothing puts a terminator behind what was received. Whether the rest
of an earlier request takes part depends on how far the parser gets in the
request itself: it must find the end of the path there and, for a PUT, the
beginning of the length.
-/

namespace Kademlia.Http

open Foundations CString Model Framing

/-- The same is sent, opened and stored. -/
structure SameEffect (a b : HttpServed) : Prop where
  sent : a.sent = b.sent
  opened : a.opened = b.opened
  disk : a.disk = b.disk

theorem SameEffect.refl (a : HttpServed) : SameEffect a a := ⟨rfl, rfl, rfl⟩

/-- The request that `conn` delivers has the same effect whatever the buffer held
before. The memory behind the buffer is the same. -/
def SameForAllBuffers (conn : Conn) : Prop :=
  ∀ buf buf' : Memory, (∀ i, bufSize ≤ i → buf i = buf' i) → ∀ ops disk,
    SameEffect (getHttpRequest ops disk buf conn).1 (getHttpRequest ops disk buf' conn).1

/-- The same of the request `bytes`, with `rest` behind it on the connection. -/
def SameInBuffers (bytes : List UInt8) (rest : Conn) : Prop :=
  ∀ buf buf' : Memory, (∀ i, bufSize ≤ i → buf i = buf' i) → ∀ ops disk,
    SameEffect
      (respond ops disk ((buf.write 0 bytes).bytes 0 4).toList (buf.write 0 bytes).cString rest)
      (respond ops disk ((buf'.write 0 bytes).bytes 0 4).toList (buf'.write 0 bytes).cString rest)

theorem sameForAllBuffers_iff {conn : Conn}
    (h : ¬ (recvUntil conn bufSize httpPattern).ret < 0) :
    SameForAllBuffers conn ↔
      SameInBuffers (recvUntil conn bufSize httpPattern).stored
        (recvUntil conn bufSize httpPattern).rest := by
  unfold SameForAllBuffers SameInBuffers
  simp only [getHttpRequest_eq_respond h]

/-! ### What settles a request -/

def pathText (s : List UInt8) : List UInt8 := skipSpace (s.drop 4)

/-- There is a space behind the path, or the path is longer than is read. -/
def PathClosed (s : List UInt8) : Prop :=
  (word (pathText s)).length < (pathText s).length ∨ 255 ≤ (pathText s).length

/-- The bytes received settle what the request means. -/
def Settled (s : List UInt8) : Prop :=
  -- nothing of the earlier contents is left, or there is a terminator
  bufSize ≤ s.length ∨ 0 ∈ s ∨
  -- another method
  (¬ s <+: ascii "GET " ∧ ¬ ascii "GET " <+: s ∧ ¬ s <+: ascii "PUT " ∧ ¬ ascii "PUT " <+: s) ∨
  (ascii "GET " <+: s ∧ PathClosed s) ∨
  (ascii "PUT " <+: s ∧
    (PathClosed s ∧ ((word (pathText s)).length ≤ 1 ∨ (lengthVerdict s).isSome = true) ∨
      2 ≤ (pathText s).length ∧ lengthVerdict s = some false))

theorem pathOf_eq (s : List UInt8) : pathOf s = ((word (pathText s)).take 255).tail := rfl

variable {s : List UInt8}

theorem pathOf_eq_nil_iff : pathOf s = [] ↔ (word (pathText s)).length ≤ 1 := by
  rw [pathOf_eq, ← List.length_eq_zero_iff, List.length_tail, List.length_take]
  omega

theorem pathText_append (h : pathText s ≠ []) (hlen : 4 ≤ s.length) (t : List UInt8) :
    pathText (s ++ t) = pathText s ++ t := by
  rw [pathText, List.drop_append_of_le_length hlen, skipSpace_append h]
  rfl

theorem PathClosed.ne_nil (h : PathClosed s) : pathText s ≠ [] := by
  intro hnil
  rcases h with h | h
  · rw [hnil] at h
    cases h
  · rw [hnil] at h
    cases h

theorem PathClosed.pathOf_append (h : PathClosed s) (hlen : 4 ≤ s.length) (t : List UInt8) :
    pathOf (s ++ t) = pathOf s := by
  rw [pathOf_eq, pathOf_eq, pathText_append h.ne_nil hlen]
  by_cases hlt : (word (pathText s)).length < (pathText s).length
  · rw [word_append_of_lt hlt]
  · have hlong : 255 ≤ (pathText s).length := h.resolve_left hlt
    have hword : word (pathText s) = pathText s := word_eq_self_of_le (not_lt.mp hlt)
    have hall : ∀ b ∈ pathText s, isSpace b = false := fun b hb =>
      isSpace_of_mem_word (hword.symm ▸ hb)
    rw [word_append hall, List.take_append_of_le_length hlong, hword]

theorem isSpace_of_open (h : ¬ PathClosed s) : ∀ b ∈ pathText s, isSpace b = false := by
  have hword : word (pathText s) = pathText s :=
    word_eq_self_of_le (not_lt.mp fun hlt => h (Or.inl hlt))
  exact fun b hb => isSpace_of_mem_word (hword.symm ▸ hb)

theorem pathOf_append_of_open (h : ¬ PathClosed s) (hlen : 4 ≤ s.length) {t : List UInt8}
    (ht : ∀ b ∈ t, isSpace b = false) : pathOf (s ++ t) = ((pathText s ++ t).take 255).tail := by
  have htext : pathText (s ++ t) = pathText s ++ t := by
    by_cases hnil : pathText s = []
    · rw [pathText, List.drop_append_of_le_length hlen, skipSpace_append_of_nil hnil, hnil]
      cases t with
      | nil => rfl
      | cons b t => exact skipSpace_eq_self (ht b List.mem_cons_self) t
    · exact pathText_append hnil hlen t
  have hwhole : word (pathText s ++ t) = pathText s ++ t := by
    rw [word_append (isSpace_of_open h), ← List.append_nil t, word_append ht]
    simp [word]
  rw [pathOf_eq, htext, hwhole]

theorem length_lt_of_open (h : ¬ PathClosed s) : (pathText s).length < 255 :=
  not_le.mp fun hle => h (Or.inr hle)

theorem pathOf_append_ne_nil (hopen : ¬ PathClosed s) (htwo : 2 ≤ (pathText s).length)
    (hlen : 4 ≤ s.length) (t : List UInt8) : pathOf (s ++ t) ≠ [] := by
  have hne : pathText s ≠ [] := by
    intro hnil
    rw [hnil] at htwo
    cases htwo
  rw [Ne, pathOf_eq_nil_iff, pathText_append hne hlen, word_append (isSpace_of_open hopen),
    List.length_append]
  omega

/-! ### Requests that are settled -/

/-- At the end of the stream it does not matter how much is expected. -/
theorem receiveBody_nil (checked : Bool) (contentLength : ℕ) (written : List UInt8)
    (writes : List (Option ℕ)) (again : List Bool) :
    (receiveBody checked contentLength written writes again []).written = written ∧
      ((receiveBody checked contentLength written writes again []).stop = .complete ∨
        (receiveBody checked contentLength written writes again []).stop = .ended) := by
  unfold receiveBody
  cases hfuel : contentLength + again.length with
  | zero => exact ⟨rfl, Or.inl rfl⟩
  | succ fuel =>
      rw [receiveLoop]
      by_cases hzero : contentLength = 0
      · rw [if_pos hzero]
        exact ⟨rfl, Or.inl rfl⟩
      · have hret : (recvAll [] (min contentLength chunkSize)).ret = 0 := by
          rw [recvAll, recvAllLoop]
          split <;> rfl
        rw [if_neg hzero]
        dsimp only
        rw [hret, if_neg (lt_irrefl 0), if_pos rfl]
        exact ⟨rfl, Or.inr rfl⟩

theorem storeBody_nil (ops : FileOps) (disk : Disk) (filename : List UInt8) (m n : ℕ) :
    SameEffect (storeBody ops disk filename (some m) []) (storeBody ops disk filename (some n) [])
    := by
  obtain ⟨hm, hmstop⟩ := receiveBody_nil true m [] ops.writes ops.again
  obtain ⟨hn, hnstop⟩ := receiveBody_nil true n [] ops.writes ops.again
  unfold storeBody
  split
  · exact .refl _
  · dsimp only
    split
    · exact .refl _
    · exact ⟨rfl, rfl, by rw [hm, hn]⟩

/-- A request that was received whole does not end in a digit. -/
theorem isDigit_getLast_of_suffix (h : httpPattern <:+ s) {b : UInt8}
    (hb : s.getLast? = some b) : isDigit b = false := by
  obtain ⟨before, rfl⟩ := h
  rw [List.getLast?_append_of_ne_nil before httpPattern_ne_nil] at hb
  rw [← Option.some.inj hb]
  decide

section Continuations

variable {conn : Conn} (hend : httpPattern <:+ s ∨ conn = []) (ops : FileOps) (disk : Disk)
  (t t' : List UInt8)
include hend

/-- The length is settled, whatever follows the request in the buffer. -/
theorem storeBody_append_same {verdict : Bool} (hverdict : lengthVerdict s = some verdict)
    (filename : List UInt8) :
    SameEffect (storeBody ops disk filename (lengthOf (s ++ t)) conn)
      (storeBody ops disk filename (lengthOf (s ++ t')) conn) := by
  rcases hend with hend | rfl
  · -- the number is in front of the terminator
    have hlast : ∀ b, s.getLast? = some b → isDigit b = false :=
      fun _ => isDigit_getLast_of_suffix hend
    have hsettled : (lengthVerdict s).isSome = true := by rw [hverdict]; rfl
    rw [lengthOf_append hsettled hlast, lengthOf_append hsettled hlast]
    exact .refl _
  · cases verdict with
    | false =>
        rw [lengthOf_append_eq_none hverdict, lengthOf_append_eq_none hverdict]
        exact .refl _
    | true =>
        have hsome := isSome_lengthOf_append hverdict
        obtain ⟨m, hm⟩ := Option.isSome_iff_exists.mp (hsome t)
        obtain ⟨n, hn⟩ := Option.isSome_iff_exists.mp (hsome t')
        rw [hm, hn]
        exact storeBody_nil ops disk filename m n

theorem respond_put_append_same (hlong : 4 ≤ s.length)
    (h : PathClosed s ∧ ((word (pathText s)).length ≤ 1 ∨ (lengthVerdict s).isSome = true) ∨
      2 ≤ (pathText s).length ∧ lengthVerdict s = some false) :
    SameEffect (respond ops disk (ascii "PUT ") (s ++ t) conn)
      (respond ops disk (ascii "PUT ") (s ++ t') conn) := by
  rw [respond_of_put, respond_of_put]
  by_cases hclosed : PathClosed s
  · rw [hclosed.pathOf_append hlong, hclosed.pathOf_append hlong]
    split
    · exact .refl _
    · next hne =>
        obtain ⟨verdict, hverdict⟩ : ∃ verdict, lengthVerdict s = some verdict := by
          rcases h with ⟨-, hshort | hverdict⟩ | ⟨-, hverdict⟩
          · exact absurd (pathOf_eq_nil_iff.mpr hshort) hne
          · exact Option.isSome_iff_exists.mp hverdict
          · exact ⟨false, hverdict⟩
        exact storeBody_append_same hend ops disk t t' hverdict (pathOf s)
  · -- the path goes on, but no length will be found
    obtain ⟨htwo, hverdict⟩ := h.resolve_left fun hleft => hclosed hleft.1
    rw [lengthOf_append_eq_none hverdict, lengthOf_append_eq_none hverdict,
      if_neg (pathOf_append_ne_nil hclosed htwo hlong t),
      if_neg (pathOf_append_ne_nil hclosed htwo hlong t')]
    exact .refl _

theorem respond_append_same (h : Settled s) (hlong : 4 ≤ s.length) (hfull : s.length < bufSize)
    (hnul : 0 ∉ s) :
    SameEffect (respond ops disk (s.take 4) (s ++ t) conn)
      (respond ops disk (s.take 4) (s ++ t') conn) := by
  have htake : ∀ {method : List UInt8}, method.length = 4 → (method <+: s ↔ s.take 4 = method) := by
    intro method hmethod
    rw [List.prefix_iff_eq_take, hmethod, eq_comm]
  rcases h with hle | hmem | ⟨-, hget, -, hput⟩ | ⟨hget, hclosed⟩ | ⟨hput, h⟩
  · omega
  · exact absurd hmem hnul
  · rw [htake (by decide)] at hget hput
    rw [respond_other _ _ _ _ hget hput, respond_other _ _ _ _ hget hput]
    exact .refl _
  · rw [(htake (by decide)).mp hget, respond_of_get, respond_of_get,
      hclosed.pathOf_append hlong, hclosed.pathOf_append hlong]
    exact .refl _
  · rw [(htake (by decide)).mp hput]
    exact respond_put_append_same hend ops disk t t' hlong h

end Continuations

/-! ### The first four bytes -/

theorem take_toList_bytes (m : Memory) (offset : ℕ) {k n : ℕ} (h : k ≤ n) :
    (m.bytes offset n).toList.take k = (m.bytes offset k).toList := by
  rw [Memory.bytes, Memory.bytes, List.Vector.toList_ofFn, List.Vector.toList_ofFn]
  apply List.ext_getElem
  · simpa using h
  · intro i _ _
    simp

theorem toList_bytes_write_of_le (buf : Memory) {bytes : List UInt8} {n : ℕ}
    (h : n ≤ bytes.length) : ((buf.write 0 bytes).bytes 0 n).toList = bytes.take n :=
  (buf.toList_bytes_write 0 (by omega : 0 + n ≤ bytes.length)).trans (by rw [List.drop_zero])

theorem prefix_toList_bytes (buf : Memory) {bytes : List UInt8} {n : ℕ} (h : bytes.length ≤ n) :
    bytes <+: ((buf.write 0 bytes).bytes 0 n).toList := by
  rw [List.prefix_iff_eq_take, take_toList_bytes _ 0 h, toList_bytes_write_of_le buf le_rfl,
    List.take_length]

/-- A request of less than four bytes that cannot become a known method. -/
theorem respond_short {bytes : List UInt8} (hshort : bytes.length < 4)
    (hget : ¬ bytes <+: ascii "GET ") (hput : ¬ bytes <+: ascii "PUT ") (buf : Memory)
    (ops : FileOps) (disk : Disk) (s : List UInt8) (conn : Conn) :
    respond ops disk ((buf.write 0 bytes).bytes 0 4).toList s conn =
      ⟨methodNotAllowed, none, disk, conn⟩ := by
  have hstart := prefix_toList_bytes buf hshort.le
  apply respond_other
  · intro heq
    exact hget (heq ▸ hstart)
  · intro heq
    exact hput (heq ▸ hstart)

theorem Settled.of_short {bytes : List UInt8} (h : Settled bytes) (hshort : bytes.length < 4) :
    ¬ bytes <+: ascii "GET " ∧ ¬ bytes <+: ascii "PUT " := by
  rcases h with hle | hmem | ⟨hget, -, hput, -⟩ | ⟨hget, -⟩ | ⟨hput, -⟩
  · have hsize : bufSize = 16384 := rfl
    omega
  · refine ⟨fun hstart => ?_, fun hstart => ?_⟩
    · exact absurd (hstart.mem hmem) (by decide)
    · exact absurd (hstart.mem hmem) (by decide)
  · exact ⟨hget, hput⟩
  · exact absurd hget.length_le (not_le.mpr hshort)
  · exact absurd hput.length_le (not_le.mpr hshort)

theorem Settled.same {bytes : List UInt8} (h : Settled bytes) {rest : Conn}
    (hend : httpPattern <:+ bytes ∨ bytes.length = bufSize ∨ rest = []) :
    SameInBuffers bytes rest := by
  intro buf buf' hbehind ops disk
  by_cases hfull : bufSize ≤ bytes.length
  · have hsame : buf.write 0 bytes = buf'.write 0 bytes := by
      ext1 i
      by_cases hi : i < bytes.length
      · exact Memory.agree_write buf buf' bytes i hi
      · have hnone : bytes[i]? = none := List.getElem?_eq_none (not_lt.mp hi)
        simp [Memory.write, hnone, hbehind i (by omega)]
    rw [hsame]
    exact .refl _
  · have hlt := not_le.mp hfull
    have hlen : bytes.length ≤ 2 ^ 64 := hlt.le.trans (by decide)
    by_cases hlong : 4 ≤ bytes.length
    · rw [toList_bytes_write_of_le buf hlong, toList_bytes_write_of_le buf' hlong]
      by_cases hnul : 0 ∈ bytes
      · rw [buf.cString_write_of_mem hnul hlen, buf'.cString_write_of_mem hnul hlen]
        exact .refl _
      · rw [buf.cString_write hnul hlen, buf'.cString_write hnul hlen]
        have hwhole := hend.imp_right fun hend => hend.resolve_left hlt.ne
        exact respond_append_same hwhole ops disk _ _ h hlong hlt hnul
    · obtain ⟨hget, hput⟩ := h.of_short (not_le.mp hlong)
      rw [respond_short (not_le.mp hlong) hget hput, respond_short (not_le.mp hlong) hget hput]
      exact .refl _

/-! ### Requests that are not settled

They are told apart by a buffer that is clear behind them and one in which they
go on. -/

def bufferOf (text : List UInt8) : Memory := Memory.write (fun _ => 0) 0 text

def clearedBuffer (text : List UInt8) : Memory := fun i =>
  if i < bufSize then 0 else bufferOf text i

theorem cStringAt_zeros (limit i : ℕ) : Memory.cStringAt (fun _ => 0) limit i = [] := by
  cases limit with
  | zero => rfl
  | succ limit => rw [Memory.cStringAt, if_pos rfl]

theorem bufferOf_write {bytes text : List UInt8} (h : bytes <+: text) :
    (bufferOf text).write 0 bytes = bufferOf text := by
  obtain ⟨more, rfl⟩ := h
  ext1 i
  by_cases hi : i < bytes.length
  · simp [Memory.write, bufferOf, List.getElem?_eq_getElem hi, List.getElem?_append_left hi]
  · have hnone : bytes[i]? = none := List.getElem?_eq_none (not_lt.mp hi)
    simp [Memory.write, hnone]

theorem cString_bufferOf {text : List UInt8} (hnul : 0 ∉ text) (hlen : text.length ≤ 2 ^ 64) :
    (bufferOf text).cString = text := by
  rw [bufferOf, Memory.cString_write _ hnul hlen, cStringAt_zeros, List.append_nil]

theorem cString_clearedBuffer {bytes : List UInt8} (text : List UInt8) (hnul : 0 ∉ bytes)
    (hlt : bytes.length < bufSize) : ((clearedBuffer text).write 0 bytes).cString = bytes := by
  have hsize : bufSize = 16384 := rfl
  have hlimit : 2 ^ 64 - bytes.length = 2 ^ 64 - bytes.length - 1 + 1 := by omega
  have hzero : clearedBuffer text bytes.length = 0 := if_pos hlt
  rw [Memory.cString_write _ hnul (by omega), hlimit, Memory.cStringAt, if_pos hzero,
    List.append_nil]

theorem length_pathOf_le (s : List UInt8) : (pathOf s).length ≤ 254 := by
  rw [pathOf_eq, List.length_tail, List.length_take]
  omega

theorem pathOf_append_ne (hopen : ¬ PathClosed s) (hlong : 4 ≤ s.length) :
    pathOf (s ++ ascii "ab") ≠ pathOf s := by
  have hlt := length_lt_of_open hopen
  have hmore := pathOf_append_of_open hopen hlong (t := ascii "ab") (by decide +kernel)
  have hnone := pathOf_append_of_open hopen hlong (t := []) (by simp)
  have hab : (ascii "ab").length = 2 := rfl
  rw [List.append_nil, List.append_nil] at hnone
  intro heq
  have hlen := congrArg List.length heq
  rw [hmore, hnone, List.length_tail, List.length_tail, List.length_take, List.length_take,
    List.length_append, hab] at hlen
  omega

def emptyFiles : Disk := ⟨[], fun _ => some []⟩

theorem opened_get (s : List UInt8) (conn : Conn) :
    (respond .ordinary emptyFiles (ascii "GET ") s conn).opened =
      if pathOf s = [] then none else some (pathIn uploadDir (pathOf s)) := by
  rw [respond_of_get]
  split <;> rfl

theorem opened_put (s : List UInt8) (conn : Conn) :
    (respond .ordinary emptyFiles (ascii "PUT ") s conn).opened =
      if pathOf s = [] then none
      else (lengthOf s).map fun _ => pathIn uploadDir (pathOf s) := by
  rw [respond_of_put]
  split
  · rfl
  · unfold storeBody
    cases lengthOf s <;> rfl

theorem sent_put_of_nil {s : List UInt8} (h : pathOf s = []) (conn : Conn) :
    (respond .ordinary emptyFiles (ascii "PUT ") s conn).sent = notFound := by
  rw [respond_of_put, if_pos h]

theorem sent_storeBody_ne (ops : FileOps) (disk : Disk) (filename : List UInt8)
    (length : Option ℕ) (conn : Conn) :
    (storeBody ops disk filename length conn).sent ≠ notFound := by
  have hserver : internalServerError ≠ notFound := by decide
  have hbad : badRequest ≠ notFound := by decide
  have hcreated : fileCreated ≠ notFound := by decide
  unfold storeBody
  split
  · dsimp only
    exact hserver
  · cases length with
    | none => exact hbad
    | some n =>
        dsimp only
        split
        · dsimp only
          exact hserver
        · dsimp only
          split
          · exact hcreated
          · exact hserver

theorem sent_put_of_ne_nil {s : List UInt8} (h : pathOf s ≠ []) (conn : Conn) :
    (respond .ordinary emptyFiles (ascii "PUT ") s conn).sent ≠ notFound := by
  rw [respond_of_put, if_neg h]
  exact sent_storeBody_ne _ _ _ _ conn

theorem sent_put_of_none {s : List UInt8} (h : pathOf s ≠ []) (hlength : lengthOf s = none)
    (conn : Conn) : (respond .ordinary emptyFiles (ascii "PUT ") s conn).sent = badRequest := by
  rw [respond_of_put, if_neg h, hlength]
  rfl

theorem zero_mem_bytes {bytes : List UInt8} (hshort : bytes.length < 4) (text : List UInt8) :
    0 ∈ (((clearedBuffer text).write 0 bytes).bytes 0 4).toList := by
  have hsize : bufSize = 16384 := rfl
  have hzero : clearedBuffer text bytes.length = 0 := if_pos (by omega)
  rw [Memory.bytes, List.Vector.toList_ofFn, List.mem_ofFn]
  exact ⟨⟨bytes.length, hshort⟩, by simp [Memory.write, hzero]⟩

section Unsettled

variable {bytes : List UInt8} {rest : Conn} (h : SameInBuffers bytes rest)
  (hlt : bytes.length < bufSize)
include h hlt

/-- The request must mean the same when the buffer goes on with the rest of
`text`. -/
theorem same_bufferOf {text : List UInt8} (hstart : bytes <+: text) (hnul : 0 ∉ text)
    (hlong : 4 ≤ text.length) (hlen : text.length ≤ 2 ^ 64) (ops : FileOps) (disk : Disk) :
    SameEffect (respond ops disk (text.take 4) text rest)
      (respond ops disk (((clearedBuffer text).write 0 bytes).bytes 0 4).toList bytes rest) := by
  have hbehind : ∀ i, bufSize ≤ i → bufferOf text i = clearedBuffer text i := by
    intro i hi
    rw [clearedBuffer, if_neg (not_lt.mpr hi)]
  have hsame := h (bufferOf text) (clearedBuffer text) hbehind ops disk
  rw [bufferOf_write hstart, cString_bufferOf hnul hlen,
    cString_clearedBuffer text (fun hmem => hnul (hstart.mem hmem)) hlt, bufferOf,
    toList_bytes_write_of_le _ hlong] at hsame
  exact hsame

theorem same_append (hlong : 4 ≤ bytes.length) (hnul : 0 ∉ bytes) {t : List UInt8}
    (ht : 0 ∉ t) (htlen : t.length ≤ 17) (ops : FileOps) (disk : Disk) :
    SameEffect (respond ops disk (bytes.take 4) (bytes ++ t) rest)
      (respond ops disk (bytes.take 4) bytes rest) := by
  have hsize : bufSize = 16384 := rfl
  have hsame := same_bufferOf h hlt (List.prefix_append _ t)
    (by rw [List.mem_append, not_or]; exact ⟨hnul, ht⟩)
    (by rw [List.length_append]; omega) (by rw [List.length_append]; omega) ops disk
  rwa [toList_bytes_write_of_le _ hlong, List.take_append_of_le_length hlong] at hsame

/-- A buffer in which the request goes on with `ab`. -/
theorem same_append_ab (hlong : 4 ≤ bytes.length) (hnul : 0 ∉ bytes) :
    SameEffect (respond .ordinary emptyFiles (bytes.take 4) (bytes ++ ascii "ab") rest)
      (respond .ordinary emptyFiles (bytes.take 4) bytes rest) :=
  same_append h hlt hlong hnul (by decide) (by decide) .ordinary emptyFiles

/-- In a clear buffer a short request has no known method, also if it begins one
in another buffer. -/
theorem same_of_short (hshort : bytes.length < 4) {method : List UInt8}
    (hstart : bytes <+: method) (hmethod : method.length = 4) (hnul : 0 ∉ method) :
    SameEffect (respond .ordinary emptyFiles method (method ++ ascii "ab") rest)
      ⟨methodNotAllowed, none, emptyFiles, rest⟩ := by
  have hother : respond .ordinary emptyFiles
      (((clearedBuffer (method ++ ascii "ab")).write 0 bytes).bytes 0 4).toList bytes rest =
        ⟨methodNotAllowed, none, emptyFiles, rest⟩ := by
    have hzero := zero_mem_bytes hshort (method ++ ascii "ab")
    apply respond_other
    · intro heq
      rw [heq] at hzero
      exact absurd hzero (by decide)
    · intro heq
      rw [heq] at hzero
      exact absurd hzero (by decide)
  have hlen : (method ++ ascii "ab").length = 6 := by
    rw [List.length_append, hmethod]
    rfl
  have hnone : 0 ∉ method ++ ascii "ab" := by
    rw [List.mem_append, not_or]
    exact ⟨hnul, by decide⟩
  have hsame := same_bufferOf h hlt (hstart.trans (List.prefix_append method (ascii "ab"))) hnone
    (by omega) (by omega) .ordinary emptyFiles
  rwa [hother, List.take_left' hmethod] at hsame

theorem not_prefix_of_same (hshort : bytes.length < 4) :
    ¬ bytes <+: ascii "GET " ∧ ¬ bytes <+: ascii "PUT " := by
  constructor
  · intro hstart
    have hopened := (same_of_short h hlt hshort hstart (by decide) (by decide)).opened
    have hpath : pathOf (ascii "GET " ++ ascii "ab") ≠ [] := by decide
    rw [opened_get, if_neg hpath] at hopened
    cases hopened
  · intro hstart
    have hsent := (same_of_short h hlt hshort hstart (by decide) (by decide)).sent
    have hpath : pathOf (ascii "PUT " ++ ascii "ab") ≠ [] := by decide
    have hlength : lengthOf (ascii "PUT " ++ ascii "ab") = none := by decide
    have hdiffer : badRequest ≠ methodNotAllowed := by decide
    rw [sent_put_of_none hpath hlength] at hsent
    exact hdiffer hsent

theorem pathClosed_of_same_get (hlong : 4 ≤ bytes.length) (hnul : 0 ∉ bytes)
    (hget : bytes.take 4 = ascii "GET ") : PathClosed bytes := by
  by_contra hopen
  have hopened := (same_append_ab h hlt hlong hnul).opened
  rw [hget, opened_get, opened_get] at hopened
  refine pathOf_append_ne hopen hlong ?_
  by_cases hnil : pathOf bytes = []
  · rw [if_pos hnil] at hopened
    rw [hnil]
    by_contra hne
    rw [if_neg hne] at hopened
    cases hopened
  · rw [if_neg hnil] at hopened
    by_cases hnil' : pathOf (bytes ++ ascii "ab") = []
    · rw [if_pos hnil'] at hopened
      cases hopened
    · rw [if_neg hnil'] at hopened
      exact pathIn_injective (length_pathOf_le _) (length_pathOf_le _)
        (Option.some.inj hopened)

/-- A length that is not settled would come with the next bytes. -/
theorem verdict_ne_none_of_same (hlong : 4 ≤ bytes.length) (hnul : 0 ∉ bytes)
    (hput : bytes.take 4 = ascii "PUT ") (hpath : ∀ t, pathOf (bytes ++ t) ≠ []) :
    lengthVerdict bytes ≠ none := by
  intro hverdict
  obtain ⟨hnone, t, ht, htlen, hsome⟩ := exists_length_of_unsettled hverdict
  obtain ⟨n, hn⟩ := Option.isSome_iff_exists.mp hsome
  have hopened := (same_append h hlt hlong hnul ht htlen .ordinary emptyFiles).opened
  have hpath' := hpath []
  rw [List.append_nil] at hpath'
  rw [hput, opened_put, opened_put, if_neg (hpath t), if_neg hpath', hnone, hn] at hopened
  cases hopened

theorem settled_of_same_put (hlong : 4 ≤ bytes.length) (hnul : 0 ∉ bytes)
    (hput : bytes.take 4 = ascii "PUT ") :
    PathClosed bytes ∧
        ((word (pathText bytes)).length ≤ 1 ∨ (lengthVerdict bytes).isSome = true) ∨
      2 ≤ (pathText bytes).length ∧ lengthVerdict bytes = some false := by
  by_cases hclosed : PathClosed bytes
  · refine Or.inl ⟨hclosed, ?_⟩
    by_cases hshort : (word (pathText bytes)).length ≤ 1
    · exact Or.inl hshort
    · refine Or.inr (Option.isSome_iff_ne_none.mpr ?_)
      refine verdict_ne_none_of_same h hlt hlong hnul hput fun t => ?_
      rw [hclosed.pathOf_append hlong, Ne, pathOf_eq_nil_iff]
      exact hshort
  · have htwo : 2 ≤ (pathText bytes).length := by
      by_contra hone
      have hmore := pathOf_append_ne hclosed hlong
      have hnil : pathOf bytes = [] := by
        have hle : (word (pathText bytes)).length ≤ (pathText bytes).length :=
          (List.takeWhile_prefix _).length_le
        rw [pathOf_eq_nil_iff]
        omega
      have hsent := (same_append_ab h hlt hlong hnul).sent
      rw [hnil] at hmore
      rw [hput, sent_put_of_nil hnil] at hsent
      exact sent_put_of_ne_nil hmore rest hsent
    refine Or.inr ⟨htwo, ?_⟩
    have hpath := pathOf_append_ne_nil hclosed htwo hlong
    cases hverdict : lengthVerdict bytes with
    | none => exact absurd hverdict (verdict_ne_none_of_same h hlt hlong hnul hput hpath)
    | some verdict =>
        cases verdict with
        | false => rfl
        | true =>
            have hsome := isSome_lengthOf_append hverdict
            obtain ⟨m, hm⟩ := Option.isSome_iff_exists.mp (hsome (ascii "ab"))
            obtain ⟨n, hn⟩ := Option.isSome_iff_exists.mp (hsome [])
            have hopened := (same_append_ab h hlt hlong hnul).opened
            have hpath' := hpath []
            rw [List.append_nil] at hn hpath'
            rw [hput, opened_put, opened_put, if_neg (hpath _), if_neg hpath', hm, hn] at hopened
            exact absurd (pathIn_injective (length_pathOf_le _) (length_pathOf_le _)
              (Option.some.inj hopened)) (pathOf_append_ne hclosed hlong)

end Unsettled

theorem settled_of_same {bytes : List UInt8} {rest : Conn} (h : SameInBuffers bytes rest) :
    Settled bytes := by
  by_cases hfull : bufSize ≤ bytes.length
  · exact Or.inl hfull
  · have hlt := not_le.mp hfull
    by_cases hnul : 0 ∈ bytes
    · exact Or.inr (Or.inl hnul)
    · refine Or.inr (Or.inr ?_)
      by_cases hlong : 4 ≤ bytes.length
      · by_cases hget : ascii "GET " <+: bytes
        · refine Or.inr (Or.inl ⟨hget, ?_⟩)
          exact pathClosed_of_same_get h hlt hlong hnul (List.prefix_iff_eq_take.mp hget).symm
        · by_cases hput : ascii "PUT " <+: bytes
          · refine Or.inr (Or.inr ⟨hput, ?_⟩)
            exact settled_of_same_put h hlt hlong hnul (List.prefix_iff_eq_take.mp hput).symm
          · have hlonger : ∀ {method : List UInt8}, method.length = 4 → ¬ method <+: bytes →
                ¬ bytes <+: method := by
              intro method hmethod hnot hstart
              have heq := hstart.eq_of_length_le (by omega)
              exact hnot (heq ▸ List.prefix_rfl)
            exact Or.inl ⟨hlonger (by decide) hget, hget, hlonger (by decide) hput, hput⟩
      · obtain ⟨hget, hput⟩ := not_prefix_of_same h hlt (not_le.mp hlong)
        refine Or.inl ⟨hget, fun hstart => ?_, hput, fun hstart => ?_⟩
        · exact hlong hstart.length_le
        · exact hlong hstart.length_le

/-- A request leaks nothing of earlier ones exactly when its own bytes settle
what it means. -/
theorem sameForAllBuffers_iff_settled (conn : Conn) :
    SameForAllBuffers conn ↔
      (0 ≤ (recvUntil conn bufSize httpPattern).ret →
        Settled (recvUntil conn bufSize httpPattern).stored) := by
  by_cases hret : (recvUntil conn bufSize httpPattern).ret < 0
  · refine ⟨fun _ hnonneg => absurd hret (not_lt.mpr hnonneg), fun _ => ?_⟩
    intro buf buf' _ ops disk
    rw [getHttpRequest, getHttpRequest, if_pos hret, if_pos hret]
    exact .refl _
  · rw [sameForAllBuffers_iff hret]
    constructor
    · intro h _
      exact settled_of_same h
    · intro h
      exact (h (not_lt.mp hret)).same (recvUntil_received httpPattern_ne_nil hret).2

def putWithoutLength : Conn :=
  match ascii "PUT /a HTTP/1.1\r\n\r\n" with
  | [] => []
  | b :: bs => [.chunk b bs]

def putWithLength : Memory := bufferOf (ascii "PUT /secret HTTP/1.1\r\nContent-Length: 3\r\n\r\n")

/-- It is refused in a clear buffer, and accepted with the length of the earlier
request. -/
theorem putWithoutLength_leaks : ¬ SameForAllBuffers putWithoutLength := by
  intro h
  have hbehind : ∀ i, bufSize ≤ i → (fun _ => 0 : Memory) i = putWithLength i := by
    intro i hi
    have hsize : bufSize = 16384 := rfl
    have hlen : (ascii "PUT /secret HTTP/1.1\r\nContent-Length: 3\r\n\r\n").length = 43 := by
      decide
    have hnone : (ascii "PUT /secret HTTP/1.1\r\nContent-Length: 3\r\n\r\n")[i]? = none :=
      List.getElem?_eq_none (by omega)
    simp [putWithLength, bufferOf, Memory.write, hnone]
  have hsent := (h (fun _ => 0) putWithLength hbehind .ordinary emptyFiles).sent
  have hclear : (getHttpRequest .ordinary emptyFiles (fun _ => 0) putWithoutLength).1.sent =
      badRequest := by decide
  have hstale : (getHttpRequest .ordinary emptyFiles putWithLength putWithoutLength).1.sent =
      fileCreated := by decide
  have hdiffer : badRequest ≠ fileCreated := by decide
  exact hdiffer (hclear.symm.trans (hsent.trans hstale))

end Kademlia.Http
