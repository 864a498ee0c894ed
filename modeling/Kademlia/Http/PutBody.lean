import Kademlia.Http.Losses
import Kademlia.Http.Requests

/-!
The body of a PUT.

The count of what is still expected never goes below zero. That the file holds
the body when the request is answered with 201 depends on how the connection is
split: bytes are lost at a chunk that takes more than one read, at the end of the
stream, and at a failure in the middle of a chunk that is tried again after.
-/

namespace Kademlia.Http

open Foundations Foundations.Source CString Model Framing

/-! ### The countdown -/

/-- `content_length` and what is subtracted from it, in each turn of the loop. -/
def countdown (checked : Bool) :
    ℕ → ℕ → List (Option ℕ) → List Bool → Conn → List (ℕ × ℕ)
  | 0, _, _, _, _ => []
  | fuel + 1, contentLength, writes, again, conn =>
      if contentLength = 0 then []
      else
        let got := recvAll conn (min contentLength chunkSize)
        if got.ret < 0 then
          match again with
          | true :: again => countdown checked fuel contentLength writes again got.rest
          | _ => []
        else if got.ret = 0 then []
        else
          let n := got.ret.toNat
          if checked ∧ (fwrite writes (got.stored.take n)).2 = false then []
          else
            (contentLength, n) ::
              countdown checked fuel (contentLength - n) writes.tail again got.rest

/-- The same for the whole of `receive_http_file`, from `body_bytes_in_buf` on. -/
def putCountdown (ops : FileOps) (headers : Memory) (headerLen : ℕ) (conn : Conn) :
    List (ℕ × ℕ) :=
  if ops.dirReady = false then []
  else
    match lengthOf headers.cString with
    | none => []
    | some contentLength =>
        if ops.opens = false then []
        else
          let initial := (bodyInBuffer headers headerLen).take contentLength
          if initial.isEmpty then
            countdown true (contentLength + ops.again.length) contentLength ops.writes ops.again
              conn
          else if (fwrite ops.writes initial).2 = false then []
          else
            (contentLength, initial.length) ::
              countdown true (contentLength - initial.length + ops.again.length)
                (contentLength - initial.length) ops.writes.tail ops.again conn

/-- No step of the countdown takes off more than there is. -/
def NoUnderflow (steps : List (ℕ × ℕ)) : Prop := ∀ step ∈ steps, step.2 ≤ step.1

theorem noUnderflow_countdown (checked : Bool) (fuel length : ℕ) (writes : List (Option ℕ))
    (again : List Bool) (conn : Conn) :
    NoUnderflow (countdown checked fuel length writes again conn) := by
  induction fuel generalizing length writes again conn with
  | zero => exact List.forall_mem_nil _
  | succ fuel ih =>
      rw [countdown]
      split
      · exact List.forall_mem_nil _
      · next hlength =>
          have hpos := chunk_pos (Nat.pos_of_ne_zero hlength)
          have hle : (recvAll conn (min length chunkSize)).ret.toNat ≤ length := by
            rcases recvAll_cases conn hpos with ⟨hret, -⟩ | ⟨hret, -⟩ | ⟨-, -, hret, -⟩
            · omega
            · omega
            · omega
          dsimp only
          split
          · split
            · exact ih _ _ _ _
            · exact List.forall_mem_nil _
          · split
            · exact List.forall_mem_nil _
            · split
              · exact List.forall_mem_nil _
              · exact List.forall_mem_cons.mpr ⟨hle, ih _ _ _ _⟩

/-- The countdown is that of the loop: it ends at what the loop has left. -/
theorem countdown_remaining {checked : Bool} {fuel length : ℕ} {written : List UInt8}
    {writes : List (Option ℕ)} {again : List Bool} {conn : Conn} :
    (receiveLoop checked fuel length written writes again conn).remaining +
      ((countdown checked fuel length writes again conn).map Prod.snd).sum = length := by
  induction fuel generalizing length written writes again conn with
  | zero => rfl
  | succ fuel ih =>
      have hsteps := noUnderflow_countdown checked (fuel + 1) length writes again conn
      rw [countdown] at hsteps ⊢
      rw [receiveLoop]
      split
      · next hlength => simp [hlength]
      · next hlength =>
          rw [if_neg hlength] at hsteps
          dsimp only at hsteps ⊢
          split
          · rcases again with _ | ⟨_ | _, rest⟩
            · exact Nat.add_zero _
            · exact Nat.add_zero _
            · exact ih
          · next hret =>
              rw [if_neg hret] at hsteps
              split
              · rfl
              · next hsome =>
                  rw [if_neg hsome] at hsteps
                  split
                  · rfl
                  · next hwrite =>
                      rw [if_neg hwrite] at hsteps
                      have hle := hsteps _ List.mem_cons_self
                      rw [List.map_cons, List.sum_cons, Nat.add_left_comm, ih]
                      exact Nat.add_sub_cancel' hle

theorem noUnderflow_putCountdown (ops : FileOps) (headers : Memory) (headerLen : ℕ)
    (conn : Conn) : NoUnderflow (putCountdown ops headers headerLen conn) := by
  rw [putCountdown]
  split
  · exact List.forall_mem_nil _
  · split
    · exact List.forall_mem_nil _
    · next length _ =>
        split
        · exact List.forall_mem_nil _
        · dsimp only
          split
          · exact noUnderflow_countdown _ _ _ _ _ _
          · split
            · exact List.forall_mem_nil _
            · exact List.forall_mem_cons.mpr ⟨List.length_take_le _ _,
                noUnderflow_countdown _ _ _ _ _ _⟩

/-! ### Accepted requests -/

/-- The server gets to the body, of which it expects `length` bytes. -/
structure PutAccepted (ops : FileOps) (headers : Memory) (length : ℕ) : Prop where
  ready : ops.dirReady = true
  length_eq : lengthOf headers.cString = some length
  opens : ops.opens = true

/-- The part of the body that is in the buffer already. -/
def firstBytes (headers : Memory) (headerLen length : ℕ) : List UInt8 :=
  (bodyInBuffer headers headerLen).take length

def writesLeft (writes : List (Option ℕ)) (first : List UInt8) : List (Option ℕ) :=
  if first = [] then writes else writes.tail

variable {ops : FileOps} {disk : Disk} {filename : List UInt8} {headers : Memory}
  {headerLen length : ℕ} {conn : Conn}

theorem receiveHttpFile_refused (h : ∀ length, ¬ PutAccepted ops headers length) :
    (receiveHttpFile ops disk filename headers headerLen conn).sent =
      if ops.dirReady = true ∧ lengthOf headers.cString = none then badRequest
      else internalServerError := by
  rw [receiveHttpFile]
  dsimp only
  cases hready : ops.dirReady with
  | false => simp
  | true =>
      cases hfield : strcasestrPortable headers.cString contentLengthName with
      | none => simp [lengthOf, hfield]
      | some field =>
          cases hlength : scanContentLength field with
          | none => simp [lengthOf, hfield, hlength]
          | some length =>
              have hsome : lengthOf headers.cString = some length := by
                rw [lengthOf, hfield, Option.bind_some, hlength]
              have hclosed : ops.opens = false := by
                by_contra hopens
                exact h length ⟨hready, hsome, by simpa using hopens⟩
              simp [hclosed, hsome, hlength]

theorem exists_putAccepted
    (hcreated : (receiveHttpFile ops disk filename headers headerLen conn).sent = fileCreated) :
    ∃ length, PutAccepted ops headers length := by
  have herror : internalServerError ≠ fileCreated := by decide
  have hbad : badRequest ≠ fileCreated := by decide
  by_contra hnone
  rw [receiveHttpFile_refused (not_exists.mp hnone)] at hcreated
  split at hcreated
  · exact hbad hcreated
  · exact herror hcreated

variable (ops headers headerLen length conn) in
/-- What the loop leaves of an accepted PUT, if it is come to. -/
def bodyReceived : Received :=
  if (firstBytes headers headerLen length).isEmpty then
    receiveBody true length [] ops.writes ops.again conn
  else if (fwrite ops.writes (firstBytes headers headerLen length)).2 = false then
    ⟨(fwrite ops.writes (firstBytes headers headerLen length)).1, length, .writeError, conn⟩
  else
    receiveBody true (length - (firstBytes headers headerLen length).length)
      (fwrite ops.writes (firstBytes headers headerLen length)).1 ops.writes.tail ops.again conn

variable (ops disk filename headers headerLen length conn) in
/-- What an accepted PUT of `length` bytes is answered with, and what it leaves. -/
def putOf : HttpServed :=
  let received := bodyReceived ops headers headerLen length conn
  ⟨if received.stop = .complete ∨ received.stop = .ended then fileCreated
    else internalServerError,
    some (pathIn uploadDir filename),
    disk.store (pathIn uploadDir filename) (ops.flushed received.written),
    received.rest⟩

variable (disk filename headerLen conn) in
theorem receiveHttpFile_eq_putOf (h : PutAccepted ops headers length) :
    receiveHttpFile ops disk filename headers headerLen conn =
      putOf ops disk filename headers headerLen length conn := by
  have hready : ¬ ops.dirReady = false := by simp [h.ready]
  have hopens : ¬ ops.opens = false := by simp [h.opens]
  obtain ⟨field, hfield, hscan⟩ := Option.bind_eq_some_iff.mp h.length_eq
  unfold receiveHttpFile
  dsimp only
  rw [if_neg hready, hfield]
  dsimp only
  rw [hscan]
  dsimp only
  rw [if_neg hopens]
  rfl

theorem receiveHttpFile_unwritten (h : PutAccepted ops headers length)
    (hfirst : firstBytes headers headerLen length ≠ [])
    (hwrite : ¬ WriteFits ops.writes (firstBytes headers headerLen length).length) :
    (receiveHttpFile ops disk filename headers headerLen conn).sent = internalServerError := by
  have hshort := fwrite_of_not_fits hwrite
  have hempty : (firstBytes headers headerLen length).isEmpty = false := by simpa using hfirst
  rw [receiveHttpFile_eq_putOf disk filename headerLen conn h, putOf, bodyReceived, hempty, hshort]
  rfl

variable (disk filename conn) in
theorem receiveHttpFile_accepted (h : PutAccepted ops headers length)
    (hwrite : firstBytes headers headerLen length ≠ [] →
      WriteFits ops.writes (firstBytes headers headerLen length).length) :
    receiveHttpFile ops disk filename headers headerLen conn =
      let received := receiveBody true (length - (firstBytes headers headerLen length).length)
        (firstBytes headers headerLen length)
        (writesLeft ops.writes (firstBytes headers headerLen length)) ops.again conn
      ⟨if received.stop = .complete ∨ received.stop = .ended then fileCreated
        else internalServerError,
        some (pathIn uploadDir filename),
        disk.store (pathIn uploadDir filename) (ops.flushed received.written),
        received.rest⟩ := by
  rw [receiveHttpFile_eq_putOf disk filename headerLen conn h, putOf, bodyReceived, writesLeft]
  by_cases hfirst : firstBytes headers headerLen length = []
  · rw [hfirst]
    rfl
  · have hempty : (firstBytes headers headerLen length).isEmpty = false := by simpa using hfirst
    rw [hempty, fwrite_fits (hwrite hfirst), if_neg hfirst]
    rfl

/-! ### What is stored -/

variable (ops disk filename headers headerLen conn) in
/-- The countdown stays above zero, and a PUT that is answered with 201 stored the
bytes that the client announced. -/
structure StoresBody : Prop where
  counts : NoUnderflow (putCountdown ops headers headerLen conn)
  stores : (receiveHttpFile ops disk filename headers headerLen conn).sent = fileCreated →
    ∃ length, lengthOf headers.cString = some length ∧
      length ≤ (bodyInBuffer headers headerLen ++ carried conn).length ∧
      (receiveHttpFile ops disk filename headers headerLen conn).disk
          (pathIn uploadDir filename) =
        some ((bodyInBuffer headers headerLen ++ carried conn).take length)

variable (ops headers headerLen) in
/-- A PUT whose body is split like `s` is given up at an error, or each chunk of
it is got by one read and stored, and nothing is lost when the file is closed. -/
def BodyKept (s : Source Unit) : Prop :=
  ∀ length, PutAccepted ops headers length →
    firstBytes headers headerLen length ≠ [] ∧
        ¬ WriteFits ops.writes (firstBytes headers headerLen length).length ∨
      Aborts true (length - (firstBytes headers headerLen length).length)
        (writesLeft ops.writes (firstBytes headers headerLen length)) ops.again s ∨
      Kept (length - (firstBytes headers headerLen length).length)
          (writesLeft ops.writes (firstBytes headers headerLen length)) ops.again s ∧
        (ops.lost = 0 ∨ length = 0)

/-- The whole body, as the part in the buffer and what the connection has to add. -/
theorem take_body :
    (bodyInBuffer headers headerLen ++ carried conn).take length =
      firstBytes headers headerLen length ++
        (carried conn).take (length - (firstBytes headers headerLen length).length) := by
  rw [List.take_append, firstBytes, List.length_take]
  congr 2
  omega

theorem length_le_body_iff :
    length ≤ (bodyInBuffer headers headerLen ++ carried conn).length ↔
      length - (firstBytes headers headerLen length).length ≤ size conn := by
  rw [List.length_append, firstBytes, List.length_take, size]
  omega

theorem storesBody_iff_of_accepted (h : PutAccepted ops headers length)
    (hwrite : firstBytes headers headerLen length ≠ [] →
      WriteFits ops.writes (firstBytes headers headerLen length).length) :
    StoresBody ops disk filename headers headerLen conn ↔
      ((receiveBody true (length - (firstBytes headers headerLen length).length)
          (firstBytes headers headerLen length)
          (writesLeft ops.writes (firstBytes headers headerLen length)) ops.again conn).stop =
            .complete ∨
        (receiveBody true (length - (firstBytes headers headerLen length).length)
          (firstBytes headers headerLen length)
          (writesLeft ops.writes (firstBytes headers headerLen length)) ops.again conn).stop =
            .ended →
      length - (firstBytes headers headerLen length).length ≤ size conn ∧
        ops.flushed (receiveBody true (length - (firstBytes headers headerLen length).length)
          (firstBytes headers headerLen length)
          (writesLeft ops.writes (firstBytes headers headerLen length)) ops.again conn).written =
          firstBytes headers headerLen length ++
            (carried conn).take (length - (firstBytes headers headerLen length).length)) := by
  have hserved := receiveHttpFile_accepted disk filename conn h hwrite
  generalize receiveBody true (length - (firstBytes headers headerLen length).length)
    (firstBytes headers headerLen length)
    (writesLeft ops.writes (firstBytes headers headerLen length)) ops.again conn = received
    at hserved ⊢
  have herror : internalServerError ≠ fileCreated := by decide
  have hsent : (receiveHttpFile ops disk filename headers headerLen conn).sent = fileCreated ↔
      received.stop = .complete ∨ received.stop = .ended := by
    rw [hserved]
    dsimp only
    split
    · next hstop => exact iff_of_true rfl hstop
    · next hstop => exact iff_of_false herror hstop
  have hdisk : (receiveHttpFile ops disk filename headers headerLen conn).disk
      (pathIn uploadDir filename) = some (ops.flushed received.written) := by
    rw [hserved]
    exact Disk.store_self ..
  constructor
  · intro hstores hstop
    obtain ⟨length', hlength', hall, hstored⟩ := hstores.stores (hsent.mpr hstop)
    obtain rfl : length = length' := Option.some.inj (h.length_eq.symm.trans hlength')
    rw [hdisk, Option.some.injEq, take_body] at hstored
    exact ⟨length_le_body_iff.mp hall, hstored⟩
  · intro hstored
    refine ⟨noUnderflow_putCountdown ops headers headerLen conn, fun hcreated => ?_⟩
    obtain ⟨hall, hwritten⟩ := hstored (hsent.mp hcreated)
    refine ⟨length, h.length_eq, length_le_body_iff.mpr hall, ?_⟩
    rw [hdisk, hwritten, take_body]

/-- What is lost at the end does not matter only if there is nothing to lose. -/
theorem flushed_eq_iff {written body : List UInt8} (hle : written.length ≤ body.length) :
    ops.flushed written = body ↔ written = body ∧ (ops.lost = 0 ∨ body = []) := by
  rw [FileOps.flushed]
  constructor
  · intro hflushed
    have hlen := congrArg List.length hflushed
    rw [List.length_take] at hlen
    have hall : written.length - ops.lost = body.length := by omega
    rw [List.take_of_length_le (by omega)] at hflushed
    refine ⟨hflushed, ?_⟩
    rw [← List.length_eq_zero_iff]
    omega
  · rintro ⟨rfl, hlost | hnil⟩
    · rw [hlost, Nat.sub_zero, List.take_length]
    · rw [hnil, List.take_nil]

/-- For a transfer that is split like `s`, `kept_iff` with what is lost at the end. -/
theorem keptFlushed_iff {s : Source Unit} {first : List UInt8} {expected : ℕ}
    {writes : List (Option ℕ)} :
    (∀ conn, splitting conn = s →
      ((receiveBody true expected first writes ops.again conn).stop = .complete ∨
        (receiveBody true expected first writes ops.again conn).stop = .ended) →
      expected ≤ size conn ∧
        ops.flushed (receiveBody true expected first writes ops.again conn).written =
          first ++ (carried conn).take expected) ↔
    Aborts true expected writes ops.again s ∨
      Kept expected writes ops.again s ∧ (ops.lost = 0 ∨ first.length + expected = 0) := by
  have hkept := @kept_iff true (expected + ops.again.length) expected writes ops.again s le_rfl
    first
  have hstop := @stop_iff_aborts true (expected + ops.again.length) expected writes ops.again
    le_rfl first
  have hflushed {conn : Conn} (hsize : expected ≤ size conn) :
      ops.flushed (receiveBody true expected first writes ops.again conn).written =
          first ++ (carried conn).take expected ↔
        (receiveBody true expected first writes ops.again conn).written =
            first ++ (carried conn).take expected ∧
          (ops.lost = 0 ∨ first.length + expected = 0) := by
    have hbody : (first ++ (carried conn).take expected).length = first.length + expected := by
      rw [List.length_append, List.length_take]
      exact congrArg _ (Nat.min_eq_left hsize)
    rw [flushed_eq_iff (hbody ▸ length_receiveLoop_le ..), ← List.length_eq_zero_iff, hbody]
  constructor
  · intro hall
    rcases hkept.mp fun conn hconn hover =>
      ⟨(hall conn hconn hover).1, ((hflushed (hall conn hconn hover).1).mp
        (hall conn hconn hover).2).1⟩ with haborts | hkeeps
    · exact Or.inl haborts
    · refine or_iff_not_imp_left.mpr fun hnot => ⟨hkeeps, ?_⟩
      have hsplit := splitting_label (fun _ => (0 : UInt8)) 0 s
      obtain ⟨hsize, hwritten⟩ := hall _ hsplit ((hstop _).mpr (hsplit.symm ▸ hnot))
      exact ((hflushed hsize).mp hwritten).2
  · rintro (haborts | ⟨hkeeps, hlost⟩) conn hconn hover
    · exact absurd (hconn.symm ▸ haborts) ((hstop conn).mp hover)
    · obtain ⟨hsize, hwritten⟩ := hkept.mpr (Or.inr hkeeps) conn hconn hover
      exact ⟨hsize, (hflushed hsize).mpr ⟨hwritten, hlost⟩⟩

/-- A 201 stands for a stored body, whatever the bytes are, exactly where the way in
which they are split loses none of them or leads to an error. -/
theorem storesBody_iff (ops : FileOps) (disk : Disk) (filename : List UInt8) (headers : Memory)
    (headerLen : ℕ) (s : Source Unit) :
    (∀ conn, splitting conn = s → StoresBody ops disk filename headers headerLen conn) ↔
      BodyKept ops headers headerLen s := by
  by_cases haccepted : ∃ length, PutAccepted ops headers length
  · obtain ⟨length, h⟩ := haccepted
    have honly : ∀ length', PutAccepted ops headers length' → length' = length := by
      intro length' h'
      exact Option.some.inj (h'.length_eq.symm.trans h.length_eq)
    by_cases hfirst : firstBytes headers headerLen length ≠ [] ∧
        ¬ WriteFits ops.writes (firstBytes headers headerLen length).length
    · refine iff_of_true (fun conn _ => ?_) fun length' h' => Or.inl (honly length' h' ▸ hfirst)
      refine ⟨noUnderflow_putCountdown ops headers headerLen conn, fun hcreated => ?_⟩
      rw [receiveHttpFile_unwritten h hfirst.1 hfirst.2] at hcreated
      exact absurd hcreated (by decide)
    · have hwrite : firstBytes headers headerLen length ≠ [] →
          WriteFits ops.writes (firstBytes headers headerLen length).length := by
        intro hne
        by_contra hnot
        exact hfirst ⟨hne, hnot⟩
      have hlength : (firstBytes headers headerLen length).length +
          (length - (firstBytes headers headerLen length).length) = length :=
        Nat.add_sub_cancel' (List.length_take_le _ _)
      have hkept := @keptFlushed_iff ops s (firstBytes headers headerLen length)
        (length - (firstBytes headers headerLen length).length)
        (writesLeft ops.writes (firstBytes headers headerLen length))
      rw [hlength] at hkept
      constructor
      · intro hstores length' h'
        rw [honly length' h']
        refine Or.inr (hkept.mp fun conn hconn => ?_)
        exact (storesBody_iff_of_accepted h hwrite).mp (hstores conn hconn)
      · intro hbody conn hconn
        rw [storesBody_iff_of_accepted h hwrite]
        exact hkept.mpr ((hbody length h).resolve_left hfirst) conn hconn
  · refine iff_of_true (fun conn _ => ?_) fun length h => absurd ⟨length, h⟩ haccepted
    exact ⟨noUnderflow_putCountdown ops headers headerLen conn,
      fun hcreated => absurd (exists_putAccepted hcreated) haccepted⟩

def putOfTwo : List UInt8 := ascii "PUT /a HTTP/1.1\r\nContent-Length: 2\r\n\r\n"

def twoReads : Conn := [.chunk 1 [], .chunk 2 []]

theorem not_storesBody_twoReads :
    ¬ StoresBody .ordinary .empty (ascii "a") (Memory.write (fun _ => 0) 0 putOfTwo)
      putOfTwo.length twoReads := by
  intro h
  obtain ⟨length, hlength, -, hstored⟩ := h.stores (by decide)
  have htwo : lengthOf (Memory.write (fun _ => 0) 0 putOfTwo).cString = some 2 := by
    decide
  obtain rfl : 2 = length := Option.some.inj (htwo.symm.trans hlength)
  -- only the first byte is in the file
  revert hstored
  decide

end Kademlia.Http
