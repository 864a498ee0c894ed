import Kademlia.Http.Exchanges
import Kademlia.Model.Sending

/-!
What the two sides send, write by write.

A file goes out in blocks, and the server does not look at what becomes of each.
As long as a connection that failed once takes nothing any more, what it carries
is still a prefix of the response. So a file that is uploaded and accepted is
what a later download saves, however the writes and reads are split.
-/

namespace Kademlia.Http

open Foundations CString Source Sink Model Framing

/-! ### `send_all` -/

/-- The next `write` takes some of what is not sent yet, and the loop goes on behind that. -/
theorem sendAllLoop_took (before bs : List UInt8) (b : UInt8) (n : ℕ) (sink : Sink) :
    sendAllLoop (before ++ b :: bs) before.length (.took n :: sink) =
      sendAllLoop ((before ++ (b :: bs).take n) ++ (b :: bs).drop n)
        (before ++ (b :: bs).take n).length sink := by
  have hcount : before.length + min n ((before ++ b :: bs).length - before.length) =
      (before ++ (b :: bs).take n).length := by
    simp
  rw [sendAllLoop, if_pos (by simp), hcount, List.append_assoc before, List.take_append_drop]

/-- The bytes of `before` are sent already. -/
theorem sendAllLoop_push (before text : List UInt8) (sink : Sink) :
    (sendAllLoop (before ++ text) before.length sink).written = before ++ (push text sink).1 ∧
      (sendAllLoop (before ++ text) before.length sink).rest = (push text sink).2 := by
  induction sink generalizing before text with
  | nil =>
      rw [sendAllLoop, List.take_left]
      cases text <;> simp [push]
  | cons event sink ih =>
      cases text with
      | nil =>
          unfold sendAllLoop
          rw [if_neg (by simp), push_nil, List.take_left]
          exact ⟨(List.append_nil _).symm, rfl⟩
      | cons b bs =>
          cases event with
          | interrupt =>
              rw [sendAllLoop, if_pos (by simp)]
              exact ih before (b :: bs)
          | failure =>
              rw [sendAllLoop, if_pos (by simp), List.take_left, push, List.append_nil]
              exact ⟨rfl, rfl⟩
          | took n =>
              obtain ⟨hwritten, hrest⟩ := ih (before ++ (b :: bs).take n) ((b :: bs).drop n)
              rw [sendAllLoop_took, hwritten, hrest, push, List.append_assoc]
              exact ⟨rfl, rfl⟩

/-- It returns the length of the text if all of it was taken, and else nothing or -1. -/
theorem sendAllLoop_ret (before text : List UInt8) (sink : Sink) :
    ((push text sink).1 = text ∧
        (sendAllLoop (before ++ text) before.length sink).ret =
          some ((before ++ text).length : ℤ)) ∨
      (push text sink).1 ≠ text ∧
        ∀ ret, (sendAllLoop (before ++ text) before.length sink).ret = some ret → ret = -1 := by
  induction sink generalizing before text with
  | nil =>
      rw [sendAllLoop]
      cases text <;> simp [push]
  | cons event sink ih =>
      cases text with
      | nil =>
          unfold sendAllLoop
          rw [if_neg (by simp), push_nil]
          exact Or.inl ⟨rfl, by simp⟩
      | cons b bs =>
          cases event with
          | interrupt =>
              rw [sendAllLoop, if_pos (by simp)]
              exact ih before (b :: bs)
          | failure =>
              rw [sendAllLoop, if_pos (by simp), push]
              exact Or.inr ⟨(List.cons_ne_nil b bs).symm, fun ret h => (Option.some.inj h).symm⟩
          | took n =>
              have hrest := ih (before ++ (b :: bs).take n) ((b :: bs).drop n)
              rw [← sendAllLoop_took, List.append_assoc, List.take_append_drop] at hrest
              have hwhole : (push (b :: bs) (.took n :: sink)).1 = b :: bs ↔
                  (push ((b :: bs).drop n) sink).1 = (b :: bs).drop n := by
                rw [push]
                conv_lhs => rhs; rw [← List.take_append_drop n (b :: bs)]
                exact List.append_right_inj _
              rw [hwhole, ne_eq, hwhole]
              exact hrest

theorem sendAll_written (text : List UInt8) (sink : Sink) :
    (sendAll text sink).written = (push text sink).1 := (sendAllLoop_push [] text sink).1

theorem sendAll_rest (text : List UInt8) (sink : Sink) :
    (sendAll text sink).rest = (push text sink).2 := (sendAllLoop_push [] text sink).2

theorem sendAll_ret_iff (text : List UInt8) (sink : Sink) :
    (sendAll text sink).ret = some (text.length : ℤ) ↔ (push text sink).1 = text := by
  rcases sendAllLoop_ret [] text sink with ⟨hwhole, hret⟩ | ⟨hcut, hret⟩
  · exact iff_of_true hret hwhole
  · refine iff_of_false (fun h => ?_) hcut
    have := hret _ h
    omega

theorem push_of_ret_nonneg {text : List UInt8} {sink : Sink} {ret : ℤ}
    (h : (sendAll text sink).ret = some ret) (hret : ¬ ret < 0) : (push text sink).1 = text := by
  rcases sendAllLoop_ret [] text sink with ⟨hwhole, -⟩ | ⟨-, hcut⟩
  · exact hwhole
  · have := hcut ret h
    omega

/-! ### Several calls -/

theorem sendEach_eq_pushEach (texts : List (List UInt8)) (sink : Sink) :
    sendEach texts sink = (pushEach texts sink).1 := by
  induction texts generalizing sink with
  | nil => rfl
  | cons text texts ih =>
      rw [sendEach, sendAll_written, sendAll_rest, ih, pushEach_cons]

def ReturnsEach : List (List UInt8) → Sink → Prop
  | [], _ => True
  | text :: texts, sink =>
      (sendAll text sink).ret = some (text.length : ℤ) ∧
        ReturnsEach texts (sendAll text sink).rest

theorem returnsEach_iff (texts : List (List UInt8)) (sink : Sink) :
    ReturnsEach texts sink ↔ TakesEach texts sink := by
  induction texts generalizing sink with
  | nil => exact Iff.rfl
  | cons text texts ih => rw [ReturnsEach, sendAll_ret_iff, sendAll_rest, ih, TakesEach]

/-- A writer that gives up writes a prefix, whatever comes after a failure. -/
theorem sendWhile_isPrefix (texts : List (List UInt8)) (sink : Sink) :
    sendWhile texts sink <+: texts.flatten := by
  induction texts generalizing sink with
  | nil => exact List.prefix_rfl
  | cons text texts ih =>
      have hfirst : (push text sink).1 <+: text ++ texts.flatten :=
        (push_isPrefix text sink).trans (List.prefix_append _ _)
      rw [sendWhile, List.flatten_cons, sendAll_written]
      split
      · rwa [List.append_nil]
      · next ret hret =>
          split
          · rwa [List.append_nil]
          · next hnonneg =>
              rw [push_of_ret_nonneg hret hnonneg]
              exact (List.prefix_append_right_inj _).mpr (ih _)

/-! ### The responses of the server -/

theorem flatten_fileBlocks {fuel : ℕ} {contents : List UInt8} (h : contents.length < fuel) :
    (fileBlocks fuel contents).flatten = contents := by
  induction fuel generalizing contents with
  | zero => exact absurd h (Nat.not_lt_zero _)
  | succ fuel ih =>
      have hsize : 0 < bufSize := by decide
      rw [fileBlocks]
      split
      · next hempty =>
          rcases List.take_eq_nil_iff.mp hempty with hzero | hnil
          · omega
          · exact hnil.symm
      · next hblock =>
          have hpos : 0 < contents.length := by
            rw [List.length_pos_iff]
            rintro rfl
            exact hblock List.take_nil
          rw [List.flatten_cons, ih (by rw [List.length_drop]; omega), List.take_append_drop]

theorem flatten_sendHttpFileTexts (ops : FileOps) (disk : Disk) (filename : List UInt8)
    (conn : Conn) :
    (sendHttpFileTexts ops disk filename).flatten = (sendHttpFile ops disk filename conn).sent := by
  rw [sendHttpFileTexts, sendHttpFile]
  generalize (if ops.opens then disk (pathIn uploadDir filename) else none) = found
  cases found with
  | none => exact List.flatten_singleton
  | some content =>
      have hfuel : (content.take (ops.readable.getD content.length)).length <
          content.length + 1 := Nat.lt_succ_of_le (List.length_take_le' _ _)
      rw [List.flatten_cons, flatten_fileBlocks hfuel]

theorem flatten_handleHttpTexts (ops : FileOps) (disk : Disk) (contents : Memory) (length : ℕ)
    (conn : Conn) :
    (handleHttpTexts ops disk contents length conn).flatten =
      (handleHttpRequest ops disk contents length conn).sent := by
  rw [handleHttpTexts]
  split
  · next hget =>
      rw [flatten_sendHttpFileTexts _ _ _ conn, handleHttpRequest, if_pos hget.1, if_neg hget.2]
  · exact List.flatten_singleton

theorem flatten_getHttpTexts (ops : FileOps) (disk : Disk) (buf : Memory) (conn : Conn) :
    (getHttpTexts ops disk buf conn).flatten = (getHttpRequest ops disk buf conn).1.sent := by
  rw [getHttpTexts, getHttpRequest]
  split
  · rfl
  · exact flatten_handleHttpTexts ..

theorem serverSends_isPrefix {sink : Sink} (hfinal : Final sink) (ops : FileOps) (disk : Disk)
    (buf : Memory) (conn : Conn) :
    serverSends ops disk buf conn sink <+: (getHttpRequest ops disk buf conn).1.sent := by
  rw [serverSends, sendEach_eq_pushEach, ← flatten_getHttpTexts]
  exact hfinal.pushEach_isPrefix _

/-- On a connection whose failures are for good, what is sent is a prefix of the response; it
is the whole response if and only if each call of `send_all` says so, which nobody looks at. -/
theorem serverSends_sent {sink : Sink} (hfinal : Final sink) (ops : FileOps) (disk : Disk)
    (buf : Memory) (conn : Conn) :
    serverSends ops disk buf conn sink <+: (getHttpRequest ops disk buf conn).1.sent ∧
      (serverSends ops disk buf conn sink = (getHttpRequest ops disk buf conn).1.sent ↔
        ReturnsEach (getHttpTexts ops disk buf conn) sink) := by
  refine ⟨serverSends_isPrefix hfinal ops disk buf conn, ?_⟩
  rw [returnsEach_iff, ← pushEach_eq_flatten_iff, serverSends, sendEach_eq_pushEach,
    flatten_getHttpTexts]

/-! ### From an upload to a download -/

/-- A request, and what the owner of the files meets while it serves it. -/
structure Request where
  ops : FileOps
  buf : Memory
  conn : Conn

def Request.serve (request : Request) (disk : Disk) : HttpServed :=
  (getHttpRequest request.ops disk request.buf request.conn).1

def diskAfterAll (disk : Disk) (requests : List Request) : Disk :=
  requests.foldl (fun disk request => (request.serve disk).disk) disk

def Request.method (request : Request) : List UInt8 :=
  ((request.buf.write 0 (recvUntil request.conn bufSize httpPattern).stored).bytes 0 4).toList

/-- None of the requests is a PUT that opens the file, by whatever path. -/
def Spares (path : List UInt8) : Disk → List Request → Prop
  | _, [] => True
  | disk, request :: requests =>
      (request.method = ascii "PUT " → ∀ opened, (request.serve disk).opened = some opened →
        place disk.cwd opened ≠ place disk.cwd path) ∧
        Spares path (request.serve disk).disk requests

/-- What arrives of a PUT of the program, from a client that waits for the response. -/
structure PutArrives (file : FileMagnet) (content : List UInt8) (request : Request) : Prop where
  carries : ∃ addr sink, carried request.conn <+: putSends file addr content sink
  waits : request.ops.again.length < failures request.conn

/-- What arrives of a GET; the file can be read to its end. -/
structure GetArrives (file : FileMagnet) (request : Request) : Prop where
  carries : ∃ addr sink, carried request.conn <+: getSends file addr sink
  waits : fails request.conn = true
  tell : request.ops.tell = none
  readable : request.ops.readable = none

/-- What arrives of the response; the file can be written. -/
structure ReplyArrives (request : Request) (disk : Disk) (session : HttpSession) : Prop where
  carries : ∃ sink, Final sink ∧
    carried session.reply <+: serverSends request.ops disk request.buf request.conn sink
  stays : session.ops.again.length < failures session.reply
  writes : ∀ w ∈ session.ops.writes, w = none

variable {file : FileMagnet} {name content : List UInt8} {disk : Disk}

theorem receiveHttpFile_spares {ops : FileOps} {filename : List UInt8} {headers : Memory}
    {headerLen : ℕ} {conn : Conn} {path : List UInt8}
    (h : ∀ opened, (receiveHttpFile ops disk filename headers headerLen conn).opened =
      some opened → place disk.cwd opened ≠ place disk.cwd path) :
    (receiveHttpFile ops disk filename headers headerLen conn).disk path = disk path := by
  unfold receiveHttpFile at h ⊢
  dsimp only at h ⊢
  split at h
  · next hready => rw [if_pos hready]
  · next hready =>
      rw [if_neg hready]
      split at h
      · rfl
      · split at h
        · rfl
        · split at h
          · next hopens => rw [if_pos hopens]
          · next hopens =>
              rw [if_neg hopens]
              rw [Disk.store_read, if_neg fun heq => h _ rfl heq.symm]

theorem Request.serve_spares {request : Request} {path : List UInt8}
    (h : request.method = ascii "PUT " → ∀ opened, (request.serve disk).opened = some opened →
      place disk.cwd opened ≠ place disk.cwd path) :
    (request.serve disk).disk path = disk path := by
  unfold Request.serve getHttpRequest at h ⊢
  dsimp only at h ⊢
  split at h
  · next hfailed => rw [if_pos hfailed]
  · next hreceived =>
      rw [if_neg hreceived]
      unfold handleHttpRequest at h ⊢
      split_ifs at h ⊢ with hget hname hput
      · rfl
      · unfold sendHttpFile
        dsimp only
        split <;> rfl
      · rfl
      · exact receiveHttpFile_spares (h hput)
      · rfl

theorem diskAfterAll_of_spares {path : List UInt8} {requests : List Request}
    (h : Spares path disk requests) : diskAfterAll disk requests path = disk path := by
  induction requests generalizing disk with
  | nil => rfl
  | cons request requests ih => exact (ih h.2).trans (request.serve_spares h.1)

/-- A PUT that the owner accepts stores the content, as far as `fclose` writes it, though parts
of it may not have been sent: then it is not accepted. -/
theorem PutArrives.stores {request : Request} (h : PutArrives file content request)
    (hfile : file.displayName = some name) (hname : PlainName name)
    (hlen : content.length < 2 ^ 63) (hcreated : (request.serve disk).sent = fileCreated) :
    (request.serve disk).disk (pathIn uploadDir name) =
      some (request.ops.flushed content) := by
  obtain ⟨addr, sink, hcarries⟩ := h.carries
  have hsent := hcarries.trans (sendWhile_isPrefix _ sink)
  rw [List.flatten_cons, List.flatten_singleton] at hsent
  rw [Request.serve, getHttpRequest_put hfile hname hlen hsent h.waits hcreated,
    Disk.store_self]

/-- A download that succeeds saves what the owner has under the name. -/
theorem GetArrives.saves {request : Request} {session : HttpSession} {saved : Disk}
    (h : GetArrives file request) (hfile : file.displayName = some name) (hname : PlainName name)
    (hlen : content.length < 2 ^ 63) (hcontent : disk (pathIn uploadDir name) = some content)
    (hreply : ReplyArrives request disk session)
    (hret : (downloadHttpFile session saved file).ret = 0) :
    (downloadHttpFile session saved file).disk =
      saved.store (pathIn downloadDir name) content := by
  have htext : file.nameText = name := by
    rw [FileMagnet.nameText, hfile, Option.getD_some]
  obtain ⟨addr, sink, hcarries⟩ := h.carries
  have hsent := hcarries.trans (sendWhile_isPrefix _ sink)
  rw [List.flatten_singleton] at hsent
  obtain ⟨back, hfinal, hback⟩ := hreply.carries
  have hresponse := hback.trans
    (serverSends_isPrefix hfinal request.ops disk request.buf request.conn)
  have hanswers : (request.serve disk).sent = [] ∨ (request.serve disk).sent = notFound ∨
      ∃ content, disk (pathIn uploadDir name) = some content ∧
        (request.serve disk).sent = okHeader content.length ++ content :=
    getHttpRequest_get hfile hname hsent h.waits h.tell h.readable
  rw [Request.serve] at hanswers
  rcases hanswers with hnothing | hmissing | ⟨content', hfound, hok⟩
  · rw [hnothing] at hresponse
    exact absurd hret (downloadHttpFile_nothing (List.prefix_nil.mp hresponse))
  · rw [hmissing] at hresponse
    exact absurd hret (downloadHttpFile_notFound hresponse (fails_of_lt_failures hreply.stays))
  · obtain rfl : content' = content := Option.some.inj (hfound.symm.trans hcontent)
    rw [hok] at hresponse
    rw [downloadHttpFile_saved hlen hresponse hreply.stays hreply.writes hret, htext]

/-- An owner that accepted an upload serves what was uploaded: a later download of the file that
succeeds saves what `fclose` wrote of it, whatever the sockets did to the writes and reads of both
exchanges, and whatever requests the owner served in between, unless one was a PUT to the same
file. -/
theorem download_of_uploaded (hfile : file.displayName = some name) (hname : PlainName name)
    (hlen : content.length < 2 ^ 63) {put : Request} (hput : PutArrives file content put)
    (hcreated : (put.serve disk).sent = fileCreated) {others : List Request}
    (hothers : Spares (pathIn uploadDir name) (put.serve disk).disk others) {get : Request}
    (hget : GetArrives file get) {session : HttpSession}
    (hreply : ReplyArrives get (diskAfterAll (put.serve disk).disk others) session)
    {saved : Disk} (hret : (downloadHttpFile session saved file).ret = 0) :
    (downloadHttpFile session saved file).disk =
      saved.store (pathIn downloadDir name) (put.ops.flushed content) := by
  have hflushed : (put.ops.flushed content).length < 2 ^ 63 :=
    (List.length_take_le' _ _).trans_lt hlen
  have hstored := hput.stores hfile hname hlen hcreated
  rw [← diskAfterAll_of_spares hothers] at hstored
  exact hget.saves hfile hname hflushed hstored hreply hret

/-! A file of one byte goes out in three writes, and its content comes back in four. -/

def splitFile : FileMagnet := ⟨zeroBytes 32, some (ascii "a"), 1⟩

def leftOpen (bytes : List UInt8) : Conn := unread bytes [.failure]

theorem carried_leftOpen (bytes : List UInt8) : carried (leftOpen bytes) = bytes := by
  rw [leftOpen, carried_unread]
  exact List.append_nil bytes

theorem failures_leftOpen (bytes : List UInt8) : 0 < failures (leftOpen bytes) := by
  rw [leftOpen, failures_unread]
  exact Nat.one_pos

theorem putArrives_leftOpen (file : FileMagnet) (content : List UInt8) (addr : SockAddrIn)
    (sink : Sink) (buf : Memory) :
    PutArrives file content ⟨.ordinary, buf, leftOpen (putSends file addr content sink)⟩ :=
  ⟨⟨addr, sink, by rw [carried_leftOpen]⟩, failures_leftOpen _⟩

theorem getArrives_leftOpen (file : FileMagnet) (addr : SockAddrIn) (sink : Sink)
    (buf : Memory) :
    GetArrives file ⟨.ordinary, buf, leftOpen (getSends file addr sink)⟩ :=
  ⟨⟨addr, sink, by rw [carried_leftOpen]⟩, fails_of_lt_failures (failures_leftOpen _), rfl, rfl⟩

theorem replyArrives_leftOpen {sink : Sink} (hfinal : Final sink) (request : Request)
    (disk : Disk) :
    ReplyArrives request disk ⟨true, true, true,
      leftOpen (serverSends request.ops disk request.buf request.conn sink), .ordinary, false⟩ :=
  ⟨⟨sink, hfinal, by rw [carried_leftOpen]⟩, failures_leftOpen _,
    fun _ h => absurd h List.not_mem_nil⟩

def splitPut : Request :=
  ⟨.ordinary, fun _ => 0,
    leftOpen (putSends splitFile zeroAddr [7] [.took 10, .interrupt, .took 2000, .took 1])⟩

def splitGet : Request :=
  ⟨.ordinary, fun _ => 65, leftOpen (getSends splitFile zeroAddr [.took 5, .took 100])⟩

/-- The owner's files at the second of two such requests. -/
def splitDisk : Disk := diskAfterAll (splitPut.serve .empty).disk [splitGet]

def splitSession : HttpSession :=
  ⟨true, true, true,
    leftOpen (serverSends splitGet.ops splitDisk splitGet.buf splitGet.conn
      [.took 20, .interrupt, .took 60, .took 90, .took 1]), .ordinary, false⟩

/-- The connection fails in the header. -/
theorem serverSends_sent_split :
    serverSends splitGet.ops splitDisk splitGet.buf splitGet.conn [.took 20, .failure] <+:
        (getHttpRequest splitGet.ops splitDisk splitGet.buf splitGet.conn).1.sent ∧
      (serverSends splitGet.ops splitDisk splitGet.buf splitGet.conn [.took 20, .failure] =
          (getHttpRequest splitGet.ops splitDisk splitGet.buf splitGet.conn).1.sent ↔
        ReturnsEach (getHttpTexts splitGet.ops splitDisk splitGet.buf splitGet.conn)
          [.took 20, .failure]) :=
  have hfinal : Final [.took 20, .failure] := fun _ h => absurd h List.not_mem_nil
  serverSends_sent hfinal ..

theorem download_of_uploaded_split :
    (downloadHttpFile splitSession .empty splitFile).disk =
      Disk.empty.store (pathIn downloadDir (ascii "a")) [7] := by
  have hname : PlainName (ascii "a") := by decide +kernel
  have hcreated : (splitPut.serve .empty).sent = fileCreated := by decide +kernel
  have hget : splitGet.method ≠ ascii "PUT " := by decide +kernel
  have hret : (downloadHttpFile splitSession .empty splitFile).ret = 0 := by
    decide +kernel
  have hothers : Spares (pathIn uploadDir (ascii "a")) (splitPut.serve .empty).disk
      [splitGet] := ⟨fun h => absurd h hget, trivial⟩
  have hfinal : Final [.took 20, .interrupt, .took 60, .took 90, .took 1] := trivial
  exact download_of_uploaded rfl hname (by decide) (putArrives_leftOpen ..) hcreated hothers
    (getArrives_leftOpen ..) (replyArrives_leftOpen hfinal ..) hret

end Kademlia.Http
