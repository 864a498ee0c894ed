import Kademlia.Http.Exchanges
import Kademlia.Http.Fields
import Kademlia.Http.Losses

/-!
The body of a GET.

The header that is received decides how many bytes the download asks for, and
the splitting of what follows decides which of these it stores. Neither the
status nor a length that cannot be read is in the way of a success, and a stream
that ends too early looks like one that was read to its end.
-/

namespace Kademlia.Http

open Foundations Foundations.Source CString Model Framing

/-! ### Headers at the start of a stream -/

theorem IsHeader.eq_of_prefix {header header' s : List UInt8} (h : IsHeader header)
    (h' : IsHeader header') (hpre : header <+: s) (hpre' : header' <+: s) : header = header' :=
  h.first.eq_of_prefix h'.first h'.ends (Or.inl h.ends) hpre hpre'

/-- A header that only bytes other than newlines follow is there already. -/
theorem IsHeader.of_append {header stored t : List UInt8} (h : IsHeader header)
    (hpre : header <+: stored ++ t) (hstored : MatchedLast httpPattern stored) (ht : 10 ∉ t) :
    IsHeader stored := by
  refine ⟨hstored, ?_⟩
  by_contra hends
  have hunmatched := unmatched_append (hstored.unmatched hends) ht
  apply hunmatched header.length hpre.length_le
  rw [← List.prefix_iff_eq_take.mp hpre]
  exact h.ends

/-! ### Accepted responses -/

/-- The part of a response that is taken for its header. -/
def responseHeader (reply : Conn) : List UInt8 :=
  (recvUntil reply httpHeaderSize httpPattern).stored

def responseRest (reply : Conn) : Conn := (recvUntil reply httpHeaderSize httpPattern).rest

def expectedLength (field : List UInt8) : ℕ := (scanContentLength field).getD 0

/-- The download gets to the body, with what the header has from the field on. -/
structure GetAccepted (session : HttpSession) (field : List UInt8) : Prop where
  connected : session.connected = true
  headerSent : session.headerSent = true
  received : 0 < (recvUntil session.reply httpHeaderSize httpPattern).ret
  found : strstr ((responseHeader session.reply).takeWhile (· ≠ 0)) (ascii "404 Not Found") = none
  field_eq : strcasestrPortable ((responseHeader session.reply).takeWhile (· ≠ 0))
    contentLengthName = some field
  ready : session.ops.dirReady = true
  opens : session.ops.opens = true

variable {session : HttpSession} {saved : Disk} {file : FileMagnet} {field : List UInt8}

theorem exists_getAccepted (h : (downloadHttpFile session saved file).ret = 0) :
    ∃ field, GetAccepted session field := by
  obtain ⟨hret, hfound, field, hfield, -, -⟩ := downloadHttpFile_cases h
  have hfound' : ¬ (strstr ((responseHeader session.reply).takeWhile (· ≠ 0))
      (ascii "404 Not Found")).isSome = true := by
    rw [responseHeader, hfound]
    exact Bool.false_ne_true
  unfold downloadHttpFile at h
  dsimp only at h
  rw [← responseHeader, if_neg hfound', responseHeader, hfield] at h
  split_ifs at h with hconnected hheader hreceived hready hopens
  -- each exit in front of the end returns -1
  iterate 5 cases h
  exact ⟨field, by simpa using hconnected, by simpa using hheader, hret, hfound, hfield,
    by simpa using hready, by simpa using hopens⟩

theorem downloadHttpFile_accepted (h : GetAccepted session field) :
    downloadHttpFile session saved file =
      session.saved saved file (receiveBody false (expectedLength field) [] session.ops.writes
        session.ops.again (responseRest session.reply)) := by
  have hconnected : ¬ session.connected = false := by simp [h.connected]
  have hheader : ¬ session.headerSent = false := by simp [h.headerSent]
  have hready : ¬ session.ops.dirReady = false := by simp [h.ready]
  have hopens : ¬ session.ops.opens = false := by simp [h.opens]
  unfold downloadHttpFile
  dsimp only
  rw [if_neg hconnected, if_neg hheader, if_neg (not_le.mpr h.received), ← responseHeader,
    h.found, h.field_eq]
  dsimp only
  rw [if_neg hready, if_neg hopens]
  rfl

/-- A download that returns 0 saved the body of a response with a status of success, and the
body is as long as its header declares. -/
def SavesBody (session : HttpSession) (saved : Disk) (file : FileMagnet) : Prop :=
  (downloadHttpFile session saved file).ret = 0 →
    ∃ header body length, carried session.reply = header ++ body ∧ IsHeader header ∧
      IsSuccess header ∧ declaredLength header = some length ∧ length ≤ body.length ∧
      (downloadHttpFile session saved file).disk (pathIn downloadDir file.nameText) =
        some (body.take length)

/-- Two replies that differ only in the bytes of the body. -/
structure SameHeader (reply reply' : Conn) : Prop where
  header : responseHeader reply' = responseHeader reply
  ret : (recvUntil reply' httpHeaderSize httpPattern).ret =
    (recvUntil reply httpHeaderSize httpPattern).ret
  rest : splitting (responseRest reply') = splitting (responseRest reply)

/-- A download is given up at an error, or the header of the response declares its success and
a length, and the splitting of the rest is such that just this many bytes are stored. -/
def BodySaved (session : HttpSession) : Prop :=
  ∀ field, GetAccepted session field →
    Aborts false (expectedLength field) session.ops.writes session.ops.again
      (splitting (responseRest session.reply)) ∨
    IsHeader (responseHeader session.reply) ∧ IsSuccess (responseHeader session.reply) ∧
      ∃ length, declaredLength (responseHeader session.reply) = some length ∧
        Stores (expectedLength field) length session.ops.writes session.ops.again
          (splitting (responseRest session.reply))

theorem SameHeader.accepted {reply : Conn} (hsame : SameHeader session.reply reply) :
    GetAccepted { session with reply := reply } field ↔ GetAccepted session field := by
  constructor
  · intro h
    have hfound := h.found
    have hfield := h.field_eq
    rw [hsame.header] at hfound hfield
    exact ⟨h.connected, h.headerSent, hsame.ret ▸ h.received, hfound, hfield, h.ready, h.opens⟩
  · intro h
    have hfound := h.found
    have hfield := h.field_eq
    rw [← hsame.header] at hfound hfield
    exact ⟨h.connected, h.headerSent, hsame.ret.symm ▸ h.received, hfound, hfield, h.ready, h.opens⟩

theorem responseHeader_spec (reply : Conn) :
    (responseHeader reply).length ≤ httpHeaderSize ∧
      MatchedLast httpPattern (responseHeader reply) := by
  obtain ⟨used, hread⟩ := recvUntil_spec httpHeaderSize httpPattern_ne_nil reply
  rw [responseHeader, hread.stored_eq]
  exact ⟨hread.length_le, hread.matchedLast⟩

theorem splitting_eq_nil {s : Conn} (h : splitting s = []) : s = [] := by
  cases s with
  | nil => rfl
  | cons event s => cases event <;> cases h

/-- A connection that is split like the rest can follow the header in its place. -/
theorem recvUntil_responseHeader {reply conn : Conn}
    (hret : 0 < (recvUntil reply httpHeaderSize httpPattern).ret)
    (hsplit : splitting conn = splitting (responseRest reply)) :
    recvUntil (unread (responseHeader reply) conn) httpHeaderSize httpPattern =
        ⟨(responseHeader reply).length, responseHeader reply, conn⟩ ∧
      (recvUntil reply httpHeaderSize httpPattern).ret = (responseHeader reply).length := by
  obtain ⟨hlen, hlast⟩ := responseHeader_spec reply
  obtain ⟨hnat, hstop⟩ := recvUntil_received httpPattern_ne_nil (not_lt.mpr hret.le)
  rw [← responseHeader] at hnat hstop
  have hne : responseHeader reply ≠ [] := by
    rw [← List.length_pos_iff]
    omega
  refine ⟨recvUntil_unread httpPattern_ne_nil hne hlen hlast ?_, by omega⟩
  refine hstop.imp_right (Or.imp_right fun hrest => ?_)
  rw [responseRest, hrest] at hsplit
  exact splitting_eq_nil hsplit

theorem sameHeader_unread {reply conn : Conn}
    (hret : 0 < (recvUntil reply httpHeaderSize httpPattern).ret)
    (hsplit : splitting conn = splitting (responseRest reply)) :
    SameHeader reply (unread (responseHeader reply) conn) := by
  obtain ⟨hread, hlength⟩ := recvUntil_responseHeader hret hsplit
  refine ⟨?_, ?_, ?_⟩
  · rw [responseHeader, hread]
  · rw [hread, hlength]
  · rw [responseRest, hread]
    exact hsplit

theorem responseRest_unread {reply conn : Conn}
    (hret : 0 < (recvUntil reply httpHeaderSize httpPattern).ret)
    (hsplit : splitting conn = splitting (responseRest reply)) :
    responseRest (unread (responseHeader reply) conn) = conn := by
  rw [responseRest, (recvUntil_responseHeader hret hsplit).1]

variable (saved file) in
/-- An accepted download returns 0 unless its transfer is given up at an error. -/
theorem downloadHttpFile_ret_iff (h : GetAccepted session field) :
    (downloadHttpFile session saved file).ret = 0 ↔
      ¬ Aborts false (expectedLength field) session.ops.writes session.ops.again
        (splitting (responseRest session.reply)) := by
  rw [← stop_iff_aborts le_rfl [] (responseRest session.reply), downloadHttpFile_accepted h,
    HttpSession.saved]
  have hwrite : (receiveBody false (expectedLength field) [] session.ops.writes session.ops.again
      (responseRest session.reply)).stop ≠ .writeError := receiveLoop_ne_writeError
  rw [receiveBody] at hwrite
  dsimp only
  rw [receiveBody]
  generalize (receiveLoop false _ _ _ _ _ _).stop = stop at hwrite ⊢
  cases stop with
  | complete => decide
  | ended => decide
  | failed => decide
  | writeError => exact absurd rfl hwrite

variable (saved file) in
/-- What is in the file, if the transfer is not given up at an error. -/
theorem savesBody_iff_of_isHeader (h : GetAccepted session field)
    (hheader : IsHeader (responseHeader session.reply)) :
    SavesBody session saved file ↔
      ((receiveBody false (expectedLength field) [] session.ops.writes session.ops.again
          (responseRest session.reply)).stop = .complete ∨
        (receiveBody false (expectedLength field) [] session.ops.writes session.ops.again
          (responseRest session.reply)).stop = .ended →
      IsSuccess (responseHeader session.reply) ∧
        ∃ length, declaredLength (responseHeader session.reply) = some length ∧
          length ≤ size (responseRest session.reply) ∧
          (receiveBody false (expectedLength field) [] session.ops.writes session.ops.again
            (responseRest session.reply)).written =
              [] ++ (carried (responseRest session.reply)).take length) := by
  have hcarried : carried session.reply =
      responseHeader session.reply ++ carried (responseRest session.reply) :=
    (recvUntil_carried _ _ session.reply).symm
  have hdisk : (downloadHttpFile session saved file).disk (pathIn downloadDir file.nameText) =
      some (receiveBody false (expectedLength field) [] session.ops.writes session.ops.again
        (responseRest session.reply)).written := by
    rw [downloadHttpFile_accepted h]
    exact Disk.store_self ..
  rw [SavesBody, downloadHttpFile_ret_iff saved file h, ← stop_iff_aborts le_rfl [], hdisk]
  refine imp_congr_right fun _ => ?_
  constructor
  · rintro ⟨header, body, length, hsent, hheader', hsuccess, hlength, hle, hwritten⟩
    obtain rfl : header = responseHeader session.reply := hheader'.eq_of_prefix hheader
      (List.prefix_append header body) (hsent ▸ hcarried ▸ List.prefix_append _ _)
    obtain rfl : carried (responseRest session.reply) = body :=
      List.append_cancel_left (hcarried.symm.trans hsent)
    exact ⟨hsuccess, length, hlength, hle, Option.some.inj hwritten⟩
  · rintro ⟨hsuccess, length, hlength, hle, hwritten⟩
    exact ⟨_, _, length, hcarried, hheader, hsuccess, hlength, hle, congrArg some hwritten⟩

/-- If a success always stands for a saved body, what is received is a header: with a rest of
zeros nothing else can be one. -/
theorem isHeader_of_saves (h : GetAccepted session field)
    (haborts : ¬ Aborts false (expectedLength field) session.ops.writes session.ops.again
      (splitting (responseRest session.reply)))
    (hsaves : ∀ reply, SameHeader session.reply reply →
      SavesBody { session with reply := reply } saved file) :
    IsHeader (responseHeader session.reply) := by
  obtain ⟨zeros, hzeros⟩ : ∃ zeros, zeros =
      label (fun _ => (0 : UInt8)) 0 (splitting (responseRest session.reply)) := ⟨_, rfl⟩
  have hsplit : splitting zeros = splitting (responseRest session.reply) :=
    hzeros ▸ splitting_label _ 0 _
  have hsame := sameHeader_unread h.received hsplit
  have hret := (downloadHttpFile_ret_iff saved file
    (hsame.accepted.mpr h)).mpr (hsame.rest.symm ▸ haborts)
  obtain ⟨header, body, -, hsent, hheader, -⟩ := hsaves _ hsame hret
  dsimp only at hsent
  rw [carried_unread] at hsent
  have hpre : header <+: responseHeader session.reply ++ carried zeros := by
    rw [hsent]
    exact List.prefix_append header body
  refine hheader.of_append hpre (responseHeader_spec session.reply).2 ?_
  simp [hzeros, carried_label]

/-- A success stands for a saved body, whatever its bytes are, exactly where the header and the
way in which the rest is split allow it. -/
theorem savesBody_iff (session : HttpSession) (saved : Disk) (file : FileMagnet) :
    (∀ reply, SameHeader session.reply reply →
      SavesBody { session with reply := reply } saved file) ↔ BodySaved session := by
  constructor
  · intro hsaves field h
    by_cases haborts : Aborts false (expectedLength field) session.ops.writes session.ops.again
      (splitting (responseRest session.reply))
    · exact Or.inl haborts
    · right
      have hheader := isHeader_of_saves h haborts hsaves
      have hkeeps {conn : Conn}
          (hsplit : splitting conn = splitting (responseRest session.reply)) := by
        have hsame := sameHeader_unread h.received hsplit
        have hbody := (savesBody_iff_of_isHeader saved file
          (hsame.accepted.mpr h) (hsame.header.symm ▸ hheader)).mp (hsaves _ hsame)
        dsimp only at hbody
        rw [responseRest_unread h.received hsplit, hsame.header] at hbody
        exact hbody
      have hstop {conn : Conn} (hsplit : splitting conn = splitting (responseRest session.reply)) :=
        (stop_iff_aborts le_rfl [] conn).mpr (hsplit.symm ▸ haborts)
      obtain ⟨hsuccess, length, hlength, -⟩ := hkeeps rfl (hstop rfl)
      refine ⟨hheader, hsuccess, length, hlength, ?_⟩
      refine ((stores_iff le_rfl []).mp fun conn hsplit hover => ?_).resolve_left haborts
      obtain ⟨-, length', hlength', hbody⟩ := hkeeps hsplit hover
      obtain rfl : length = length' := Option.some.inj (hlength.symm.trans hlength')
      exact hbody
  · intro hkept reply hsame hret
    obtain ⟨field, h'⟩ := exists_getAccepted hret
    have hover := (downloadHttpFile_ret_iff saved file h').mp hret
    dsimp only at hover
    rw [hsame.rest] at hover
    obtain ⟨hheader, hsuccess, length, hlength, hstores⟩ :=
      (hkept field (hsame.accepted.mp h')).resolve_left hover
    refine (savesBody_iff_of_isHeader saved file h' (hsame.header.symm ▸ hheader)).mpr
      (fun hstop => ?_) hret
    dsimp only at hstop ⊢
    rw [hsame.header]
    exact ⟨hsuccess, length, hlength,
      (stores_iff le_rfl []).mpr (Or.inr hstores) (responseRest reply) hsame.rest hstop⟩

def serverErrorSession : HttpSession :=
  ⟨true, true, true, unread internalServerError [], .ordinary, false⟩

/-- The text of the error is saved as the file. -/
theorem not_savesBody_serverError :
    ¬ SavesBody serverErrorSession .empty ⟨zeroBytes 32, some (ascii "a"), 21⟩ := by
  intro h
  obtain ⟨header, body, length, hsent, hheader, hsuccess, -⟩ := h (by decide +kernel)
  have hends : httpPattern <:+ responseHeader serverErrorSession.reply := by decide +kernel
  have hpre : header <+: carried serverErrorSession.reply := hsent ▸ List.prefix_append _ _
  have hown : responseHeader serverErrorSession.reply <+: carried serverErrorSession.reply := by
    rw [← recvUntil_carried httpHeaderSize httpPattern]
    exact List.prefix_append _ _
  have hsame := hheader.eq_of_prefix ⟨(responseHeader_spec _).2, hends⟩ hpre hown
  rw [hsame] at hsuccess
  revert hsuccess
  decide +kernel

end Kademlia.Http
