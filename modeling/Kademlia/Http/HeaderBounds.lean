import Kademlia.Http.Headers
import Kademlia.Http.StringAccess

/-!
The bounds of the header arrays.

`recv_until` stores no more than fits, but it may fill the array to its last element,
and the terminator is stored behind what it received. Where no access goes outside,
the two functions do what they do when the header is a string of its own.
-/

namespace Kademlia.Http

open Foundations Foundations.Source Foundations.Traced CString Model Framing

/-! ### A header that is received -/

/-- As many bytes as the array has elements come in front of a failure, and no terminator ends
in front of the last of them. -/
structure FillsHeader (reply : Conn) : Prop where
  length_le : httpHeaderSize ≤ (delivered reply).length
  first : MatchedLast httpPattern ((delivered reply).take httpHeaderSize)

/-- What is stored are the first bytes, and unless a read fails their number is returned. -/
theorem received_spec (reply : Conn) :
    (recvUntil reply httpHeaderSize httpPattern).stored <+: delivered reply ∧
      (recvUntil reply httpHeaderSize httpPattern).stored.length ≤ httpHeaderSize ∧
      (¬ (recvUntil reply httpHeaderSize httpPattern).ret ≤ 0 →
        (recvUntil reply httpHeaderSize httpPattern).ret =
          (recvUntil reply httpHeaderSize httpPattern).stored.length) := by
  obtain ⟨used, hread⟩ := recvUntil_spec httpHeaderSize httpPattern_ne_nil reply
  have hlen := hread.length_le
  rw [List.nil_append] at hlen
  rw [hread.stored_eq, List.nil_append]
  cases hread.outcome with
  | failed _ hused hret =>
      refine ⟨hused ▸ List.prefix_rfl, hlen, fun hpos => ?_⟩
      rw [hret] at hpos
      exact absurd (by decide) hpos
  | stopped _ hused hret _ => exact ⟨hused, hlen, fun _ => hret⟩
  | ended _ hused hret _ => exact ⟨hused ▸ List.prefix_rfl, hlen, fun _ => hret⟩

theorem FillsHeader.stored_eq {reply : Conn} (h : FillsHeader reply) :
    (recvUntil reply httpHeaderSize httpPattern).stored =
      (delivered reply).take httpHeaderSize := by
  obtain ⟨used, hread⟩ := recvUntil_spec httpHeaderSize httpPattern_ne_nil reply
  obtain ⟨hpre, hlen, -⟩ := received_spec reply
  have hall := h.length_le
  rw [hread.stored_eq, List.nil_append] at hpre hlen ⊢
  have hfull : used.length = httpHeaderSize := by
    cases hread.outcome with
    | failed _ hused _ =>
        rw [← hused] at hall
        exact le_antisymm hlen hall
    | ended _ hused _ _ =>
        rw [← hused] at hall
        exact le_antisymm hlen hall
    | stopped hstop _ _ _ =>
        rw [List.nil_append] at hstop
        rcases hstop with hends | hfull
        · by_contra hne
          have hlt : used.length < httpHeaderSize := lt_of_le_of_ne hlen hne
          refine h.first used.length (by rw [List.length_take]; omega) ?_
          rwa [List.take_take, Nat.min_eq_left hlt.le, ← List.prefix_iff_eq_take.mp hpre]
        · exact hfull
  rw [← hfull]
  exact List.prefix_iff_eq_take.mp hpre

/-- The terminator is stored behind the array just where the array is filled. -/
theorem ret_eq_size_iff (reply : Conn) :
    (recvUntil reply httpHeaderSize httpPattern).ret = httpHeaderSize ↔ FillsHeader reply := by
  obtain ⟨hpre, hlen, hret⟩ := received_spec reply
  constructor
  · intro hfull
    have hpos : ¬ (recvUntil reply httpHeaderSize httpPattern).ret ≤ 0 := by
      rw [hfull]
      decide
    have hsize : (recvUntil reply httpHeaderSize httpPattern).stored.length = httpHeaderSize :=
      Int.ofNat_inj.mp ((hret hpos).symm.trans hfull)
    have hstored := List.prefix_iff_eq_take.mp hpre
    rw [hsize] at hstored
    obtain ⟨used, hread⟩ := recvUntil_spec httpHeaderSize httpPattern_ne_nil reply
    have hlast := hread.matchedLast
    rw [← hread.stored_eq, hstored] at hlast
    exact ⟨hsize ▸ hpre.length_le, hlast⟩
  · intro h
    have hall := h.length_le
    have hsize : (recvUntil reply httpHeaderSize httpPattern).stored.length = httpHeaderSize := by
      rw [h.stored_eq, List.length_take]
      exact Nat.min_eq_left hall
    have hpos : 0 < (recvUntil reply httpHeaderSize httpPattern).ret := by
      rw [recvUntil_pos_iff (by decide) httpPattern_ne_nil]
      refine ⟨fun hnil => ?_, Or.inr (Or.inr (recvUntil_stored reply ▸ hsize))⟩
      rw [hnil] at hall
      exact absurd hall (by decide)
    rw [hret (not_le.mpr hpos), hsize]

theorem FillsHeader.ret_pos {reply : Conn} (h : FillsHeader reply) :
    ¬ (recvUntil reply httpHeaderSize httpPattern).ret ≤ 0 := by
  rw [(ret_eq_size_iff reply).mpr h]
  decide

theorem length_eq_size_iff {reply : Conn}
    (h : ¬ (recvUntil reply httpHeaderSize httpPattern).ret ≤ 0) :
    (recvUntil reply httpHeaderSize httpPattern).stored.length = httpHeaderSize ↔
      FillsHeader reply := by
  rw [← ret_eq_size_iff, (received_spec reply).2.2 h, Nat.cast_inj]

/-! ### The terminator -/

theorem cString_terminated (m : Memory) {stored : List UInt8} (h : stored.length < 2 ^ 64) :
    ((m.write 0 stored).write stored.length [0]).cString = stored.takeWhile (· ≠ 0) := by
  have hwrite := m.write_write 0 stored [0]
  rw [Nat.zero_add] at hwrite
  have hlen : (stored ++ [0]).length ≤ 2 ^ 64 := by
    rw [List.length_append, List.length_singleton]
    omega
  rw [hwrite, Memory.cString_write_of_mem _ (by simp) hlen, List.takeWhile_append]
  split
  · next hall =>
      rw [(List.takeWhile_prefix _).eq_of_length hall]
      exact List.append_nil _
  · rfl

theorem clearedHeader_terminated (stack : Memory) {stored : List UInt8}
    (h : stored.length < httpHeaderSize) :
    ((clearedHeader stack).write 0 stored).write stored.length [0] =
      (clearedHeader stack).write 0 stored := by
  ext i
  rcases eq_or_ne i stored.length with rfl | hne
  · simp [Memory.write, clearedHeader, h]
  · have hsame (m : Memory) : m.write stored.length [0] i = m i := by
      rw [Memory.write]
      split
      · next hle =>
          have hnone : [(0 : UInt8)][i - stored.length]? = none :=
            List.getElem?_eq_none (by rw [List.length_singleton]; omega)
          rw [hnone, Option.getD_none]
      · rfl
    rw [hsame]

/-! ### Downloading -/

theorem cString_cleared (stack : Memory) {stored : List UInt8}
    (h : stored.length < httpHeaderSize) :
    ((clearedHeader stack).write 0 stored).cString = stored.takeWhile (· ≠ 0) := by
  rw [← clearedHeader_terminated stack h]
  exact cString_terminated _ (h.trans (by decide))

/-- In an array that is full, the string goes on behind it, unless there is a terminator. -/
theorem cString_full (m : Memory) {stored : List UInt8} (h : stored.length = httpHeaderSize) :
    ∃ t, (m.write 0 stored).cString = stored.takeWhile (· ≠ 0) ++ t ∧
      (t ≠ [] → (stored.takeWhile (· ≠ 0)).length = httpHeaderSize) := by
  have hlen : stored.length ≤ 2 ^ 64 := h ▸ by decide
  by_cases hmem : 0 ∈ stored
  · refine ⟨[], ?_, fun hne => absurd rfl hne⟩
    rw [Memory.cString_write_of_mem m hmem hlen, List.append_nil]
  · have hall : stored.takeWhile (· ≠ 0) = stored := by
      rw [List.takeWhile_eq_self_iff]
      intro b hb
      simpa using fun heq : b = 0 => hmem (heq ▸ hb)
    rw [hall]
    exact ⟨_, Memory.cString_write m hmem hlen, fun _ => h⟩

section Download

variable {reads : Memory → List UInt8 → ℕ} {session : HttpSession} {disk : Disk}
  {file : FileMagnet} {received : RecvAll}

theorem suffix_of_field {s field : List UInt8}
    (h : strcasestrPortable s contentLengthName = some field) : field <:+ s := by
  rw [strcasestrPortable_eq contentLengthName_ne_nil] at h
  exact (findFirst_eq_some h).1

theorem stays_searchHttpHeader (hreads : ReadsToMatch reads) {m : Memory} {size : ℕ}
    (hret : received.ret = received.stored.length) (hlen : received.stored.length < size)
    (hstring : m.cString.length ≤ received.stored.length)
    (hend : (m.write received.stored.length [0]).cString.length ≤ received.stored.length) :
    (searchHttpHeader reads m received session disk file).Stays .httpHeader size := by
  have hnat : received.ret.toNat = received.stored.length := by rw [hret, Int.toNat_natCast]
  rw [searchHttpHeader, stays_bind]
  refine ⟨stays_tracedStrstr _ hreads (by omega), ?_⟩
  split
  · exact stays_pure _ _ _
  · rw [stays_bind, stays_touch, hnat, stays_bind, val_tracedStrcasestrPortable]
    refine ⟨fun _ => by omega, stays_tracedStrcasestrPortable _ (by omega), ?_⟩
    split
    · exact stays_pure _ _ _
    · next field hfield =>
        rw [stays_bind, stays_readString _ (suffix_of_field hfield)]
        refine ⟨by omega, ?_⟩
        split
        · exact stays_pure _ _ _
        · split
          · exact stays_pure _ _ _
          · exact stays_pure _ _ _

/-- The first match is in the array, and the download ends with it. -/
theorem stays_searchHttpHeader_found (hreads : ReadsToMatch reads) {m : Memory}
    {s t found : List UInt8} {size : ℕ}
    (hstring : m.cString = s ++ t) (hlen : s.length ≤ size)
    (hfound : strstr s (ascii "404 Not Found") = some found) :
    (searchHttpHeader reads m received session disk file).Stays .httpHeader size := by
  have hfirst : strstr m.cString (ascii "404 Not Found") = some (found ++ t) := by
    rw [hstring]
    exact strstr_append hfound t
  obtain ⟨hsuffix, hstarts, -⟩ := findFirst_eq_some hfound
  have hneedle := (List.isPrefixOf_iff_prefix.mp hstarts).length_le
  have hle := hsuffix.length_le
  rw [searchHttpHeader, stays_bind, stays_tracedStrstr_some _ hreads (by decide) hfirst,
    val_tracedStrstr, hfirst, hstring, List.length_append, List.length_append]
  exact ⟨by omega, stays_pure _ _ _⟩

/-- Without a match in the array, it is left by the search or by the terminator. -/
theorem not_stays_searchHttpHeader (hreads : ReadsToMatch reads) {m : Memory}
    {s t : List UInt8} {size : ℕ}
    (hstring : m.cString = s ++ t) (ht : t ≠ [] → s.length = size)
    (hnone : strstr s (ascii "404 Not Found") = none) (hret : received.ret = size) :
    ¬ (searchHttpHeader reads m received session disk file).Stays .httpHeader size := by
  rw [searchHttpHeader, stays_bind, val_tracedStrstr]
  rintro ⟨hsearch, hrest⟩
  cases hfound : strstr m.cString (ascii "404 Not Found") with
  | none =>
      rw [hfound, Option.isSome_none, if_neg Bool.false_ne_true, stays_bind, stays_touch] at hrest
      have hlt := (hrest.1 rfl).2
      omega
  | some found =>
      rw [stays_tracedStrstr_some _ hreads (by decide) hfound, hstring, List.length_append] at hsearch
      rw [hstring] at hfound
      have hbehind := length_lt_of_strstr_append (by decide) hnone hfound
      have hsize : s.length = size := by
        apply ht
        rintro rfl
        rw [List.append_nil, hnone] at hfound
        cases hfound
      omega

/-- What is received is searched inside the array, unless it fills the array and has no 404. -/
theorem stays_searchHttpHeader_iff (hreads : ReadsToMatch reads) (stack : Memory)
    (hlen : received.stored.length ≤ httpHeaderSize)
    (hret : received.ret = received.stored.length) :
    (searchHttpHeader reads ((clearedHeader stack).write 0 received.stored) received session disk
        file).Stays .httpHeader httpHeaderSize ↔
      (received.stored.length = httpHeaderSize →
        strstr (received.stored.takeWhile (· ≠ 0)) (ascii "404 Not Found") ≠ none) := by
  have hle : (received.stored.takeWhile (· ≠ 0)).length ≤ received.stored.length :=
    (List.takeWhile_prefix _).length_le
  rcases Nat.lt_or_eq_of_le hlen with hshort | hfull
  · refine iff_of_true ?_ fun hfull => absurd hfull hshort.ne
    have hstring := cString_cleared stack hshort
    apply stays_searchHttpHeader hreads hret hshort
    · rwa [hstring]
    · rwa [clearedHeader_terminated stack hshort, hstring]
  · obtain ⟨t, hstring, ht⟩ := cString_full (clearedHeader stack) hfull
    cases hfound : strstr (received.stored.takeWhile (· ≠ 0)) (ascii "404 Not Found") with
    | some found =>
        refine iff_of_true ?_ fun _ => Option.some_ne_none found
        exact stays_searchHttpHeader_found hreads hstring (hle.trans hlen) hfound
    | none =>
        refine iff_of_false ?_ fun h => h hfull rfl
        exact not_stays_searchHttpHeader hreads hstring ht hfound (hret.trans (by rw [hfull]))

/-- The download leaves its array: the array is filled, without a 404 in it. -/
structure DownloadOverruns (session : HttpSession) : Prop where
  connected : session.connected = true
  headerSent : session.headerSent = true
  fills : FillsHeader session.reply
  other : strstr (((delivered session.reply).take httpHeaderSize).takeWhile (· ≠ 0))
    (ascii "404 Not Found") = none

theorem stays_tracedDownloadHttpFile_iff (hreads : ReadsToMatch reads) (stack : Memory) :
    (tracedDownloadHttpFile reads stack session disk file).Stays .httpHeader httpHeaderSize ↔
      ¬ DownloadOverruns session := by
  rw [tracedDownloadHttpFile]
  split
  · next hnot =>
      exact iff_of_true (stays_pure _ _ _) fun h => by cases h.connected.symm.trans hnot
  · next hconnected =>
      split
      · next hnot =>
          exact iff_of_true (stays_pure _ _ _) fun h => by cases h.headerSent.symm.trans hnot
      · next hsent =>
          rw [Bool.not_eq_false] at hconnected hsent
          obtain ⟨-, hlen, hret⟩ := received_spec session.reply
          rw [stays_bind, and_iff_right (stays_tracedRecvUntil _ _ _ _), val_tracedRecvUntil]
          split
          · next hnone =>
              exact iff_of_true (stays_pure _ _ _) fun h => h.fills.ret_pos hnone
          · next hsome =>
              rw [stays_searchHttpHeader_iff hreads stack hlen (hret hsome),
                length_eq_size_iff hsome]
              constructor
              · intro hfound h
                exact hfound h.fills (h.fills.stored_eq ▸ h.other)
              · intro hinside hfills hother
                rw [hfills.stored_eq] at hother
                exact hinside ⟨hconnected, hsent, hfills, hother⟩

theorem val_searchHttpHeader_found {m : Memory}
    (h : (strstr m.cString (ascii "404 Not Found")).isSome = true) :
    (searchHttpHeader reads m received session disk file).val = ⟨-1, disk, true⟩ := by
  rw [searchHttpHeader, val_bind, val_tracedStrstr, if_pos h]
  rfl

/-- Without one, the rest is done with the string that the terminator makes. -/
theorem val_searchHttpHeader {m : Memory} {s : List UInt8}
    (h : ¬ (strstr m.cString (ascii "404 Not Found")).isSome = true)
    (hstring : (m.write received.ret.toNat [0]).cString = s) :
    (searchHttpHeader reads m received session disk file).val =
      match strcasestrPortable s contentLengthName with
      | none => ⟨-1, disk, true⟩
      | some field =>
          if session.ops.dirReady = false then ⟨-1, disk, true⟩
          else if session.ops.opens = false then ⟨-1, disk, true⟩
          else
            session.saved disk file (receiveBody false ((scanContentLength field).getD 0) []
              session.ops.writes session.ops.again received.rest) := by
  rw [searchHttpHeader, val_bind, val_tracedStrstr, if_neg h, val_bind, val_bind,
    val_tracedStrcasestrPortable, hstring]
  cases strcasestrPortable s contentLengthName with
  | none => rfl
  | some field =>
      dsimp only
      rw [val_bind]
      split
      · rfl
      · split
        · rfl
        · rfl

/-- Where the array is not left, the download is that of a header which is a string. -/
theorem val_tracedDownloadHttpFile (stack : Memory) (h : ¬ DownloadOverruns session) :
    (tracedDownloadHttpFile reads stack session disk file).val =
      downloadHttpFile session disk file := by
  rw [tracedDownloadHttpFile, downloadHttpFile]
  split
  · rfl
  · next hconnected =>
      split
      · rfl
      · next hsent =>
          rw [val_bind, val_tracedRecvUntil]
          dsimp only
          split
          · rfl
          · next hsome =>
              rw [Bool.not_eq_false] at hconnected hsent
              obtain ⟨-, hlen, hret⟩ := received_spec session.reply
              have hnat : (recvUntil session.reply httpHeaderSize httpPattern).ret.toNat =
                  (recvUntil session.reply httpHeaderSize httpPattern).stored.length := by
                rw [hret hsome, Int.toNat_natCast]
              rcases Nat.lt_or_eq_of_le hlen with hshort | hfull
              · have hstring := cString_cleared stack hshort
                split
                · next hfound => exact val_searchHttpHeader_found (hstring ▸ hfound)
                · next hnone =>
                    apply val_searchHttpHeader (hstring ▸ hnone)
                    rw [hnat, clearedHeader_terminated stack hshort, hstring]
              · -- the array is full, so there is a 404 in it
                have hfills := (length_eq_size_iff hsome).mp hfull
                obtain ⟨t, hstring, -⟩ := cString_full (clearedHeader stack) hfull
                cases hfound : strstr ((recvUntil session.reply httpHeaderSize
                    httpPattern).stored.takeWhile (· ≠ 0)) (ascii "404 Not Found") with
                | none =>
                    rw [hfills.stored_eq] at hfound
                    exact absurd ⟨hconnected, hsent, hfills, hfound⟩ h
                | some found =>
                    rw [if_pos (Option.isSome_some)]
                    apply val_searchHttpHeader_found
                    rw [hstring, strstr_append hfound, Option.isSome_some]

end Download

/-! ### Uploading -/

section Upload

variable {session : HttpSession} {contents : List UInt8} {received : RecvAll}

theorem stays_searchRespHeader_iff (m : Memory)
    (hlen : received.stored.length ≤ httpHeaderSize)
    (hret : received.ret = received.stored.length) :
    (searchRespHeader (m.write 0 received.stored) received).Stays .respHeader httpHeaderSize ↔
      received.stored.length ≠ httpHeaderSize := by
  have hle : (received.stored.takeWhile (· ≠ 0)).length ≤ received.stored.length :=
    (List.takeWhile_prefix _).length_le
  have hlong : received.stored.length < 2 ^ 64 := hlen.trans_lt (by decide)
  rw [searchRespHeader, stays_bind, stays_touch]
  constructor
  · rintro ⟨hend, -⟩
    have hlt := (hend rfl).2
    omega
  · intro hne
    have hnat : received.ret.toNat = received.stored.length := by rw [hret, Int.toNat_natCast]
    refine ⟨fun _ => by omega, ?_⟩
    rw [hnat]
    have hstring := cString_terminated m hlong
    have hinside : ((m.write 0 received.stored).write received.stored.length [0]).cString.length <
        httpHeaderSize := by
      rw [hstring]
      omega
    rw [stays_bind, stays_bind, stays_bind, stays_readString _ List.suffix_rfl,
      val_tracedStrcasestrPortable]
    refine ⟨hinside, hinside, stays_tracedStrcasestrPortable _ hinside, ?_⟩
    split
    · exact stays_pure _ _ _
    · next field hfield =>
        rw [stays_bind, stays_readString _ (suffix_of_field hfield)]
        exact ⟨hinside, stays_pure _ _ _⟩

/-- The upload leaves its array wherever that is filled. -/
structure UploadOverruns (session : HttpSession) (contents : List UInt8) : Prop where
  nonempty : contents ≠ []
  connected : session.connected = true
  headerSent : session.headerSent = true
  bodySent : session.bodySent = true
  fills : FillsHeader session.reply

theorem stays_tracedUploadHttpFile_iff (stack : Memory) :
    (tracedUploadHttpFile stack session contents).Stays .respHeader httpHeaderSize ↔
      ¬ UploadOverruns session contents := by
  rw [tracedUploadHttpFile]
  split
  · next hnil => exact iff_of_true (stays_pure _ _ _) fun h => h.nonempty (List.isEmpty_iff.mp hnil)
  · next hnonempty =>
      split
      · next hnot =>
          exact iff_of_true (stays_pure _ _ _) fun h => by cases h.connected.symm.trans hnot
      · next hconnected =>
          split
          · next hnot =>
              exact iff_of_true (stays_pure _ _ _) fun h => by cases h.headerSent.symm.trans hnot
          · next hsent =>
              split
              · next hnot =>
                  exact iff_of_true (stays_pure _ _ _) fun h => by cases h.bodySent.symm.trans hnot
              · next hbody =>
                  rw [Bool.not_eq_false] at hconnected hsent hbody
                  obtain ⟨-, hlen, hret⟩ := received_spec session.reply
                  rw [stays_bind, and_iff_right (stays_tracedRecvUntil _ _ _ _),
                    val_tracedRecvUntil]
                  split
                  · next hnone => exact iff_of_true (stays_pure _ _ _) fun h => h.fills.ret_pos hnone
                  · next hsome =>
                      rw [stays_searchRespHeader_iff stack hlen (hret hsome), Ne,
                        length_eq_size_iff hsome]
                      refine not_congr ⟨fun hfills => ?_, UploadOverruns.fills⟩
                      exact ⟨fun hnil => hnonempty (List.isEmpty_iff.mpr hnil), hconnected, hsent,
                        hbody, hfills⟩

/-- The status is read of what was received, wherever the terminator is stored. -/
theorem val_tracedUploadHttpFile (stack : Memory) :
    (tracedUploadHttpFile stack session contents).val = uploadHttpFile session contents := by
  rw [tracedUploadHttpFile, uploadHttpFile]
  split
  · rfl
  · split
    · rfl
    · split
      · rfl
      · split
        · rfl
        · obtain ⟨-, hlen, hret⟩ := received_spec session.reply
          rw [val_bind, val_tracedRecvUntil]
          dsimp only
          split
          · rfl
          · next hsome =>
              have hlong := hlen.trans_lt (by decide : httpHeaderSize < 2 ^ 64)
              rw [← cString_terminated stack hlong, searchRespHeader, val_bind, val_bind,
                val_bind, val_bind, hret hsome, Int.toNat_natCast]
              split
              · rfl
              · rfl

end Upload

/-! ### Both -/

structure StaysInHeader (reads : Memory → List UInt8 → ℕ) (stack : Memory)
    (session : HttpSession) (disk : Disk) (file : FileMagnet) (contents : List UInt8) :
    Prop where
  download : (tracedDownloadHttpFile reads stack session disk file).Stays .httpHeader httpHeaderSize
  upload : (tracedUploadHttpFile stack session contents).Stays .respHeader httpHeaderSize

/-- Both stay in their arrays exactly where no response that is read fills them, or where the
download finds its 404 in it. -/
theorem staysInHeader_iff {reads : Memory → List UInt8 → ℕ} (hreads : ReadsToMatch reads)
    (stack : Memory) (session : HttpSession) (disk : Disk) (file : FileMagnet)
    (contents : List UInt8) :
    StaysInHeader reads stack session disk file contents ↔
      ¬ DownloadOverruns session ∧ ¬ UploadOverruns session contents := by
  rw [← stays_tracedDownloadHttpFile_iff hreads stack, ← stays_tracedUploadHttpFile_iff stack]
  exact ⟨fun h => ⟨h.download, h.upload⟩, fun ⟨hdownload, hupload⟩ => ⟨hdownload, hupload⟩⟩

theorem staysInHeader_iff_created :
    StaysInHeader readsBytewise (fun _ => 0)
      ⟨true, true, true, unread fileCreated [], .ordinary, false⟩ .empty
      ⟨zeroBytes 32, some (ascii "a"), 1⟩ [120] := by
  have hshort : ¬ httpHeaderSize ≤ (delivered (unread fileCreated [])).length := by
    rw [delivered_unread]
    decide +kernel
  exact (staysInHeader_iff readsToMatch_bytewise _ _ _ _ _).mpr
    ⟨fun h => hshort h.fills.length_le, fun h => hshort h.fills.length_le⟩

def longLine : List UInt8 :=
  ascii "HTTP/1.1 201 Created" ++ [13, 10] ++ (ascii "Server: " ++ List.replicate 8192 97)

theorem fillsHeader_longLine : FillsHeader (unread longLine []) := by
  have hdelivered : delivered (unread longLine []) = longLine := by
    rw [delivered_unread]
    exact List.append_nil _
  have hline : IsLine (ascii "HTTP/1.1 201 Created") := by decide
  have hstatus : Unmatched httpPattern (ascii "HTTP/1.1 201 Created" ++ [13, 10]) :=
    unmatched_append_line (unmatched_nil httpPattern_ne_nil) hline
  have hrest : 10 ∉ ascii "Server: " ++ List.replicate 8192 97 := by
    rw [List.mem_append, not_or]
    exact ⟨by decide, fun hmem => absurd (List.eq_of_mem_replicate hmem) (by decide)⟩
  have hunmatched : Unmatched httpPattern longLine := unmatched_append hstatus hrest
  refine ⟨?_, fun k hk => ?_⟩
  · rw [hdelivered, longLine]
    have hpadding : (List.replicate 8192 (97 : UInt8)).length = httpHeaderSize :=
      List.length_replicate
    simp only [List.length_append, hpadding]
    omega
  · rw [hdelivered, List.length_take] at hk
    rw [hdelivered, List.take_take, Nat.min_eq_left (by omega)]
    exact hunmatched k (by omega)

/-- An upload of one byte to a peer that answers so. -/
theorem not_staysInHeader_longLine :
    ¬ StaysInHeader readsBytewise (fun _ => 0)
      ⟨true, true, true, unread longLine [], .ordinary, false⟩ .empty
      ⟨zeroBytes 32, some (ascii "a"), 1⟩ [120] := by
  intro h
  have hstays := (stays_tracedUploadHttpFile_iff _).mp h.upload
  exact hstays ⟨List.cons_ne_nil _ _, rfl, rfl, rfl, fillsHeader_longLine⟩

end Kademlia.Http
