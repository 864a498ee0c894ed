import Kademlia.Model.Sockets

/-!
What `recv_until` does, in terms of the bytes its connection delivers.

It reads single bytes, so it stops right behind the pattern wherever the chunks
are split. The invariant of the loop is that nothing stored so far ends with
the pattern.
-/

namespace Kademlia.Framing

open Foundations Foundations.Source Model

variable {len : ℕ} {pattern : List UInt8}

/-- No part of `stored` from its start on ends with `pattern`. -/
def Unmatched (pattern stored : List UInt8) : Prop :=
  ∀ k ≤ stored.length, ¬ pattern <:+ stored.take k

/-- No part of `stored` but possibly the whole ends with `pattern`. -/
def MatchedLast (pattern stored : List UInt8) : Prop :=
  ∀ k < stored.length, ¬ pattern <:+ stored.take k

theorem unmatched_nil (h : pattern ≠ []) : Unmatched pattern [] := by
  intro k _ hsuffix
  rw [List.take_nil, List.suffix_nil] at hsuffix
  exact h hsuffix

theorem Unmatched.matchedLast {stored : List UInt8} (h : Unmatched pattern stored) :
    MatchedLast pattern stored := fun k hk => h k hk.le

theorem Unmatched.append_singleton {stored : List UInt8} (h : Unmatched pattern stored)
    (b : UInt8) : MatchedLast pattern (stored ++ [b]) := by
  intro k hk
  rw [List.length_append, List.length_singleton] at hk
  rw [List.take_append_of_le_length (by omega)]
  exact h k (by omega)

theorem MatchedLast.unmatched {stored : List UInt8} (h : MatchedLast pattern stored)
    (hlast : ¬ pattern <:+ stored) : Unmatched pattern stored := by
  intro k hk
  rcases Nat.lt_or_eq_of_le hk with hlt | rfl
  · exact h k hlt
  · rwa [List.take_length]

/-- A stream has one place to stop behind the first pattern. -/
theorem MatchedLast.eq_of_prefix {used header s : List UInt8} (hused : MatchedLast pattern used)
    (hheader : MatchedLast pattern header) (hend : pattern <:+ header)
    (hstop : pattern <:+ used ∨ header.length ≤ used.length) (huseds : used <+: s)
    (hheaders : header <+: s) : used = header := by
  rcases lt_trichotomy used.length header.length with hlt | heq | hgt
  · have hpre := List.prefix_of_prefix_length_le huseds hheaders hlt.le
    have hmatch := hstop.resolve_right (not_le.mpr hlt)
    rw [List.prefix_iff_eq_take.mp hpre] at hmatch
    exact absurd hmatch (hheader _ hlt)
  · exact (List.prefix_of_prefix_length_le huseds hheaders heq.le).eq_of_length heq
  · have hpre := List.prefix_of_prefix_length_le hheaders huseds hgt.le
    rw [List.prefix_iff_eq_take.mp hpre] at hend
    exact absurd hend (hused _ hgt)

variable (len) in
/-- What a chunk adds to `stored`. -/
theorem scanUntil_spec (stored bytes : List UInt8) (hle : stored.length ≤ len)
    (h : Unmatched pattern stored) :
    ∃ used left finished,
      scanUntil len pattern stored bytes = (stored ++ used, left, finished) ∧
        bytes = used ++ left ∧ (stored ++ used).length ≤ len ∧
        MatchedLast pattern (stored ++ used) ∧
        (finished = true → pattern <:+ stored ++ used ∨ (stored ++ used).length = len) ∧
        (finished = false → left = [] ∧ Unmatched pattern (stored ++ used)) := by
  induction bytes generalizing stored with
  | nil =>
      refine ⟨[], [], false, by simp [scanUntil], rfl, by simpa using hle, ?_, by simp, ?_⟩
      · simpa using h.matchedLast
      · simpa using h
  | cons b bytes ih =>
      rw [scanUntil]
      by_cases hlt : stored.length < len
      · rw [if_pos hlt]
        have hlen : (stored ++ [b]).length ≤ len := by simpa using hlt
        by_cases hmatch : pattern <:+ stored ++ [b]
        · rw [if_pos (List.isSuffixOf_iff_suffix.mpr hmatch)]
          exact ⟨[b], bytes, true, rfl, rfl, hlen, h.append_singleton b,
            fun _ => Or.inl hmatch, by simp⟩
        · rw [if_neg (fun hs => hmatch (List.isSuffixOf_iff_suffix.mp hs))]
          obtain ⟨used, left, finished, hscan, hbytes, hrest⟩ :=
            ih (stored ++ [b]) hlen ((h.append_singleton b).unmatched hmatch)
          rw [List.append_assoc, List.singleton_append] at hscan hrest
          exact ⟨b :: used, left, finished, hscan, by rw [hbytes, List.cons_append], hrest⟩
      · rw [if_neg hlt]
        refine ⟨[], b :: bytes, true, by simp, rfl, by simpa using hle, ?_, fun _ => ?_, by simp⟩
        · simpa using h.matchedLast
        · exact Or.inr (by rw [List.append_nil]; omega)

/-- How `recv_until` ends after it stored `used` of what `conn` delivers. -/
inductive UntilOutcome (len : ℕ) (pattern : List UInt8) (conn : Conn) (stored used : List UInt8)
    (r : RecvAll) : Prop
  /-- a read failed -/
  | failed (hfails : fails conn = true) (hused : used = delivered conn) (hret : r.ret = -1)
  /-- behind the pattern, or where the buffer is full -/
  | stopped (hstop : pattern <:+ stored ++ used ∨ (stored ++ used).length = len)
      (hused : used <+: delivered conn) (hret : r.ret = (stored ++ used).length)
      (hrest : r.rest = skip used.length conn)
  /-- at the end of the stream -/
  | ended (hfails : fails conn = false) (hused : used = delivered conn)
      (hret : r.ret = (stored ++ used).length) (hrest : r.rest = [])

/-- `r` is what `recv_until` leaves when it began with `stored`. -/
structure ReadUntil (len : ℕ) (pattern : List UInt8) (conn : Conn) (stored used : List UInt8)
    (r : RecvAll) : Prop where
  stored_eq : r.stored = stored ++ used
  length_le : (stored ++ used).length ≤ len
  matchedLast : MatchedLast pattern (stored ++ used)
  outcome : UntilOutcome len pattern conn stored used r

theorem ReadUntil.interrupt {conn : Conn} {stored used : List UInt8} {r : RecvAll}
    (h : ReadUntil len pattern conn stored used r) (hlt : stored.length < len)
    (hstored : Unmatched pattern stored) :
    ReadUntil len pattern (.interrupt :: conn) stored used r := by
  refine ⟨h.stored_eq, h.length_le, h.matchedLast, ?_⟩
  cases h.outcome with
  | failed hfails hused hret => exact .failed hfails hused hret
  | ended hfails hused hret hrest => exact .ended hfails hused hret hrest
  | stopped hstop hused hret hrest =>
      refine .stopped hstop hused hret ?_
      cases used with
      | cons b used => exact hrest
      | nil =>
          -- the loop does not stop before it has stored something
          rw [List.append_nil] at hstop
          rcases hstop with hmatch | hfull
          · exact absurd (List.take_length ▸ hmatch) (hstored _ le_rfl)
          · omega

theorem ReadUntil.chunk {conn : Conn} {stored used : List UInt8} {r : RecvAll} {b : UInt8}
    {bs : List UInt8} (h : ReadUntil len pattern conn (stored ++ b :: bs) used r) :
    ReadUntil len pattern (.chunk b bs :: conn) stored (b :: bs ++ used) r := by
  have hassoc : stored ++ (b :: bs ++ used) = stored ++ b :: bs ++ used := by
    rw [List.append_assoc]
  refine ⟨hassoc ▸ h.stored_eq, hassoc ▸ h.length_le, hassoc ▸ h.matchedLast, ?_⟩
  cases h.outcome with
  | failed hfails hused hret =>
      exact .failed hfails (by rw [hused, delivered_chunk]) hret
  | ended hfails hused hret hrest =>
      exact .ended hfails (by rw [hused, delivered_chunk]) (hassoc ▸ hret) hrest
  | stopped hstop hused hret hrest =>
      refine .stopped (hassoc ▸ hstop) ?_ (hassoc ▸ hret) ?_
      · exact (List.prefix_append_right_inj (b :: bs)).mpr hused
      · rw [hrest, ← unread_cons, List.length_append, skip_unread_of_le conn (by omega)]
        congr 1
        omega

theorem recvUntilLoop_spec (stored : List UInt8) (conn : Conn) (hle : stored.length ≤ len)
    (h : Unmatched pattern stored) :
    ∃ used, ReadUntil len pattern conn stored used (recvUntilLoop len pattern stored conn) := by
  induction conn generalizing stored with
  | nil =>
      refine ⟨[], by simp [recvUntilLoop], by simpa using hle, by simpa using h.matchedLast, ?_⟩
      exact .ended rfl rfl (by simp [recvUntilLoop]) rfl
  | cons event conn ih =>
      rw [recvUntilLoop.eq_def]
      dsimp only
      by_cases hlt : stored.length < len
      · rw [if_pos hlt]
        cases event with
        | interrupt =>
            obtain ⟨used, hread⟩ := ih stored hle h
            exact ⟨used, hread.interrupt hlt h⟩
        | failure =>
            refine ⟨[], by simp, by simpa using hle, by simpa using h.matchedLast, ?_⟩
            exact .failed rfl rfl rfl
        | chunk b bs =>
            obtain ⟨used, left, finished, hscan, hbytes, hlen, hlast, hstop, hgo⟩ :=
              scanUntil_spec len stored (b :: bs) hle h
            dsimp only
            rw [hscan]
            cases finished with
            | true =>
                refine ⟨used, rfl, hlen, hlast, .stopped (hstop rfl) ?_ rfl ?_⟩
                · rw [delivered_chunk, hbytes, List.append_assoc]
                  exact List.prefix_append _ _
                · rw [← unread_cons, hbytes, skip_unread_append]
            | false =>
                obtain ⟨rfl, hunmatched⟩ := hgo rfl
                rw [List.append_nil] at hbytes
                subst hbytes
                obtain ⟨used', hread⟩ := ih _ hlen hunmatched
                exact ⟨_, hread.chunk⟩
      · rw [if_neg hlt]
        refine ⟨[], by simp, by simpa using hle, by simpa using h.matchedLast, ?_⟩
        refine .stopped (Or.inr ?_) List.nil_prefix ?_ rfl
        · rw [List.append_nil]
          omega
        · rw [List.append_nil]

theorem recvUntil_spec (len : ℕ) (hpattern : pattern ≠ []) (conn : Conn) :
    ∃ used, ReadUntil len pattern conn [] used (recvUntil conn len pattern) :=
  recvUntilLoop_spec [] conn (Nat.zero_le len) (unmatched_nil hpattern)

theorem recvUntil_received (hpattern : pattern ≠ []) {conn : Conn}
    (h : ¬ (recvUntil conn len pattern).ret < 0) :
    (recvUntil conn len pattern).ret.toNat = (recvUntil conn len pattern).stored.length ∧
      (pattern <:+ (recvUntil conn len pattern).stored ∨
        (recvUntil conn len pattern).stored.length = len ∨
        (recvUntil conn len pattern).rest = []) := by
  obtain ⟨used, hread⟩ := recvUntil_spec len hpattern conn
  rw [hread.stored_eq]
  cases hread.outcome with
  | failed _ _ hret =>
      rw [hret] at h
      exact absurd (by decide) h
  | stopped hstop _ hret _ =>
      rw [hret]
      exact ⟨rfl, hstop.imp_right Or.inl⟩
  | ended _ _ hret hrest =>
      rw [hret]
      exact ⟨rfl, Or.inr (Or.inr hrest)⟩

/-- A header that is sent in front of something is received alone, if the
connection does not end or fail within it. -/
theorem recvUntil_header (hpattern : pattern ≠ []) {header body : List UInt8}
    (hlast : MatchedLast pattern header) (hend : pattern <:+ header) (hlen : header.length ≤ len)
    {conn : Conn} (hcarried : carried conn <+: header ++ body) (hfails : fails conn = true)
    (hret : ¬ (recvUntil conn len pattern).ret < 0) :
    (recvUntil conn len pattern).stored = header ∧
      header ++ carried (recvUntil conn len pattern).rest = carried conn ∧
      failures (recvUntil conn len pattern).rest = failures conn := by
  obtain ⟨used, hread⟩ := recvUntil_spec len hpattern conn
  have hstored := hread.stored_eq
  have hmatched := hread.matchedLast
  rw [List.nil_append] at hstored hmatched
  cases hread.outcome with
  | failed _ _ hfailed =>
      rw [hfailed] at hret
      exact absurd (by decide) hret
  | ended hends _ _ _ =>
      rw [hfails] at hends
      cases hends
  | stopped hstop hused _ hrest =>
      rw [List.nil_append] at hstop
      have hsub := hused.trans (delivered_isPrefix_carried conn)
      have hfit : pattern <:+ used ∨ header.length ≤ used.length :=
        hstop.imp_right fun hfull => hlen.trans hfull.ge
      have hsame : used = header := hmatched.eq_of_prefix hlast hend hfit
        (hsub.trans hcarried) (List.prefix_append header body)
      subst hsame
      refine ⟨hstored, ?_, ?_⟩
      · rw [hrest, carried_skip hused.length_le]
        obtain ⟨more, hmore⟩ := hsub
        rw [← hmore, List.drop_left]
      · rw [hrest, failures_skip]

/-- A connection that begins with what `recv_until` once stored is split at the same place. -/
theorem recvUntil_unread (hpattern : pattern ≠ []) {stored : List UInt8} (hne : stored ≠ [])
    (hlen : stored.length ≤ len) (hlast : MatchedLast pattern stored) {rest : Conn}
    (hstop : pattern <:+ stored ∨ stored.length = len ∨ rest = []) :
    recvUntil (unread stored rest) len pattern = ⟨stored.length, stored, rest⟩ := by
  obtain ⟨b, bs, rfl⟩ := List.exists_cons_of_ne_nil hne
  obtain ⟨used, left, finished, hscan, hbytes, -, -, hfinished, hgo⟩ :=
    scanUntil_spec len [] (b :: bs) (Nat.zero_le len) (unmatched_nil hpattern)
  rw [List.nil_append] at hscan hfinished hgo
  -- the pattern is not found before the end
  obtain rfl : left = [] := by
    cases finished with
    | false => exact (hgo rfl).1
    | true =>
        by_contra hleft
        have hless : used.length < (b :: bs).length := by
          rw [hbytes, List.length_append]
          exact Nat.lt_add_of_pos_right (List.length_pos_of_ne_nil hleft)
        rcases hfinished rfl with hmatch | hfull
        · refine hlast _ hless ?_
          rwa [hbytes, List.take_left]
        · omega
  rw [List.append_nil] at hbytes
  subst hbytes
  have hopen : ([] : List UInt8).length < len := Nat.lt_of_lt_of_le (Nat.succ_pos _) hlen
  rw [unread_cons, recvUntil, recvUntilLoop, if_pos hopen, hscan]
  cases finished with
  | true => rfl
  | false =>
      have hunmatched := (hgo rfl).2 (b :: bs).length le_rfl
      rw [List.take_length] at hunmatched
      rcases hstop.resolve_left hunmatched with hfull | rfl
      · cases rest with
        | nil => rfl
        | cons event rest =>
            have hstill : ¬ (b :: bs).length < len := by omega
            dsimp only
            rw [recvUntilLoop.eq_def]
            dsimp only
            rw [if_neg hstill]
      · rfl

theorem scanUntil_eq (stored bytes : List UInt8) {st left : List UInt8} {finished : Bool}
    (h : scanUntil len pattern stored bytes = (st, left, finished)) :
    st ++ left = stored ++ bytes ∧ (finished = false → left = []) := by
  induction bytes generalizing stored with
  | nil =>
      obtain ⟨rfl, hrest⟩ := Prod.mk.inj h
      obtain ⟨rfl, rfl⟩ := Prod.mk.inj hrest
      exact ⟨rfl, fun _ => rfl⟩
  | cons b bytes ih =>
      rw [scanUntil] at h
      split at h
      · split at h
        · obtain ⟨rfl, hrest⟩ := Prod.mk.inj h
          obtain ⟨rfl, rfl⟩ := Prod.mk.inj hrest
          exact ⟨List.append_assoc stored [b] bytes, fun hgoes => absurd hgoes (by decide)⟩
        · rw [← List.singleton_append, ← List.append_assoc]
          exact ih _ h
      · obtain ⟨rfl, hrest⟩ := Prod.mk.inj h
        obtain ⟨rfl, rfl⟩ := Prod.mk.inj hrest
        exact ⟨rfl, fun hgoes => absurd hgoes (by decide)⟩

theorem recvUntilLoop_carried (stored : List UInt8) (conn : Conn) :
    (recvUntilLoop len pattern stored conn).stored ++
      carried (recvUntilLoop len pattern stored conn).rest = stored ++ carried conn := by
  induction conn generalizing stored with
  | nil => rfl
  | cons event conn ih =>
      rw [recvUntilLoop.eq_def]
      dsimp only
      split
      · cases event with
        | interrupt => exact ih stored
        | failure => rfl
        | chunk b bs =>
            rcases hscan : scanUntil len pattern stored (b :: bs) with ⟨st, left, finished⟩
            obtain ⟨hbytes, hgo⟩ := scanUntil_eq stored (b :: bs) hscan
            rw [carried, ← List.append_assoc, ← hbytes]
            cases finished with
            | true =>
                dsimp only
                rw [hscan, carried_unread, List.append_assoc]
            | false =>
                rw [hgo rfl, List.append_nil]
                dsimp only
                rw [hscan]
                exact ih st
      · rfl

variable (len pattern) in
/-- What is stored and what is left make up what the connection carries. -/
theorem recvUntil_carried (conn : Conn) :
    (recvUntil conn len pattern).stored ++ carried (recvUntil conn len pattern).rest =
      carried conn := recvUntilLoop_carried [] conn

/-! ### In terms of the whole stream -/

variable (len pattern) in
theorem scanUntil_append (stored a b : List UInt8) :
    scanUntil len pattern stored (a ++ b) =
      match scanUntil len pattern stored a with
      | (stored, left, true) => (stored, left ++ b, true)
      | (stored, _, false) => scanUntil len pattern stored b := by
  induction a generalizing stored with
  | nil => rfl
  | cons x a ih =>
      rw [List.cons_append, scanUntil, scanUntil]
      split
      · split
        · rfl
        · exact ih _
      · rfl

variable (len pattern) in
/-- What is stored of a stream that delivers `bytes`. -/
def untilPattern (bytes : List UInt8) : List UInt8 := (scanUntil len pattern [] bytes).1

variable (len pattern) in
/-- The reading of `bytes` does not go on to their end in search of the pattern. -/
def StopsWithin (bytes : List UInt8) : Prop :=
  pattern <:+ untilPattern len pattern bytes ∨ (untilPattern len pattern bytes).length = len

variable (pattern) in
theorem scanUntil_of_full {stored : List UInt8} (h : len ≤ stored.length) (bytes : List UInt8) :
    (scanUntil len pattern stored bytes).1 = stored := by
  cases bytes with
  | nil => rfl
  | cons b bytes => rw [scanUntil, if_neg (not_lt.mpr h)]

theorem recvUntilLoop_eq (stored : List UInt8) (conn : Conn) {st left : List UInt8}
    {finished : Bool}
    (hscan : scanUntil len pattern stored (delivered conn) = (st, left, finished)) :
    (recvUntilLoop len pattern stored conn).stored = st ∧
      (recvUntilLoop len pattern stored conn).ret =
        if finished = true ∨ fails conn = false ∨ len ≤ st.length then (st.length : ℤ) else -1 := by
  induction conn generalizing stored with
  | nil =>
      obtain ⟨rfl, -⟩ := Prod.mk.inj hscan
      simp [recvUntilLoop]
  | cons event conn ih =>
      rw [recvUntilLoop.eq_def]
      dsimp only
      by_cases hlt : stored.length < len
      · rw [if_pos hlt]
        cases event with
        | interrupt => exact ih stored hscan
        | failure =>
            obtain ⟨rfl, rfl, rfl⟩ : stored = st ∧ [] = left ∧ false = finished := by
              simpa [scanUntil] using hscan
            have hopen : ¬ len ≤ stored.length := not_le.mpr hlt
            simp [hopen]
        | chunk b bs =>
            rw [delivered_chunk, scanUntil_append] at hscan
            dsimp only
            rcases hchunk : scanUntil len pattern stored (b :: bs) with ⟨st', left', finished'⟩
            rw [hchunk] at hscan
            cases finished' with
            | true =>
                simp only [Prod.mk.injEq] at hscan
                simp [← hscan.1, ← hscan.2.2]
            | false => exact ih st' hscan
      · rw [if_neg hlt]
        have hfull : len ≤ stored.length := not_lt.mp hlt
        have hst := scanUntil_of_full pattern hfull (delivered (event :: conn))
        rw [hscan] at hst
        simp [show st = stored from hst, hfull]

theorem recvUntil_stored (conn : Conn) :
    (recvUntil conn len pattern).stored = untilPattern len pattern (delivered conn) :=
  (recvUntilLoop_eq [] conn rfl).1

theorem prefix_scanUntil (stored bytes : List UInt8) :
    stored <+: (scanUntil len pattern stored bytes).1 := by
  induction bytes generalizing stored with
  | nil => exact List.prefix_refl _
  | cons b bytes ih =>
      rw [scanUntil]
      split
      · split
        · exact List.prefix_append _ _
        · exact (List.prefix_append _ _).trans (ih _)
      · exact List.prefix_refl _

variable (pattern) in
theorem untilPattern_ne_nil_iff (hlen : 0 < len) {bytes : List UInt8} :
    untilPattern len pattern bytes ≠ [] ↔ bytes ≠ [] := by
  cases bytes with
  | nil => simp [untilPattern, scanUntil]
  | cons b bytes =>
      have hfirst : [b] <+: untilPattern len pattern (b :: bytes) := by
        rw [untilPattern, scanUntil, if_pos (by simpa using hlen), List.nil_append]
        split
        · exact List.prefix_refl _
        · exact prefix_scanUntil _ _
      have hne : untilPattern len pattern (b :: bytes) ≠ [] := hfirst.ne_nil (by simp)
      simp [hne]

/-- Something is received of a stream that delivers something, unless it fails
before the pattern and before the buffer is full. -/
theorem recvUntil_pos_iff (hlen : 0 < len) (hpattern : pattern ≠ []) (conn : Conn) :
    0 < (recvUntil conn len pattern).ret ↔
      delivered conn ≠ [] ∧ (fails conn = false ∨ StopsWithin len pattern (delivered conn)) := by
  obtain ⟨used, left, finished, hscan, -, hle, -, hstop, hgo⟩ :=
    scanUntil_spec len [] (delivered conn) (Nat.zero_le len) (unmatched_nil hpattern)
  rw [List.nil_append] at hscan hle hstop hgo
  have hused : untilPattern len pattern (delivered conn) = used := by rw [untilPattern, hscan]
  have hstops : finished = true ∨ len ≤ used.length ↔
      StopsWithin len pattern (delivered conn) := by
    rw [StopsWithin, hused]
    constructor
    · rintro (hfinished | hfull)
      · exact hstop hfinished
      · exact Or.inr (le_antisymm hle hfull)
    · rintro (hmatch | hfull)
      · refine Or.inl (Bool.eq_true_of_not_eq_false fun hgoes => ?_)
        refine (hgo hgoes).2 used.length le_rfl ?_
        rwa [List.take_length]
      · exact Or.inr hfull.ge
  rw [← untilPattern_ne_nil_iff pattern hlen, hused, ← hstops, recvUntil,
    (recvUntilLoop_eq [] conn hscan).2, ← List.length_pos_iff]
  split
  · next hread =>
      have hor : fails conn = false ∨ finished = true ∨ len ≤ used.length := by tauto
      simp [hor]
  · next hread =>
      have hor : ¬ (fails conn = false ∨ finished = true ∨ len ≤ used.length) := by tauto
      simp [hor]

end Kademlia.Framing
