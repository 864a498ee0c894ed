import Kademlia.Framing.RecvUntil
import Kademlia.Http.ContentLength
import Kademlia.Model.HeaderBuffer

/-!
What `recv_until` and the string functions use of an array.

Each gives the same as where nothing is recorded. `recv_until` uses as many elements as
it was told that there are, and the searches none behind the terminator.
-/

namespace Kademlia.Http

open Foundations Foundations.Source Foundations.Traced CString Model Framing

variable {ι : Type} (array : ι)

/-! ### Receiving -/

theorem val_tracedMatch (stored : List UInt8) (i : ℕ) (pattern : List UInt8) :
    (tracedMatch array stored i pattern).val = pattern.isPrefixOf (stored.drop i) := by
  induction pattern generalizing i with
  | nil => rfl
  | cons p pattern ih =>
      rw [tracedMatch, val_bind]
      rcases Nat.lt_or_ge i stored.length with hlt | hge
      · rw [List.drop_eq_getElem_cons hlt, List.isPrefixOf_cons_cons, List.getElem?_eq_getElem hlt]
        split
        · next heq => simp [ih, Option.some.inj heq]
        · next hne =>
            have hdiffers : (p == stored[i]) = false := by
              rw [beq_eq_false_iff_ne]
              exact fun heq => hne (congrArg some heq.symm)
            rw [hdiffers, Bool.false_and, val_pure]
      · rw [List.getElem?_eq_none hge, List.drop_of_length_le hge]
        rfl

theorem val_tracedMatchLast (pattern stored : List UInt8) :
    (tracedMatchLast array pattern stored).val = pattern.isSuffixOf stored := by
  rw [tracedMatchLast, Bool.eq_iff_iff, List.isSuffixOf_iff_suffix]
  split
  · next hle =>
      rw [val_tracedMatch, List.isPrefixOf_iff_prefix, List.suffix_iff_eq_drop]
      constructor
      · intro hpre
        apply hpre.eq_of_length
        rw [List.length_drop]
        omega
      · intro heq
        rw [← heq]
  · next hlong => exact iff_of_false Bool.false_ne_true fun hsuffix => hlong hsuffix.length_le

theorem val_tracedScanUntil (len : ℕ) (pattern stored bytes : List UInt8) :
    (tracedScanUntil array len pattern stored bytes).val =
      scanUntil len pattern stored bytes := by
  induction bytes generalizing stored with
  | nil => rfl
  | cons b bytes ih =>
      rw [tracedScanUntil, scanUntil]
      split
      · rw [val_bind, val_bind, val_tracedMatchLast]
        split
        · rfl
        · exact ih _
      · rfl

theorem val_tracedRecvUntilLoop (len : ℕ) (pattern stored : List UInt8) (conn : Conn) :
    (tracedRecvUntilLoop array len pattern stored conn).val =
      recvUntilLoop len pattern stored conn := by
  induction conn generalizing stored with
  | nil => rfl
  | cons event conn ih =>
      rw [tracedRecvUntilLoop.eq_def, recvUntilLoop.eq_def]
      dsimp only
      split
      · cases event with
        | interrupt => exact ih _
        | failure => rfl
        | chunk b bs =>
            dsimp only
            rw [val_bind, val_tracedScanUntil]
            rcases scanUntil len pattern stored (b :: bs) with ⟨stored', left, _ | _⟩
            · exact ih _
            · rfl
      · rfl

theorem val_tracedRecvUntil (conn : Conn) (len : ℕ) (pattern : List UInt8) :
    (tracedRecvUntil array conn len pattern).val = recvUntil conn len pattern :=
  val_tracedRecvUntilLoop array len pattern [] conn

theorem stays_tracedMatch {stored : List UInt8} {i : ℕ} {pattern : List UInt8} {size : ℕ}
    (h : i + pattern.length ≤ size) :
    (tracedMatch array stored i pattern).Stays array size := by
  induction pattern generalizing i with
  | nil => exact stays_pure _ _ _
  | cons p pattern ih =>
      rw [List.length_cons] at h
      rw [tracedMatch, stays_bind, stays_touch]
      refine ⟨fun _ => by omega, ?_⟩
      split
      · exact ih (by omega)
      · exact stays_pure _ _ _

theorem stays_tracedScanUntil {len : ℕ} {pattern : List UInt8} (stored bytes : List UInt8) :
    (tracedScanUntil array len pattern stored bytes).Stays array len := by
  induction bytes generalizing stored with
  | nil => exact stays_pure _ _ _
  | cons b bytes ih =>
      rw [tracedScanUntil]
      split
      · next hlt =>
          have hlast : (tracedMatchLast array pattern (stored ++ [b])).Stays array len := by
            rw [tracedMatchLast]
            split
            · next hle =>
                apply stays_tracedMatch
                rw [List.length_append, List.length_singleton] at hle ⊢
                omega
            · exact stays_pure _ _ _
          rw [stays_bind, stays_touch, stays_bind]
          refine ⟨fun _ => by omega, hlast, ?_⟩
          split
          · exact stays_pure _ _ _
          · exact ih _
      · exact stays_pure _ _ _

theorem stays_tracedRecvUntilLoop {len : ℕ} {pattern : List UInt8} (stored : List UInt8)
    (conn : Conn) : (tracedRecvUntilLoop array len pattern stored conn).Stays array len := by
  induction conn generalizing stored with
  | nil => exact stays_pure _ _ _
  | cons event conn ih =>
      rw [tracedRecvUntilLoop.eq_def]
      dsimp only
      split
      · cases event with
        | interrupt => exact ih _
        | failure => exact stays_pure _ _ _
        | chunk b bs =>
            dsimp only
            rw [stays_bind]
            refine ⟨stays_tracedScanUntil array stored (b :: bs), ?_⟩
            split
            · exact stays_pure _ _ _
            · exact ih _
      · exact stays_pure _ _ _

theorem stays_tracedRecvUntil (conn : Conn) (len : ℕ) (pattern : List UInt8) :
    (tracedRecvUntil array conn len pattern).Stays array len :=
  stays_tracedRecvUntilLoop array [] conn

/-! ### Reading strings -/

theorem stays_readString {m : Memory} {s : List UInt8} (h : s <:+ m.cString) {size : ℕ} :
    (readString array m s).Stays array size ↔ m.cString.length < size := by
  have hle := h.length_le
  rw [readString, stays_touchRange (Nat.succ_pos _)]
  omega

/-- `strstr` reads no more than the string with its terminator, and it reads its first match
but nothing behind that. -/
structure ReadsToMatch (reads : Memory → List UInt8 → ℕ) : Prop where
  inside : ∀ m needle, reads m needle ≤ m.cString.length + 1
  reaches : ∀ m needle found, strstr m.cString needle = some found →
    m.cString.length - found.length + needle.length ≤ reads m needle
  stops : ∀ m needle found, strstr m.cString needle = some found →
    reads m needle ≤ m.cString.length - found.length + needle.length

def readsBytewise (m : Memory) (needle : List UInt8) : ℕ :=
  match strstr m.cString needle with
  | some found => m.cString.length - found.length + needle.length
  | none => m.cString.length + 1

theorem readsToMatch_bytewise : ReadsToMatch readsBytewise where
  inside m needle := by
    rw [readsBytewise]
    split
    · next found hfound =>
        obtain ⟨hsuffix, hstarts, -⟩ := findFirst_eq_some hfound
        have hneedle := (List.isPrefixOf_iff_prefix.mp hstarts).length_le
        have hle := hsuffix.length_le
        omega
    · exact le_rfl
  reaches m needle found h := by rw [readsBytewise, h]
  stops m needle found h := by rw [readsBytewise, h]

section Strstr

variable {reads : Memory → List UInt8 → ℕ} {m : Memory} {needle : List UInt8} {size : ℕ}

variable (reads m needle) in
theorem val_tracedStrstr : (tracedStrstr array reads m needle).val = strstr m.cString needle := by
  rw [tracedStrstr, val_bind, val_pure]

theorem stays_tracedStrstr_some (hreads : ReadsToMatch reads) {found : List UInt8}
    (hne : needle ≠ []) (h : strstr m.cString needle = some found) :
    (tracedStrstr array reads m needle).Stays array size ↔
      m.cString.length - found.length + needle.length ≤ size := by
  have hpos : 0 < needle.length := List.length_pos_iff.mpr hne
  have hread := le_antisymm (hreads.stops m needle found h) (hreads.reaches m needle found h)
  rw [tracedStrstr, stays_bind, and_iff_left (stays_pure _ _ _), hread,
    stays_touchRange (by omega), Nat.zero_add]

theorem stays_tracedStrstr (hreads : ReadsToMatch reads) (h : m.cString.length < size) :
    (tracedStrstr array reads m needle).Stays array size := by
  have hinside := hreads.inside m needle
  rw [tracedStrstr, stays_bind, and_iff_left (stays_pure _ _ _)]
  rcases Nat.eq_zero_or_pos (reads m needle) with hnone | hpos
  · rw [hnone]
    exact stays_pure _ _ _
  · rw [stays_touchRange hpos]
    omega

end Strstr

theorem val_tracedStartsWithCase (m : Memory) (limit i : ℕ) (needle : List UInt8) :
    (tracedStartsWithCase array m limit i needle).val =
      startsWithCase (m.cStringAt limit i) needle := by
  induction limit generalizing i needle with
  | zero => cases needle <;> rfl
  | succ limit ih =>
      cases needle with
      | nil => cases hs : m.cStringAt (limit + 1) i <;> rfl
      | cons n needle =>
          rw [tracedStartsWithCase, val_bind, Memory.cStringAt]
          by_cases hzero : m i = 0
          · simp [hzero, startsWithCase]
          · rw [if_neg hzero, startsWithCase]
            split
            · next heq => simp [ih, heq.2]
            · next hne =>
                have hdiffers : decide (toLower (m i) = toLower n) = false :=
                  decide_eq_false fun heq => hne ⟨hzero, heq⟩
                rw [val_pure, hdiffers, Bool.false_and]

theorem val_tracedStrcasestrLoop (m : Memory) (needle : List UInt8) (limit i : ℕ) :
    (tracedStrcasestrLoop array m needle limit i).val =
      findFirst (fun u => startsWithCase u needle) (m.cStringAt limit i) := by
  induction limit generalizing i with
  | zero => rfl
  | succ limit ih =>
      rw [tracedStrcasestrLoop, val_bind]
      by_cases hzero : m i = 0
      · rw [Memory.cStringAt, if_pos hzero, if_pos hzero]
        rfl
      · have hstring : m.cStringAt (limit + 1) i = m i :: m.cStringAt limit (i + 1) := by
          rw [Memory.cStringAt, if_neg hzero]
        rw [if_neg hzero, val_bind, val_tracedStartsWithCase, hstring, findFirst]
        split
        · rfl
        · exact ih _

theorem val_tracedStrcasestrPortable (m : Memory) (needle : List UInt8) :
    (tracedStrcasestrPortable array m needle).val = strcasestrPortable m.cString needle := by
  rw [tracedStrcasestrPortable, strcasestrPortable]
  split
  · rfl
  · exact val_tracedStrcasestrLoop array m needle _ _

theorem stays_tracedStartsWithCase {m : Memory} {limit i : ℕ} {needle : List UInt8} {size : ℕ}
    (h : i + (m.cStringAt limit i).length < size) :
    (tracedStartsWithCase array m limit i needle).Stays array size := by
  induction limit generalizing i needle with
  | zero => exact stays_pure _ _ _
  | succ limit ih =>
      have htouch : (touch array i : Traced ι PUnit).Stays array size :=
        stays_touch.mpr fun _ => by omega
      cases needle with
      | nil =>
          rw [tracedStartsWithCase, stays_bind]
          exact ⟨htouch, stays_pure _ _ _⟩
      | cons n needle =>
          rw [tracedStartsWithCase, stays_bind]
          refine ⟨htouch, ?_⟩
          split
          · next heq =>
              rw [Memory.cStringAt, if_neg heq.1, List.length_cons] at h
              exact ih (by omega)
          · exact stays_pure _ _ _

/-- The search of `strcasestr_portable` stays inside an array that has the terminator in it. -/
theorem stays_tracedStrcasestrLoop {m : Memory} {needle : List UInt8} {limit i size : ℕ}
    (h : i + (m.cStringAt limit i).length < size) :
    (tracedStrcasestrLoop array m needle limit i).Stays array size := by
  induction limit generalizing i with
  | zero => exact stays_pure _ _ _
  | succ limit ih =>
      rw [tracedStrcasestrLoop, stays_bind, stays_touch]
      refine ⟨fun _ => by omega, ?_⟩
      split
      · exact stays_pure _ _ _
      · next hzero =>
          rw [stays_bind]
          refine ⟨stays_tracedStartsWithCase array h, ?_⟩
          rw [Memory.cStringAt, if_neg hzero, List.length_cons] at h
          split
          · exact stays_pure _ _ _
          · exact ih (by omega)

theorem stays_tracedStrcasestrPortable {m : Memory} {needle : List UInt8} {size : ℕ}
    (h : m.cString.length < size) :
    (tracedStrcasestrPortable array m needle).Stays array size := by
  rw [tracedStrcasestrPortable]
  split
  · exact stays_pure _ _ _
  · apply stays_tracedStrcasestrLoop
    rwa [Nat.zero_add]

end Kademlia.Http
