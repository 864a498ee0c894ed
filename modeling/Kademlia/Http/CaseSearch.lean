import Kademlia.Http.StringAccess
import Kademlia.Model.CaseSearch

/-!
What `strcasestr_portable` finds.

It compares by `tolower`, which is the same for two bytes if they are equal or one
letter in upper and lower case. The search is carried over from the strings as lists
to the pointers, where both loops stop at a terminator at the latest.
-/

namespace Kademlia.Http

open Foundations Foundations.Traced CString Model

/-! ### Letters -/

/-- The same byte, or the same letter of which one is in upper case. -/
def SameLetter (a b : UInt8) : Prop :=
  a = b ∨ (65 ≤ a ∧ a ≤ 90 ∧ b = a + 32) ∨ (65 ≤ b ∧ b ≤ 90 ∧ a = b + 32)

theorem toLower_eq_iff {a b : UInt8} : toLower a = toLower b ↔ SameLetter a b := by
  unfold toLower SameLetter
  grind

theorem startsWithCase_iff_beginsWith {s needle : List UInt8} :
    startsWithCase s needle = true ↔ BeginsWith SameLetter s needle := by
  induction needle generalizing s with
  | nil =>
      rw [startsWithCase]
      exact iff_of_true rfl (beginsWith_nil s)
  | cons n needle ih =>
      cases s with
      | nil => exact iff_of_false Bool.false_ne_true not_beginsWith_cons
      | cons b s =>
          rw [startsWithCase, Bool.and_eq_true, decide_eq_true_iff, toLower_eq_iff, ih,
            beginsWith_cons_cons]

/-! ### The first position -/

section FirstPosition

variable {s needle found : List UInt8} {k : ℕ}

theorem occursAt_iff_startsWithCase (hk : k ≤ s.length) :
    OccursAt SameLetter s needle k ↔ startsWithCase (s.drop k) needle = true := by
  rw [occursAt_iff, and_iff_right hk, startsWithCase_iff_beginsWith]

theorem strcasestrPortable_eq_some_iff :
    strcasestrPortable s needle = some found ↔
      ∃ k, FirstAt SameLetter s needle k ∧ found = s.drop k := by
  rcases eq_or_ne needle [] with rfl | hne
  · constructor
    · rintro ⟨⟩
      exact ⟨0, firstAt_nil s, rfl⟩
    · rintro ⟨k, hk, rfl⟩
      rw [hk.unique (firstAt_nil s)]
      rfl
  · rw [strcasestrPortable_eq hne, findFirst_eq_some_iff]
    constructor
    · rintro ⟨-, hstarts, u, rfl, hbefore⟩
      refine ⟨u.length, ⟨?_, fun j hj hoccurs => ?_⟩, List.drop_left.symm⟩
      · rw [occursAt_iff_startsWithCase (by simp), List.drop_left]
        exact hstarts
      · rw [occursAt_iff_startsWithCase (by simp; omega), hbefore j hj] at hoccurs
        cases hoccurs
    · rintro ⟨k, ⟨hoccurs, hfirst⟩, rfl⟩
      have hneedle := List.length_pos_iff.mpr hne
      have hend := hoccurs.add_length_le
      have hk : k ≤ s.length := by omega
      refine ⟨?_, (occursAt_iff_startsWithCase hk).mp hoccurs, s.take k,
        (List.take_append_drop k s).symm, fun j hj => ?_⟩
      · rw [Ne, List.drop_eq_nil_iff]
        omega
      · rw [List.length_take_of_le hk] at hj
        exact Bool.eq_false_iff.mpr fun hstarts =>
          hfirst j hj ((occursAt_iff_startsWithCase (by omega)).mpr hstarts)

theorem strcasestrPortable_eq_none_iff :
    strcasestrPortable s needle = none ↔ ∀ k, ¬ OccursAt SameLetter s needle k := by
  rw [Option.eq_none_iff_forall_ne_some]
  constructor
  · intro hnone k hoccurs
    obtain ⟨j, hj⟩ := exists_firstAt hoccurs
    exact hnone (s.drop j) (strcasestrPortable_eq_some_iff.mpr ⟨j, hj, rfl⟩)
  · intro hnot found hfound
    obtain ⟨k, hk, -⟩ := strcasestrPortable_eq_some_iff.mp hfound
    exact hnot k hk.occurs

end FirstPosition

/-! ### What is read -/

section Reads

variable {haystack needle : NulString} {α β : Type}

/-- Of both strings nothing is read behind the terminator. -/
def StaysInside (haystack needle : NulString) (x : Traced SearchArgument α) : Prop :=
  x.Stays .haystack (haystack.length + 1) ∧ x.Stays .needle (needle.length + 1)

theorem staysInside_pure (a : α) : StaysInside haystack needle (pure a) :=
  ⟨stays_pure _ _ _, stays_pure _ _ _⟩

theorem staysInside_bind {x : Traced SearchArgument α} {f : α → Traced SearchArgument β} :
    StaysInside haystack needle (x >>= f) ↔
      StaysInside haystack needle x ∧ StaysInside haystack needle (f x.val) := by
  rw [StaysInside, stays_bind, stays_bind, and_and_and_comm]
  rfl

theorem staysInside_touch_haystack {i : ℕ} (hi : i ≤ haystack.length) :
    StaysInside haystack needle (touch .haystack i) :=
  ⟨stays_touch.mpr fun _ => by omega, stays_touch.mpr fun heq => absurd heq (by decide)⟩

theorem staysInside_touch_needle {i : ℕ} (hi : i ≤ needle.length) :
    StaysInside haystack needle (touch .needle i) :=
  ⟨stays_touch.mpr fun heq => absurd heq (by decide), stays_touch.mpr fun _ => by omega⟩

end Reads

/-! ### The loops -/

section Loops

variable {haystack needle : NulString} {fuel : ℕ}

/-- The inner loop ends at the terminator of `needle` exactly after a match. -/
theorem compareLoop_spec {h n : ℕ} (hh : h ≤ haystack.length) (hn : n ≤ needle.length)
    (hfuel : haystack.length < fuel + h) :
    StaysInside haystack needle (compareLoop haystack.cells needle.cells fuel h n) ∧
      ∃ k, (compareLoop haystack.cells needle.cells fuel h n).val = some k ∧ k ≤ needle.length ∧
        (k = needle.length ↔
          startsWithCase (haystack.text.drop h) (needle.text.drop n) = true) := by
  induction fuel generalizing h n with
  | zero => omega
  | succ fuel ih =>
      have hhread : StaysInside haystack needle (touch .haystack h) :=
        staysInside_touch_haystack hh
      have hnread : StaysInside haystack needle (touch .needle n) := staysInside_touch_needle hn
      rw [compareLoop, staysInside_bind, and_iff_right hhread, val_bind]
      by_cases hhzero : haystack.cells h = 0
      · rw [if_pos hhzero]
        obtain rfl := (haystack.cells_eq_iff hh).mp hhzero
        rw [Terminated.drop_length_text]
        refine ⟨staysInside_pure _, n, rfl, hn, ?_⟩
        rcases hn.eq_or_lt with rfl | hlt
        · rw [Terminated.drop_length_text]
          exact iff_of_true rfl rfl
        · rw [needle.drop_text hlt]
          exact iff_of_false hlt.ne Bool.false_ne_true
      · have hhlt := haystack.lt_length hh hhzero
        rw [if_neg hhzero, staysInside_bind, and_iff_right hnread, val_bind,
          haystack.drop_text hhlt]
        by_cases hnzero : needle.cells n = 0
        · rw [if_pos hnzero]
          obtain rfl := (needle.cells_eq_iff hn).mp hnzero
          rw [Terminated.drop_length_text]
          exact ⟨staysInside_pure _, _, rfl, le_rfl, iff_of_true rfl rfl⟩
        · have hnlt := needle.lt_length hn hnzero
          rw [if_neg hnzero, staysInside_bind, and_iff_right hhread, staysInside_bind,
            and_iff_right hnread, val_bind, val_bind, needle.drop_text hnlt, startsWithCase]
          by_cases hsame : toLower (haystack.cells h) = toLower (needle.cells n)
          · rw [if_pos hsame, decide_eq_true hsame, Bool.true_and]
            exact ih hhlt hnlt (by omega)
          · rw [if_neg hsame, decide_eq_false hsame, Bool.false_and]
            exact ⟨staysInside_pure _, n, rfl, hn, iff_of_false hnlt.ne Bool.false_ne_true⟩

theorem searchLoop_spec {i : ℕ} (hi : i ≤ haystack.length) (hfuel : haystack.length < fuel + i) :
    StaysInside haystack needle (searchLoop haystack.cells needle.cells fuel i) ∧
      (searchLoop haystack.cells needle.cells fuel i).val =
        some ((findFirst (fun u => startsWithCase u needle.text) (haystack.text.drop i)).map
          fun found => haystack.length - found.length) := by
  induction fuel generalizing i with
  | zero => omega
  | succ fuel ih =>
      rw [searchLoop, staysInside_bind, and_iff_right (staysInside_touch_haystack hi), val_bind]
      by_cases hzero : haystack.cells i = 0
      · rw [if_pos hzero]
        obtain rfl := (haystack.cells_eq_iff hi).mp hzero
        rw [Terminated.drop_length_text]
        exact ⟨staysInside_pure _, rfl⟩
      · have hlt := haystack.lt_length hi hzero
        obtain ⟨hstays, k, hval, hk, hmatch⟩ :=
          compareLoop_spec hi (Nat.zero_le needle.length) hfuel
        have hlen : haystack.length - (haystack.text.drop i).length = i := by
          rw [List.length_drop, Terminated.length_text]
          omega
        rw [List.drop_zero] at hmatch
        rw [haystack.drop_text hlt] at hmatch hlen ⊢
        rw [if_neg hzero, staysInside_bind, and_iff_right hstays, val_bind, hval, findFirst]
        dsimp only
        rw [staysInside_bind, and_iff_right (staysInside_touch_needle hk), val_bind]
        by_cases hend : k = needle.length
        · rw [if_pos ((needle.cells_eq_iff hk).mpr hend), if_pos (hmatch.mp hend),
            Option.map_some, hlen]
          exact ⟨staysInside_pure _, rfl⟩
        · rw [if_neg fun heq => hend ((needle.cells_eq_iff hk).mp heq),
            if_neg fun hstarts => hend (hmatch.mpr hstarts)]
          exact ih hlt (by omega)

theorem strcasestrPortableIn_spec (haystack needle : NulString) :
    StaysInside haystack needle (strcasestrPortableIn haystack needle) ∧
      (strcasestrPortableIn haystack needle).val =
        some ((strcasestrPortable haystack.text needle.text).map
          fun found => haystack.length - found.length) := by
  have hempty : needle.text.isEmpty = true ↔ 0 = needle.length := by
    rw [List.isEmpty_iff, ← List.length_eq_zero_iff, Terminated.length_text, eq_comm]
  have hread : StaysInside haystack needle (touch .needle 0) :=
    staysInside_touch_needle (Nat.zero_le needle.length)
  rw [strcasestrPortableIn, staysInside_bind, and_iff_right hread, val_bind, strcasestrPortable]
  by_cases hzero : needle.cells 0 = 0
  · have hnil := (needle.cells_eq_iff (Nat.zero_le _)).mp hzero
    rw [if_pos hzero, if_pos (hempty.mpr hnil), Option.map_some, Terminated.length_text,
      Nat.sub_self]
    exact ⟨staysInside_pure _, rfl⟩
  · have hpos := needle.lt_length (Nat.zero_le _) hzero
    rw [if_neg hzero, if_neg fun hnil => hpos.ne (hempty.mp hnil)]
    exact searchLoop_spec (Nat.zero_le _) (Nat.lt_succ_self _)

end Loops

/-! ### The reference -/

/-- The search ends, with the first position of `needle` or `NULL` if there is none, and it reads
both strings only up to their terminators. -/
theorem strcasestrPortableIn_firstAt (haystack needle : NulString) :
    ∃ ret, (strcasestrPortableIn haystack needle).val = some ret ∧
      (∀ k, ret = some k ↔ FirstAt SameLetter haystack.text needle.text k) ∧
      (ret = none ↔ ∀ k, ¬ OccursAt SameLetter haystack.text needle.text k) ∧
      StaysInside haystack needle (strcasestrPortableIn haystack needle) := by
  obtain ⟨hstays, hval⟩ := strcasestrPortableIn_spec haystack needle
  refine ⟨_, hval, fun k => ?_, ?_, hstays⟩
  · rw [Option.map_eq_some_iff]
    have hposition {j : ℕ} (hj : FirstAt SameLetter haystack.text needle.text j) :
        haystack.length - (haystack.text.drop j).length = j := by
      have hend := hj.occurs.add_length_le
      rw [Terminated.length_text, Terminated.length_text] at hend
      rw [List.length_drop, Terminated.length_text]
      omega
    constructor
    · rintro ⟨found, hfound, rfl⟩
      obtain ⟨j, hj, rfl⟩ := strcasestrPortable_eq_some_iff.mp hfound
      rwa [hposition hj]
    · intro hk
      exact ⟨_, strcasestrPortable_eq_some_iff.mpr ⟨k, hk, rfl⟩, hposition hk⟩
  · rw [Option.map_eq_none_iff, strcasestrPortable_eq_none_iff]

-- the match at position 0 fails at its last letter, and the next one ends with the haystack
example :
    (strcasestrPortableIn (.ofList (ascii "aAAb") (by decide))
      (.ofList (ascii "aab") (by decide))).val = some (some 1) := by
  decide

/-! ### The search in a header -/

theorem cStringAt_eq_drop_text (s : NulString) {limit i : ℕ} (hi : i ≤ s.length)
    (hlimit : s.length < limit + i) : Memory.cStringAt s.cells limit i = s.text.drop i := by
  induction limit generalizing i with
  | zero => omega
  | succ limit ih =>
      rw [Memory.cStringAt]
      by_cases hzero : s.cells i = 0
      · rw [if_pos hzero, (s.cells_eq_iff hi).mp hzero, Terminated.drop_length_text]
      · have hlt := s.lt_length hi hzero
        rw [if_neg hzero, s.drop_text hlt, ih hlt (by omega)]

theorem cString_eq_text {s : NulString} (hlen : s.length < 2 ^ 64) :
    Memory.cString s.cells = s.text :=
  cStringAt_eq_drop_text s (Nat.zero_le _) hlen

theorem val_strcasestrPortableIn_ofList {ι : Type} (array : ι) {header : NulString}
    (hlen : header.length < 2 ^ 64) {needle : List UInt8} (hnul : 0 ∉ needle) :
    (strcasestrPortableIn header (.ofList needle hnul)).val =
      some ((tracedStrcasestrPortable array header.cells needle).val.map
        fun found => header.length - found.length) := by
  rw [(strcasestrPortableIn_spec _ _).2, Terminated.text_ofList, val_tracedStrcasestrPortable,
    cString_eq_text hlen]

end Kademlia.Http
