import Kademlia.Http.Requests

/-!
The length of a request of which more may follow.

The field is looked for without regard to case, but its number is read only
behind a name in the right case. What has arrived settles whether there is a
number as soon as the field is found and a byte that is neither space nor sign
follows it.
-/

namespace Kademlia.Http

open Foundations CString Model

/-! ### Finding the field -/

theorem startsWithCase_iff {s needle : List UInt8} :
    startsWithCase s needle = true ↔
      (s.take needle.length).map toLower = needle.map toLower := by
  induction needle generalizing s with
  | nil => cases s <;> simp [startsWithCase]
  | cons n needle ih =>
      cases s with
      | nil => simp [startsWithCase]
      | cons b s => simp [startsWithCase, ih]

theorem length_le_of_startsWithCase {s needle : List UInt8} (h : startsWithCase s needle = true) :
    needle.length ≤ s.length := by
  induction needle generalizing s with
  | nil => exact Nat.zero_le _
  | cons n needle ih =>
      cases s with
      | nil => cases h
      | cons b s =>
          rw [startsWithCase, Bool.and_eq_true] at h
          exact Nat.succ_le_succ (ih h.2)

theorem startsWithCase_append {s needle : List UInt8} (h : needle.length ≤ s.length)
    (t : List UInt8) : startsWithCase (s ++ t) needle = startsWithCase s needle := by
  induction needle generalizing s with
  | nil => cases s <;> cases t <;> rfl
  | cons n needle ih =>
      cases s with
      | nil => cases h
      | cons b s =>
          rw [List.cons_append, startsWithCase, startsWithCase, ih (Nat.le_of_succ_le_succ h)]

/-- A needle cannot begin before a byte that it does not have and end behind. -/
theorem startsWithCase_append_of_not_mem {s needle : List UInt8} {c : UInt8}
    (hneedle : ∀ n ∈ needle, toLower c ≠ toLower n) (h : startsWithCase s needle = false)
    (t : List UInt8) : startsWithCase (s ++ c :: t) needle = false := by
  induction needle generalizing s with
  | nil => cases s <;> cases h
  | cons n needle ih =>
      cases s with
      | nil =>
          have hc : decide (toLower c = toLower n) = false :=
            decide_eq_false (hneedle n List.mem_cons_self)
          rw [List.nil_append, startsWithCase, hc, Bool.false_and]
      | cons b s =>
          rw [startsWithCase] at h
          rw [List.cons_append, startsWithCase]
          cases hb : decide (toLower b = toLower n) with
          | false => rfl
          | true =>
              rw [hb, Bool.true_and] at h
              exact ih (fun n' hn' => hneedle n' (List.mem_cons_of_mem n hn')) h

theorem strcasestrPortable_eq {s needle : List UInt8} (h : needle ≠ []) :
    strcasestrPortable s needle = findFirst (fun u => startsWithCase u needle) s := by
  rw [strcasestrPortable, if_neg fun hnil => h (List.isEmpty_iff.mp hnil)]

theorem contentLengthName_ne_nil : contentLengthName ≠ [] := by decide

theorem length_le_of_field {s field : List UInt8}
    (h : strcasestrPortable s contentLengthName = some field) :
    contentLengthName.length ≤ field.length := by
  rw [strcasestrPortable_eq contentLengthName_ne_nil] at h
  exact length_le_of_startsWithCase (findFirst_eq_some h).2.1

theorem field_append {s field : List UInt8}
    (h : strcasestrPortable s contentLengthName = some field) (t : List UInt8) :
    strcasestrPortable (s ++ t) contentLengthName = some (field ++ t) := by
  have hlen := length_le_of_field h
  rw [strcasestrPortable_eq contentLengthName_ne_nil] at h ⊢
  exact findFirst_append h fun u hu => startsWithCase_append (hlen.trans hu) t

theorem field_append_of_none {s : List UInt8} {c : UInt8}
    (hc : ∀ n ∈ contentLengthName, toLower c ≠ toLower n)
    (h : strcasestrPortable s contentLengthName = none) (t : List UInt8) :
    strcasestrPortable (s ++ c :: t) contentLengthName =
      strcasestrPortable (c :: t) contentLengthName := by
  rw [strcasestrPortable_eq contentLengthName_ne_nil] at h ⊢
  rw [strcasestrPortable_eq contentLengthName_ne_nil]
  exact findFirst_append_of_none h fun u hu => startsWithCase_append_of_not_mem hc hu t

/-! ### Reading the number -/

/-- Whether the first field of `s` has a number; `none` if `s` does not settle it. -/
def lengthVerdict (s : List UInt8) : Option Bool := do
  let field ← strcasestrPortable s contentLengthName
  if contentLengthName.isPrefixOf field then
    (numberStart (field.drop contentLengthName.length)).head?.map isDigit
  else some false

theorem lengthOf_of_field {s field : List UInt8}
    (h : strcasestrPortable s contentLengthName = some field) :
    lengthOf s = if contentLengthName.isPrefixOf field then
      scanUnsigned (2 ^ 64) (field.drop contentLengthName.length) else none := by
  rw [lengthOf, h, Option.bind_some, scanContentLength, scanUnsigned_skipSpace]

theorem lengthOf_append_of_field {s field : List UInt8}
    (h : strcasestrPortable s contentLengthName = some field) (t : List UInt8) :
    lengthOf (s ++ t) = if contentLengthName.isPrefixOf field then
      scanUnsigned (2 ^ 64) (field.drop contentLengthName.length ++ t) else none := by
  have hlen := length_le_of_field h
  rw [lengthOf_of_field (field_append h t), isPrefixOf_append hlen,
    List.drop_append_of_le_length hlen]

theorem isSome_lengthOf_append {s : List UInt8} {verdict : Bool}
    (h : lengthVerdict s = some verdict) (t : List UInt8) :
    (lengthOf (s ++ t)).isSome = verdict := by
  rw [lengthVerdict] at h
  cases hfield : strcasestrPortable s contentLengthName with
  | none =>
      rw [hfield] at h
      cases h
  | some field =>
      rw [hfield, Option.bind_eq_bind, Option.bind_some] at h
      rw [lengthOf_append_of_field hfield]
      split at h
      · next hname =>
          obtain ⟨b, hhead, hb⟩ := Option.map_eq_some_iff.mp h
          have hne : numberStart (field.drop contentLengthName.length) ≠ [] := by
            intro hnil
            rw [hnil] at hhead
            cases hhead
          rw [if_pos hname, scanUnsigned_isSome, numberStart_append hne,
            List.head?_append_of_ne_nil _ hne, hhead, ← hb]
          rfl
      · next hname =>
          rw [if_neg hname]
          exact Option.some.inj h

theorem lengthOf_append_eq_none {s : List UInt8} (h : lengthVerdict s = some false)
    (t : List UInt8) : lengthOf (s ++ t) = none := by
  rw [← Option.not_isSome_iff_eq_none, isSome_lengthOf_append h]
  decide

theorem lengthOf_append {s : List UInt8} (h : (lengthVerdict s).isSome = true)
    (hlast : ∀ b, s.getLast? = some b → isDigit b = false) (t : List UInt8) :
    lengthOf (s ++ t) = lengthOf s := by
  rw [lengthVerdict] at h
  cases hfield : strcasestrPortable s contentLengthName with
  | none =>
      rw [hfield] at h
      cases h
  | some field =>
      rw [hfield, Option.bind_eq_bind, Option.bind_some] at h
      rw [lengthOf_append_of_field hfield, lengthOf_of_field hfield]
      split
      · next hname =>
          rw [if_pos hname, Option.isSome_map] at h
          apply scanUnsigned_append
          refine lt_of_le_of_ne (List.takeWhile_prefix _).length_le fun heq => ?_
          -- otherwise the digits are the end of `s`
          have hall := List.takeWhile_eq_self_iff.mp
            ((List.takeWhile_prefix isDigit).eq_of_length heq)
          have hne : numberStart (field.drop contentLengthName.length) ≠ [] := by
            intro hnil
            rw [hnil] at h
            cases h
          have hsuffix : numberStart (field.drop contentLengthName.length) <:+ s := by
            rw [strcasestrPortable_eq contentLengthName_ne_nil] at hfield
            exact (numberStart_suffix _).trans
              ((List.drop_suffix _ _).trans (findFirst_eq_some hfield).1)
          obtain ⟨before, rfl⟩ := hsuffix
          have hdigit := hlast _ (by
            rw [List.getLast?_append_of_ne_nil _ hne, List.getLast?_eq_some_getLast hne])
          rw [hall _ (List.getLast_mem hne)] at hdigit
          cases hdigit
      · rfl

/-- What is not settled has no number yet and may still get one. -/
theorem exists_length_of_unsettled {s : List UInt8} (h : lengthVerdict s = none) :
    lengthOf s = none ∧
      ∃ t, 0 ∉ t ∧ t.length ≤ 17 ∧ (lengthOf (s ++ t)).isSome = true := by
  rw [lengthVerdict] at h
  cases hfield : strcasestrPortable s contentLengthName with
  | none =>
      refine ⟨by rw [lengthOf, hfield]; rfl, 32 :: ascii "Content-Length:5", by decide,
        by decide, ?_⟩
      rw [lengthOf, field_append_of_none (by decide +kernel) hfield]
      decide
  | some field =>
      rw [hfield, Option.bind_eq_bind, Option.bind_some] at h
      split at h
      · next hname =>
          have hnil : numberStart (field.drop contentLengthName.length) = [] :=
            List.head?_eq_none_iff.mp (Option.map_eq_none_iff.mp h)
          refine ⟨?_, [53], by decide, by decide, ?_⟩
          · rw [lengthOf_of_field hfield, if_pos hname, ← Option.isNone_iff_eq_none,
              ← Option.not_isSome, scanUnsigned_isSome, hnil]
            rfl
          · rw [lengthOf_append_of_field hfield, if_pos hname, scanUnsigned_isSome,
              numberStart_append_digit (by decide) hnil]
            rfl
      · cases h

end Kademlia.Http
