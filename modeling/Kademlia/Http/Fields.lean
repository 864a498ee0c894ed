import Kademlia.Http.Headers

/-!
The length that a header declares.

This is what the format says, and not what the program looks for: the header is
split into its lines, the first is the request or the status, and the field is
a line with the name in front of its colon, in whichever case it is written.
-/

namespace Kademlia.Http

open Foundations CString Model Framing

/-- The lines of a text; those in front of the last have a line end behind them. -/
def splitLines : List UInt8 → List (List UInt8)
  | [] => [[]]
  | 13 :: 10 :: s => [] :: splitLines s
  | b :: s => (splitLines s).modifyHead (b :: ·)

def isLengthField (line : List UInt8) : Bool := startsWithCase line contentLengthName

/-- The number that a value consists of. -/
def fieldNumber (value : List UInt8) : Option ℕ :=
  let digits := (skipSpace value).rdropWhile isSpace
  if digits ≠ [] ∧ ∀ b ∈ digits, isDigit b = true then some (decimalValue digits) else none

def declaredLength (header : List UInt8) : Option ℕ := do
  let field ← (splitLines header).tail.find? isLengthField
  fieldNumber (field.drop contentLengthName.length)

def IsSuccess (header : List UInt8) : Prop :=
  ∃ code ∈ parseStatus header, 200 ≤ code ∧ code < 300

instance : DecidablePred IsSuccess := fun header =>
  inferInstanceAs (Decidable (∃ code ∈ parseStatus header, 200 ≤ code ∧ code < 300))

/-- A header and the empty line that is its end. -/
structure IsHeader (header : List UInt8) : Prop where
  first : MatchedLast httpPattern header
  ends : httpPattern <:+ header

/-! ### Lines told apart -/

theorem splitLines_line {line : List UInt8} (h : 10 ∉ line) (t : List UInt8) :
    splitLines (line ++ 13 :: 10 :: t) = line :: splitLines t := by
  induction line with
  | nil => rfl
  | cons b line ih =>
      rw [List.mem_cons, not_or] at h
      rw [List.cons_append, splitLines.eq_def]
      split
      · next heq => cases heq
      · next heq =>
          -- a return is followed by the rest of the line or by that of its end
          obtain ⟨rfl, htail⟩ := List.cons.inj heq
          cases line with
          | nil => cases htail
          | cons c line =>
              rw [List.cons_append, List.cons.injEq] at htail
              exact absurd (htail.1 ▸ List.mem_cons_self) h.2
      · next heq =>
          obtain ⟨rfl, rfl⟩ := List.cons.inj heq
          rw [ih h.2, List.modifyHead_cons]

theorem splitLines_headerText {lines : List (List UInt8)} (h : ∀ line ∈ lines, 10 ∉ line) :
    splitLines (headerText lines) = lines ++ [[], []] := by
  induction lines with
  | nil => rfl
  | cons line lines ih =>
      have htext : headerText (line :: lines) = line ++ 13 :: 10 :: headerText lines := by
        simp [headerText, joinLines]
      rw [htext, splitLines_line (h line List.mem_cons_self),
        ih fun l hl => h l (List.mem_cons_of_mem line hl), List.cons_append]

/-! ### Numbers that were written -/

theorem fieldNumber_word {s : List UInt8} (h : ∀ b ∈ s, isSpace b = false) :
    fieldNumber (32 :: s) =
      if s ≠ [] ∧ ∀ b ∈ s, isDigit b = true then some (decimalValue s) else none := by
  have hfront : skipSpace (32 :: s) = s := by
    have hspace : isSpace 32 = true := by decide
    rw [skipSpace, List.dropWhile_cons_of_pos hspace, List.dropWhile_eq_self_iff]
    intro hpos
    simp [h _ (List.getElem_mem hpos)]
  have hback : s.rdropWhile isSpace = s := by
    rw [List.rdropWhile_eq_self_iff]
    intro hne
    simp [h _ (List.getLast_mem hne)]
  rw [fieldNumber, hfront, hback]

theorem fieldNumber_decimal (n : ℕ) : fieldNumber (32 :: decimal n) = some n := by
  rw [fieldNumber_word fun _ hb => isSpace_of_isDigit (isDigit_of_mem_decimal hb),
    if_pos ⟨decimal_ne_nil n, fun _ hb => isDigit_of_mem_decimal hb⟩, decimalValue_decimal]

theorem fieldNumber_signedDecimal_iff {size : ℤ} {n : ℕ} :
    fieldNumber (32 :: signedDecimal size) = some n ↔ size = n := by
  rcases lt_or_ge size 0 with hneg | hpos
  · have hminus : ¬ isDigit 45 = true := by decide
    have hword : ∀ b ∈ 45 :: decimal size.natAbs, isSpace b = false := by
      refine List.forall_mem_cons.mpr ⟨by decide, fun b hb => ?_⟩
      exact isSpace_of_isDigit (isDigit_of_mem_decimal hb)
    rw [signedDecimal, if_pos hneg, fieldNumber_word hword,
      if_neg fun h => hminus (h.2 45 List.mem_cons_self)]
    exact iff_of_false (Option.some_ne_none n).symm (by omega)
  · obtain ⟨k, rfl⟩ := Int.eq_ofNat_of_zero_le hpos
    rw [signedDecimal_natCast, fieldNumber_decimal, Option.some.injEq, Nat.cast_inj]

end Kademlia.Http
