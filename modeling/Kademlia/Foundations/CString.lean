import Mathlib

/-!
NUL-terminated strings and the functions that read and write them.

A string is the list of its bytes up to the terminator, which is left out.
The functions follow the C library in the "C" locale: what is a space, which
part of the input a conversion of `sscanf` reads, what number it makes of it.
-/

namespace Kademlia.Foundations.CString

def ascii (s : String) : List UInt8 := s.toList.map fun c => UInt8.ofNat c.toNat

def isSpace (b : UInt8) : Bool := b = 32 ∨ (9 ≤ b ∧ b ≤ 13)

def isDigit (b : UInt8) : Bool := 48 ≤ b ∧ b ≤ 57

def toLower (b : UInt8) : UInt8 := if 65 ≤ b ∧ b ≤ 90 then b + 32 else b

def skipSpace (s : List UInt8) : List UInt8 := s.dropWhile isSpace

/-- The bytes up to the next space. -/
def word (s : List UInt8) : List UInt8 := s.takeWhile fun b => !isSpace b

/-- What `%<limit>s` stores. -/
def scanWord (limit : ℕ) (s : List UInt8) : List UInt8 := (word (skipSpace s)).take limit

/-! ### Numbers -/

/-- `%d` of a number that is not negative. -/
def decimal (n : ℕ) : List UInt8 := (Nat.toDigits 10 n).map fun c => UInt8.ofNat c.toNat

def decimalValue (digits : List UInt8) : ℕ :=
  digits.foldl (fun value b => 10 * value + (b.toNat - 48)) 0

/-- The input behind an optional sign, and whether that is a minus. -/
def scanSign : List UInt8 → Bool × List UInt8
  | 45 :: s => (true, s)
  | 43 :: s => (false, s)
  | s => (false, s)

/-- What an integer conversion reads: whether there is a minus, the digits, of
which there is at least one, and the rest of the input. -/
def scanDigits (s : List UInt8) : Option (Bool × List UInt8 × List UInt8) :=
  let (negative, s) := scanSign (skipSpace s)
  let digits := s.takeWhile isDigit
  if digits.isEmpty then none else some (negative, digits, s.dropWhile isDigit)

/-- `%zu` for a `size_t` below `bound`, saturating as `strtoul` does. -/
def scanUnsigned (bound : ℕ) (s : List UInt8) : Option ℕ := do
  let (negative, digits, _) ← scanDigits s
  let value := decimalValue digits
  if bound ≤ value then some (bound - 1)
  else if negative then some ((bound - value) % bound)
  else some value

/-- `%d`: the result of `strtol`, which saturates at `bound`, before it is
stored into an `int`; and the rest of the input. -/
def scanSigned (bound : ℕ) (s : List UInt8) : Option (ℤ × List UInt8) := do
  let (negative, digits, rest) ← scanDigits s
  let value := decimalValue digits
  if negative then some (-(min value bound : ℕ), rest)
  else some ((min value (bound - 1) : ℕ), rest)

/-! ### Searching and storing -/

def findFirst (test : List UInt8 → Bool) : List UInt8 → Option (List UInt8)
  | [] => none
  | b :: s => if test (b :: s) then some (b :: s) else findFirst test s

/-- `strstr`, for a needle that is not empty. -/
def strstr (s needle : List UInt8) : Option (List UInt8) := findFirst needle.isPrefixOf s

/-- What `snprintf` stores of `text` in an array of `size` bytes. -/
def snprintf (size : ℕ) (text : List UInt8) : List UInt8 := text.take (size - 1)

theorem snprintf_eq_self {size : ℕ} {text : List UInt8} (h : text.length < size) :
    snprintf size text = text := List.take_of_length_le (by omega)

theorem mem_of_mem_intercalate {b : UInt8} {sep : List UInt8} {texts : List (List UInt8)}
    (h : b ∈ List.intercalate sep texts) : b ∈ sep ∨ ∃ text ∈ texts, b ∈ text := by
  induction texts with
  | nil => cases h
  | cons text texts ih =>
      cases texts with
      | nil =>
          rw [List.intercalate_singleton] at h
          exact Or.inr ⟨text, List.mem_cons_self, h⟩
      | cons text' texts =>
          rw [List.intercalate_cons_cons, List.mem_append, List.mem_append] at h
          rcases h with (h | h) | h
          · exact Or.inr ⟨text, List.mem_cons_self, h⟩
          · exact Or.inl h
          · refine (ih h).imp_right ?_
            rintro ⟨text'', hmem, h⟩
            exact ⟨text'', List.mem_cons_of_mem text hmem, h⟩

/-! ### Words -/

theorem skipSpace_eq_self {b : UInt8} (h : isSpace b = false) (s : List UInt8) :
    skipSpace (b :: s) = b :: s := by
  rw [skipSpace, List.dropWhile_cons_of_neg (by simp [h])]

theorem word_append {s : List UInt8} (h : ∀ b ∈ s, isSpace b = false) (t : List UInt8) :
    word (s ++ t) = s ++ word t := by
  rw [word, List.takeWhile_append_of_pos (by simpa using h), word]

theorem word_append_space {s : List UInt8} (h : ∀ b ∈ s, isSpace b = false) {b : UInt8}
    (hb : isSpace b = true) (t : List UInt8) : word (s ++ b :: t) = s := by
  rw [word_append h, word, List.takeWhile_cons_of_neg (by simp [hb]), List.append_nil]

theorem isSpace_of_mem_word {s : List UInt8} {b : UInt8} (h : b ∈ word s) : isSpace b = false := by
  simpa using List.mem_takeWhile_imp h

/-- A word that is over is the word of every continuation. -/
theorem word_append_of_lt {s : List UInt8} (h : (word s).length < s.length) (t : List UInt8) :
    word (s ++ t) = word s := by
  rw [word, List.takeWhile_append, if_neg]
  · rfl
  · exact h.ne

theorem word_eq_self_of_le {s : List UInt8} (h : s.length ≤ (word s).length) : word s = s :=
  (List.takeWhile_prefix _).eq_of_length_le h

/-! ### Numbers read back -/

theorem isDigit_of_mem_decimal {n : ℕ} {b : UInt8} (h : b ∈ decimal n) : isDigit b = true := by
  obtain ⟨c, hc, rfl⟩ := List.mem_map.mp h
  have hdigit : c.isDigit = true := Nat.isDigit_of_mem_toDigits (by decide) (by decide) hc
  simp only [Char.isDigit, Bool.and_eq_true, decide_eq_true_eq] at hdigit
  have hlow : 48 ≤ c.toNat := hdigit.1
  have hhigh : c.toNat ≤ 57 := hdigit.2
  have hval : (UInt8.ofNat c.toNat).toNat = c.toNat := by
    rw [UInt8.toNat_ofNat']
    omega
  simp only [isDigit, decide_eq_true_eq, UInt8.le_iff_toNat_le, hval]
  exact ⟨hlow, hhigh⟩

theorem decimal_ne_nil (n : ℕ) : decimal n ≠ [] := by
  rw [decimal, Ne, List.map_eq_nil_iff]
  exact Nat.toDigits_ne_nil

theorem decimalValue_decimal (n : ℕ) : decimalValue (decimal n) = n := by
  have hfold : ∀ (l : List Char), (∀ c ∈ l, c.isDigit = true) → ∀ value,
      (l.map fun c => UInt8.ofNat c.toNat).foldl (fun value b => 10 * value + (b.toNat - 48))
        value = Nat.ofDigitChars 10 l value := by
    intro l hl value
    induction l generalizing value with
    | nil => simp [Nat.ofDigitChars_nil]
    | cons c l ih =>
        have hdigit := hl c List.mem_cons_self
        simp only [Char.isDigit, Bool.and_eq_true, decide_eq_true_eq] at hdigit
        have hhigh : c.toNat ≤ 57 := hdigit.2
        have hval : (UInt8.ofNat c.toNat).toNat = c.toNat := by
          rw [UInt8.toNat_ofNat']
          omega
        rw [List.map_cons, List.foldl_cons, hval, Nat.ofDigitChars_cons,
          ih fun c' hc' => hl c' (List.mem_cons_of_mem c hc')]
        rfl
  rw [decimalValue, decimal, hfold _ fun c hc =>
    Nat.isDigit_of_mem_toDigits (by decide) (by decide) hc]
  exact Nat.ofDigitChars_ten_toDigits

theorem isSpace_of_isDigit {b : UInt8} (h : isDigit b = true) : isSpace b = false := by
  simp only [isDigit, decide_eq_true_eq, UInt8.le_iff_toNat_le] at h
  simp only [isSpace, decide_eq_false_iff_not, UInt8.le_iff_toNat_le, ← UInt8.toNat_inj]
  have hlow : 48 ≤ b.toNat := h.1
  have hspace : (32 : UInt8).toNat = 32 := rfl
  have hnine : (9 : UInt8).toNat = 9 := rfl
  have hthirteen : (13 : UInt8).toNat = 13 := rfl
  omega

theorem scanSign_of_isDigit {b : UInt8} (h : isDigit b = true) (s : List UInt8) :
    scanSign (b :: s) = (false, b :: s) := by
  unfold scanSign
  split
  · next heq =>
      rw [(List.cons.inj heq).1] at h
      cases h
  · next heq =>
      rw [(List.cons.inj heq).1] at h
      cases h
  · rfl

theorem scanDigits_append {digits s : List UInt8} (hne : digits ≠ [])
    (hall : ∀ c ∈ digits, isDigit c = true) (hs : ∀ b ∈ s.head?, isDigit b = false) :
    scanDigits (digits ++ s) = some (false, digits, s) := by
  have hstop : s.takeWhile isDigit = [] ∧ s.dropWhile isDigit = s := by
    cases s with
    | nil => exact ⟨rfl, rfl⟩
    | cons b s =>
        have hb : isDigit b = false := hs b rfl
        exact ⟨List.takeWhile_cons_of_neg (by simp [hb]), List.dropWhile_cons_of_neg (by simp [hb])⟩
  have htake : (digits ++ s).takeWhile isDigit = digits := by
    rw [List.takeWhile_append_of_pos hall, hstop.1, List.append_nil]
  have hdrop : (digits ++ s).dropWhile isDigit = s := by
    rw [List.dropWhile_append_of_pos hall, hstop.2]
  have hstart : skipSpace (digits ++ s) = digits ++ s ∧
      scanSign (digits ++ s) = (false, digits ++ s) := by
    obtain ⟨d, ds, rfl⟩ := List.exists_cons_of_ne_nil hne
    have hd : isDigit d = true := hall d List.mem_cons_self
    exact ⟨skipSpace_eq_self (isSpace_of_isDigit hd) _, scanSign_of_isDigit hd _⟩
  simp [scanDigits, hstart.1, hstart.2, htake, hdrop, hne]

theorem scanDigits_decimal_append (n : ℕ) {s : List UInt8}
    (hs : ∀ b ∈ s.head?, isDigit b = false) :
    scanDigits (decimal n ++ s) = some (false, decimal n, s) :=
  scanDigits_append (decimal_ne_nil n) (fun _ hc => isDigit_of_mem_decimal hc) hs

theorem scanDigits_decimal (n : ℕ) {b : UInt8} (hb : isDigit b = false) (s : List UInt8) :
    scanDigits (decimal n ++ b :: s) = some (false, decimal n, b :: s) := by
  apply scanDigits_decimal_append
  rintro c ⟨⟩
  exact hb

theorem scanUnsigned_decimal {n bound : ℕ} (hn : n < bound) {b : UInt8} (hb : isDigit b = false)
    (s : List UInt8) : scanUnsigned bound (decimal n ++ b :: s) = some n := by
  simp [scanUnsigned, scanDigits_decimal n hb, decimalValue_decimal, not_le.mpr hn]

/-- `strtol` saturates. -/
theorem scanSigned_decimal (bound n : ℕ) :
    scanSigned bound (decimal n) = some (((min n (bound - 1) : ℕ) : ℤ), []) := by
  have hscan := scanDigits_decimal_append n (s := []) (by simp)
  rw [List.append_nil] at hscan
  simp [scanSigned, hscan, decimalValue_decimal]

theorem decimal_length_le {n k : ℕ} (hk : 0 < k) (h : n < 10 ^ k) : (decimal n).length ≤ k := by
  rw [decimal, List.length_map]
  exact (Nat.length_toDigits_le_iff (by decide) hk).mpr h

/-! ### More input -/

section MoreInput

variable {s t : List UInt8}

theorem skipSpace_append (h : skipSpace s ≠ []) : skipSpace (s ++ t) = skipSpace s ++ t := by
  have hempty : (s.dropWhile isSpace).isEmpty = false := List.isEmpty_eq_false_iff.mpr h
  rw [skipSpace, List.dropWhile_append, hempty, if_neg Bool.false_ne_true, skipSpace]

theorem skipSpace_append_of_nil (h : skipSpace s = []) : skipSpace (s ++ t) = skipSpace t := by
  have hempty : (s.dropWhile isSpace).isEmpty = true := List.isEmpty_iff.mpr h
  rw [skipSpace, List.dropWhile_append, if_pos hempty, skipSpace]

theorem skipSpace_skipSpace (s : List UInt8) : skipSpace (skipSpace s) = skipSpace s :=
  List.dropWhile_idempotent _ _

/-- The sign is on one byte, so it is known once anything is behind it. -/
theorem scanSign_append (h : (scanSign s).2 ≠ []) :
    scanSign (s ++ t) = ((scanSign s).1, (scanSign s).2 ++ t) := by
  unfold scanSign at *
  split at h
  · rfl
  · rfl
  · next hminus hplus =>
      cases s with
      | nil => exact absurd rfl h
      | cons b s =>
          split
          · next heq => exact absurd (List.cons.inj heq).1 fun hb => hminus s (hb ▸ rfl)
          · next heq => exact absurd (List.cons.inj heq).1 fun hb => hplus s (hb ▸ rfl)
          · rfl

/-- The input from where the digits of a number have to be. -/
def numberStart (s : List UInt8) : List UInt8 := (scanSign (skipSpace s)).2

theorem numberStart_suffix (s : List UInt8) : numberStart s <:+ s := by
  refine List.IsSuffix.trans ?_ (List.dropWhile_suffix isSpace)
  rw [numberStart, skipSpace]
  generalize List.dropWhile isSpace s = l
  unfold scanSign
  split
  · exact List.suffix_cons _ _
  · exact List.suffix_cons _ _
  · exact List.suffix_rfl

theorem numberStart_append (h : numberStart s ≠ []) :
    numberStart (s ++ t) = numberStart s ++ t := by
  have hskip : skipSpace s ≠ [] := by
    intro hnil
    rw [numberStart, hnil] at h
    exact h rfl
  rw [numberStart, skipSpace_append hskip, scanSign_append h]
  rfl

theorem numberStart_append_digit {b : UInt8} (hb : isDigit b = true) (h : numberStart s = []) :
    numberStart (s ++ [b]) = [b] := by
  by_cases hskip : skipSpace s = []
  · rw [numberStart, skipSpace_append_of_nil hskip, skipSpace_eq_self (isSpace_of_isDigit hb),
      scanSign_of_isDigit hb]
  · rw [numberStart] at h
    rw [numberStart, skipSpace_append hskip]
    generalize skipSpace s = l at h hskip
    unfold scanSign at h
    split at h
    · exact congrArg (· ++ [b]) h
    · exact congrArg (· ++ [b]) h
    · exact absurd h hskip

theorem scanDigits_eq (s : List UInt8) :
    scanDigits s = if ((numberStart s).takeWhile isDigit).isEmpty then none
      else some ((scanSign (skipSpace s)).1, (numberStart s).takeWhile isDigit,
        (numberStart s).dropWhile isDigit) := rfl

theorem numberStart_skipSpace (s : List UInt8) : numberStart (skipSpace s) = numberStart s := by
  rw [numberStart, numberStart, skipSpace_skipSpace]

theorem scanUnsigned_skipSpace (bound : ℕ) (s : List UInt8) :
    scanUnsigned bound (skipSpace s) = scanUnsigned bound s := by
  rw [scanUnsigned, scanUnsigned, scanDigits_eq, scanDigits_eq, numberStart_skipSpace,
    skipSpace_skipSpace]

theorem scanUnsigned_isSome (bound : ℕ) (s : List UInt8) :
    (scanUnsigned bound s).isSome = (numberStart s).head?.any isDigit := by
  have hread : (scanUnsigned bound s).isSome = (scanDigits s).isSome := by
    rw [scanUnsigned]
    cases scanDigits s with
    | none => rfl
    | some digits =>
        rw [Option.bind_eq_bind, Option.bind_some]
        dsimp only
        split
        · rfl
        · split <;> rfl
  rw [hread, scanDigits_eq]
  cases numberStart s with
  | nil => rfl
  | cons b rest => cases hb : isDigit b <;> simp [hb]

theorem scanUnsigned_append (bound : ℕ)
    (h : ((numberStart s).takeWhile isDigit).length < (numberStart s).length) :
    scanUnsigned bound (s ++ t) = scanUnsigned bound s := by
  have hne : numberStart s ≠ [] := by
    intro hnil
    rw [hnil] at h
    exact absurd h (by decide)
  have hskip : skipSpace s ≠ [] := by
    intro hnil
    rw [numberStart, hnil] at hne
    exact hne rfl
  have hdigits : (numberStart s ++ t).takeWhile isDigit = (numberStart s).takeWhile isDigit := by
    rw [List.takeWhile_append, if_neg h.ne]
  have hsign : (scanSign (skipSpace (s ++ t))).1 = (scanSign (skipSpace s)).1 := by
    rw [skipSpace_append hskip, scanSign_append hne]
  have hscan : (scanDigits (s ++ t)).map (fun r => (r.1, r.2.1)) =
      (scanDigits s).map (fun r => (r.1, r.2.1)) := by
    rw [scanDigits_eq, scanDigits_eq, numberStart_append hne, hdigits, hsign]
    split <;> rfl
  rw [scanUnsigned, scanUnsigned]
  cases h₁ : scanDigits (s ++ t) with
  | none =>
      rw [h₁] at hscan
      rw [Option.map_eq_none_iff.mp hscan.symm]
  | some r =>
      rw [h₁] at hscan
      obtain ⟨r', hr', heq⟩ := Option.map_eq_some_iff.mp hscan.symm
      rw [hr']
      obtain ⟨hneg, hval⟩ := Prod.mk.inj heq
      simp only [Option.bind_eq_bind, Option.bind_some, hneg, hval]

end MoreInput

/-! ### The first position -/

section FindFirst

variable {test : List UInt8 → Bool}

theorem findFirst_eq_some {s found : List UInt8} (h : findFirst test s = some found) :
    found <:+ s ∧ test found = true ∧ found ≠ [] := by
  induction s with
  | nil => cases h
  | cons b s ih =>
      rw [findFirst] at h
      split at h
      · next htest =>
          cases h
          exact ⟨List.suffix_rfl, htest, List.cons_ne_nil b s⟩
      · obtain ⟨hsuffix, hrest⟩ := ih h
        exact ⟨hsuffix.trans (List.suffix_cons b s), hrest⟩

theorem findFirst_eq_some_iff {s found : List UInt8} :
    findFirst test s = some found ↔
      found ≠ [] ∧ test found = true ∧
        ∃ u, s = u ++ found ∧ ∀ k < u.length, test (s.drop k) = false := by
  induction s with
  | nil =>
      refine iff_of_false (fun h => Option.some_ne_none _ h.symm) ?_
      rintro ⟨hne, -, u, hnil, -⟩
      exact hne (List.append_eq_nil_iff.mp hnil.symm).2
  | cons b s ih =>
      rw [findFirst]
      split
      · next htest =>
          constructor
          · rintro ⟨⟩
            exact ⟨List.cons_ne_nil b s, htest, [], rfl, fun k hk => absurd hk (Nat.not_lt_zero k)⟩
          · rintro ⟨-, -, u, hu, hbefore⟩
            cases u with
            | nil => rw [hu, List.nil_append]
            | cons c u =>
                have hfirst := hbefore 0 (Nat.succ_pos _)
                rw [List.drop_zero, htest] at hfirst
                cases hfirst
      · next htest =>
          rw [ih]
          refine and_congr_right fun _ => and_congr_right fun hfound => ?_
          constructor
          · rintro ⟨u, rfl, hbefore⟩
            refine ⟨b :: u, rfl, fun k hk => ?_⟩
            cases k with
            | zero => simpa using htest
            | succ k => exact hbefore k (Nat.lt_of_succ_lt_succ hk)
          · rintro ⟨u, hu, hbefore⟩
            cases u with
            | nil => exact absurd (hu ▸ hfound) htest
            | cons c u =>
                obtain ⟨-, rfl⟩ := List.cons.inj hu
                exact ⟨u, rfl, fun k hk => hbefore (k + 1) (Nat.succ_lt_succ hk)⟩

/-- What was found in `s` is the first thing found in `s ++ t`, if the test looks
at no more bytes than there are in it. -/
theorem findFirst_append {s t found : List UInt8} (h : findFirst test s = some found)
    (htest : ∀ u, found.length ≤ u.length → test (u ++ t) = test u) :
    findFirst test (s ++ t) = some (found ++ t) := by
  induction s with
  | nil => cases h
  | cons b s ih =>
      have hle := (findFirst_eq_some h).1.length_le
      rw [findFirst] at h
      rw [List.cons_append, findFirst, ← List.cons_append, htest _ hle]
      split at h
      · next hb =>
          cases h
          rw [if_pos hb]
      · next hb =>
          rw [if_neg hb]
          exact ih h

theorem findFirst_append_of_none {s t : List UInt8} (h : findFirst test s = none)
    (htest : ∀ u, test u = false → test (u ++ t) = false) :
    findFirst test (s ++ t) = findFirst test t := by
  induction s with
  | nil => rfl
  | cons b s ih =>
      rw [findFirst] at h
      split at h
      · cases h
      · next hb =>
          rw [List.cons_append, findFirst, ← List.cons_append, htest _ (by simpa using hb),
            if_neg (by decide)]
          exact ih h

end FindFirst

section Strstr

theorem isPrefixOf_append {l s : List UInt8} (h : l.length ≤ s.length) (t : List UInt8) :
    l.isPrefixOf (s ++ t) = l.isPrefixOf s := by
  rw [Bool.eq_iff_iff, List.isPrefixOf_iff_prefix, List.isPrefixOf_iff_prefix]
  exact ⟨fun hl => List.prefix_of_prefix_length_le hl (List.prefix_append s t) h,
    fun hl => hl.trans (List.prefix_append s t)⟩

theorem strstr_append {s needle found : List UInt8} (h : strstr s needle = some found)
    (t : List UInt8) : strstr (s ++ t) needle = some (found ++ t) := by
  have hneedle : needle <+: found := List.isPrefixOf_iff_prefix.mp (findFirst_eq_some h).2.1
  exact findFirst_append h fun u hu => isPrefixOf_append (hneedle.length_le.trans hu) t

theorem length_lt_of_strstr_append {s t needle found : List UInt8} (hne : needle ≠ [])
    (hnone : strstr s needle = none) (h : strstr (s ++ t) needle = some found) :
    found.length < t.length + needle.length := by
  have hpos : 0 < needle.length := List.length_pos_iff.mpr hne
  induction s with
  | nil =>
      have hle := (findFirst_eq_some h).1.length_le
      rw [List.nil_append] at hle
      omega
  | cons b s ih =>
      rw [strstr, findFirst] at hnone
      rw [List.cons_append, strstr, findFirst] at h
      split at hnone
      · cases hnone
      · next hb =>
          split at h
          · next hbehind =>
              cases h
              have hlong : (b :: s).length < needle.length := by
                by_contra hle
                rw [← List.cons_append, isPrefixOf_append (not_lt.mp hle)] at hbehind
                exact hb hbehind
              rw [List.length_cons] at hlong
              rw [List.length_cons, List.length_append]
              omega
          · exact ih hnone h

variable {c : UInt8} {s : List UInt8}

theorem strstr_append_of_not_mem (h : c ∉ s) (needle t : List UInt8) :
    strstr (s ++ t) (c :: needle) = strstr t (c :: needle) := by
  induction s with
  | nil => rfl
  | cons b s ih =>
      have hne : c ≠ b := fun heq => h (heq ▸ List.mem_cons_self)
      have hhead : (c :: needle).isPrefixOf (b :: (s ++ t)) = false := by
        simp [List.isPrefixOf, hne]
      rw [List.cons_append, strstr, findFirst, hhead, if_neg Bool.false_ne_true]
      exact ih fun hmem => h (List.mem_cons_of_mem b hmem)

theorem strstr_append_self (needle t : List UInt8) (hne : needle ≠ []) :
    strstr (needle ++ t) needle = some (needle ++ t) := by
  obtain ⟨b, needle, rfl⟩ := List.exists_cons_of_ne_nil hne
  have hhead : (b :: needle).isPrefixOf (b :: needle ++ t) = true :=
    List.isPrefixOf_iff_prefix.mpr (List.prefix_append _ _)
  rw [strstr, List.cons_append, findFirst, ← List.cons_append, hhead, if_pos rfl]

end Strstr

end Kademlia.Foundations.CString
