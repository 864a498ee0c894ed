import Kademlia.Foundations.CString

/-!
Bytes in hexadecimal, two digits each.

`%02x` writes lower case, `%2hhx` reads either case. The bytes of a text can be
read one by one, each at twice its place.
-/

namespace Kademlia.Foundations.CString

def hexDigit (n : ℕ) : UInt8 := UInt8.ofNat (if n < 10 then 48 + n else 87 + n)

/-- `%02x` -/
def hexByte (b : UInt8) : List UInt8 := [hexDigit (b.toNat / 16), hexDigit (b.toNat % 16)]

def isHexDigit (b : UInt8) : Bool := isDigit b || (97 ≤ toLower b && toLower b ≤ 102)

def hexValue (b : UInt8) : ℕ := if isDigit b then b.toNat - 48 else (toLower b).toNat - 87

/-- `%2hhx`, where there are digits to read. -/
def scanHexByte (s : List UInt8) : UInt8 :=
  UInt8.ofNat (((s.take 2).takeWhile isHexDigit).foldl (fun value b => 16 * value + hexValue b) 0)

theorem scanHexByte_hexByte (b : UInt8) (s : List UInt8) : scanHexByte (hexByte b ++ s) = b := by
  have hread : ∀ b : UInt8, scanHexByte (hexByte b) = b := by decide +kernel
  have htake : (hexByte b ++ s).take 2 = (hexByte b).take 2 := rfl
  rw [scanHexByte, htake]
  exact hread b

theorem isHexDigit_of_mem_hexByte {b c : UInt8} (h : c ∈ hexByte b) : isHexDigit c = true := by
  have hall : ∀ b : UInt8, (hexByte b).all isHexDigit = true := by decide +kernel
  exact List.all_eq_true.mp (hall b) c h

section Bytes

variable (bytes : List UInt8)

theorem length_flatMap_hexByte : (bytes.flatMap hexByte).length = 2 * bytes.length := by
  induction bytes with
  | nil => rfl
  | cons b bytes ih =>
      rw [List.flatMap_cons, List.length_append, ih, List.length_cons, Nat.mul_succ, Nat.add_comm]
      rfl

theorem drop_flatMap_hexByte (i : ℕ) :
    (bytes.flatMap hexByte).drop (2 * i) = (bytes.drop i).flatMap hexByte := by
  induction i generalizing bytes with
  | zero => rfl
  | succ i ih =>
      cases bytes with
      | nil => simp
      | cons b bytes => exact ih bytes

theorem scanHexByte_drop {i : ℕ} (h : i < bytes.length) :
    scanHexByte ((bytes.flatMap hexByte).drop (2 * i)) = bytes[i] := by
  rw [drop_flatMap_hexByte, List.drop_eq_getElem_cons h, List.flatMap_cons, scanHexByte_hexByte]

end Bytes

theorem isHexDigit_of_mem_flatMap {bytes : List UInt8} {c : UInt8}
    (h : c ∈ bytes.flatMap hexByte) : isHexDigit c = true := by
  obtain ⟨b, -, hc⟩ := List.mem_flatMap.mp h
  exact isHexDigit_of_mem_hexByte hc

end Kademlia.Foundations.CString
