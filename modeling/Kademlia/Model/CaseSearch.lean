import Kademlia.Foundations.Occurrence
import Kademlia.Model.HeaderBuffer

/-!
`strcasestr_portable` with its pointers.

Both strings are in memory, and what is read of them is recorded. A pointer into a
string is its distance from the start of it.
-/

namespace Kademlia.Model

open Foundations CString Traced

abbrev NulString := Terminated (0 : UInt8)

/-- The arguments of `strcasestr_portable`. -/
inductive SearchArgument
  | haystack
  | needle
  deriving DecidableEq, Repr

/-- The inner loop, with the value that `n` has after it. It is `none` if the loop is not over
after `fuel` rounds. -/
def compareLoop (haystack needle : Memory) : ℕ → ℕ → ℕ → Traced SearchArgument (Option ℕ)
  | 0, _, _ => pure none
  | fuel + 1, h, n => do
      touch .haystack h
      if haystack h = 0 then pure (some n)
      else do
        touch .needle n
        if needle n = 0 then pure (some n)
        else do
          -- for `tolower`
          touch .haystack h
          touch .needle n
          if toLower (haystack h) = toLower (needle n) then
            compareLoop haystack needle fuel (h + 1) (n + 1)
          else pure (some n)

/-- The outer loop, with the value that is returned, where `none` is `NULL`. -/
def searchLoop (haystack needle : Memory) : ℕ → ℕ → Traced SearchArgument (Option (Option ℕ))
  | 0, _ => pure none
  | fuel + 1, i => do
      touch .haystack i
      if haystack i = 0 then pure (some none)
      else do
        let stop ← compareLoop haystack needle (fuel + 1) i 0
        match stop with
        | none => pure none
        | some n => do
            touch .needle n
            if needle n = 0 then pure (some (some i))
            else searchLoop haystack needle fuel (i + 1)

/-- `strcasestr_portable`, with fuel for one round more than `haystack` has bytes. -/
def strcasestrPortableIn (haystack needle : NulString) :
    Traced SearchArgument (Option (Option ℕ)) := do
  touch .needle 0
  if needle.cells 0 = 0 then pure (some (some 0))
  else searchLoop haystack.cells needle.cells (haystack.length + 1) 0

end Kademlia.Model
