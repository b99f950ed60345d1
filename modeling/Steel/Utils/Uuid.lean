import Mathlib.Algebra.Group.Nat.Defs

/-! # Identifiers of players -/

namespace Steel

open List

abbrev Uuid := BitVec 128

namespace Uuid

variable (uuid : Uuid)

/-- The 32 hexadecimal digits, the most significant one first. -/
def hexDigits : List Char :=
  (List.range 32).map fun i => Nat.digitChar (uuid.toNat / 16 ^ (31 - i) % 16)

/-- The digits in groups of eight, four, four, four and twelve. -/
def hyphenated : String :=
  let digits := uuid.hexDigits
  String.ofList (digits.take 8 ++ '-' :: (digits.drop 8).take 4 ++ '-' :: (digits.drop 12).take 4 ++
    '-' :: (digits.drop 16).take 4 ++ '-' :: digits.drop 20)

example : hyphenated 0x61699b2ed3274a019f1e0ea8c3f06bc6 =
    "61699b2e-d327-4a01-9f1e-0ea8c3f06bc6" := by decide

end Uuid

end Steel
