import BitcoinScript.Bytes.Hex

/-!
# Reading numbers

A natural number is written as at least one digit, which a plus sign may precede, and must lie below
a limit.
-/

namespace BitcoinScript

namespace Text

/-- The value of an ASCII digit below the base. -/
def digitValue? (base : Nat) (c : Char) : Option Nat :=
  if c.toNat < 128 then
    match Hex.digitValue? c.toUInt8 with
    | some v => if v.toNat < base then some v.toNat else none
    | none => none
  else none

/-- The value of some digits, the value of those before them given. -/
def readDigits? (base : Nat) : (value : Nat) → List Char → Option Nat
  | value, [] => some value
  | value, c :: rest =>
      match digitValue? base c with
      | some d => readDigits? base (base * value + d) rest
      | none => none

/-- Reads a number below a limit. -/
def readNat? (base limit : Nat) (text : String) : Option Nat :=
  let digits := match text.toList with
    | '+' :: rest => rest
    | all => all
  if digits.isEmpty then none
  else (readDigits? base 0 digits).filter (· < limit)

end Text

end BitcoinScript
