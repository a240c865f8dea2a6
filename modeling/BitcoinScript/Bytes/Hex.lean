import BitcoinScript.Bytes

/-!
# Hexadecimal text

Byte strings are written with two lower-case digits per byte. Reading accepts both cases, refuses
a text of odd length before looking at its digits, and otherwise reports the first byte of the
text that is no digit.
-/

namespace BitcoinScript

namespace Hex

/-- The digit of a number below 16. -/
def digit (n : Nat) : Char :=
  if n < 10 then Char.ofNat (48 + n) else Char.ofNat (87 + n)

/-- The two digits of a byte, high half first. -/
def ofByte (b : UInt8) : List Char :=
  [digit (b.toNat / 16), digit (b.toNat % 16)]

/-- The lower-case hexadecimal text of a byte string. -/
def encode (b : Bytes) : String :=
  String.ofList (b.flatMap ofByte)

/-- Why a text is not the hexadecimal form of a byte string. -/
inductive Error where
  /-- The text has an odd number of bytes. -/
  | oddLength
  /-- The byte at this position of the text is no hexadecimal digit. -/
  | badDigit (byte : UInt8) (position : Nat)
deriving DecidableEq, Repr

/-- The value of an ASCII hexadecimal digit of either case. -/
def digitValue? (b : UInt8) : Option UInt8 :=
  if 48 ≤ b ∧ b ≤ 57 then some (b - 48)
  else if 65 ≤ b ∧ b ≤ 70 then some (b - 55)
  else if 97 ≤ b ∧ b ≤ 102 then some (b - 87)
  else none

/-- Reads digit pairs from `position` on; `done` holds the bytes read so far, newest first. -/
def readPairs (position : Nat) (done : Bytes) : Bytes → Except Error Bytes
  | [] => .ok done.reverse
  | [_] => .error .oddLength
  | high :: low :: rest =>
      match digitValue? high, digitValue? low with
      | some h, some l => readPairs (position + 2) ((16 * h + l) :: done) rest
      | none, _ => .error (.badDigit high position)
      | _, none => .error (.badDigit low (position + 1))

/-- Reads a hexadecimal text. -/
def decode (text : String) : Except Error Bytes :=
  let ascii := text.toUTF8.data.toList
  if ascii.length % 2 = 1 then .error .oddLength else readPairs 0 [] ascii

/-- A byte of a text as a character in single quotes. Quotes, backslashes and the usual control
characters are escaped with a backslash, other control characters by their code. -/
def quoted (b : UInt8) : String :=
  let code := b.toNat
  let body :=
    if code = 0 then "\\0"
    else if code = 9 then "\\t"
    else if code = 10 then "\\n"
    else if code = 13 then "\\r"
    else if code = 39 then "\\'"
    else if code = 92 then "\\\\"
    else if code < 32 ∨ (127 ≤ code ∧ code ≤ 160) ∨ code = 173 then
      "\\u\x7b" ++ String.ofList (Nat.toDigits 16 code) ++ "\x7d"
    else String.ofList [Char.ofNat code]
  "'" ++ body ++ "'"

/-- The text of a reading error. -/
def Error.message : Error → String
  | .oddLength => "Odd number of digits"
  | .badDigit byte position =>
      "Invalid character " ++ quoted byte ++ " at position " ++ toString position

end Hex

end BitcoinScript
