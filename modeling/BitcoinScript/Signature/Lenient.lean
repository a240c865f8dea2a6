import BitcoinScript.Curve.Ecdsa

/-!
# Lenient reading of signatures

Verification itself reads the two integers of a signature leniently: lengths may be written in more
bytes than needed, the outer length is ignored, and so is everything after the second integer. A
signature with an integer too large for a scalar is read as a pair of zeros, which signs nothing.
-/

namespace BitcoinScript

namespace Curve

namespace Lenient

/-- The bytes after the given tag. -/
def afterTag (tag : UInt8) : Bytes → Option Bytes
  | [] => none
  | b :: rest => if b = tag then some rest else none

/-- The bytes after the outer length, which is skipped. -/
def afterLength : Bytes → Option Bytes
  | [] => none
  | b :: rest =>
      if b < 0x80 then some rest
      else
        let width := b.toNat - 0x80
        if rest.length < width then none else some (rest.drop width)

/-- A length of an integer and the bytes after it. A long form has its own width in front, zero
bytes in it are dropped, and eight or more that remain are refused. -/
def length? : Bytes → Option (Nat × Bytes)
  | [] => none
  | b :: rest =>
      if b < 0x80 then some (b.toNat, rest)
      else
        let width := b.toNat - 0x80
        if rest.length < width then none
        else
          let digits := (rest.take width).dropWhile (· == 0)
          if digits.length ≥ 8 then none else some (Bytes.beValue digits, rest.drop width)

/-- The bytes of an integer, and the bytes after it. -/
def integer? (b : Bytes) : Option (Bytes × Bytes) := do
  let rest ← afterTag 0x02 b
  let (length, rest) ← length? rest
  if rest.length < length then none else some (rest.take length, rest.drop length)

/-- An integer as a scalar, if it is below the group order. -/
def scalar? (b : Bytes) : Option Scalar :=
  let n := Bytes.beValue b
  if h : n < groupOrder then some ⟨n, h⟩ else none

/-- Reads a signature. -/
def signature? (b : Bytes) : Option Signature := do
  let rest ← afterTag 0x30 b
  let rest ← afterLength rest
  let (r, rest) ← integer? rest
  let (s, _) ← integer? rest
  match scalar? r, scalar? s with
  | some r, some s => some ⟨r, s⟩
  | _, _ => some ⟨0, 0⟩

end Lenient

end Curve

end BitcoinScript
