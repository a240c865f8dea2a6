import BitcoinScript.Bytes
import BitcoinScript.Curve.Point

/-!
# Signature verification over secp256k1

`publicKey?` reads the compressed, the plain and the hybrid form of a public key, and `verify`
decides whether a pair of scalars signs a digest.
-/

namespace BitcoinScript

namespace Curve

/-- A pair of scalars. A pair with a zero scalar signs nothing. -/
structure Signature where
  r : Scalar
  s : Scalar
deriving DecidableEq

/-- The signature with the smaller of the two scalars `s` and `-s`, which sign the same. -/
def Signature.lowS (sig : Signature) : Signature :=
  if sig.s.val > groupOrder / 2 then { sig with s := -sig.s } else sig

/-- Whether the ordinate is odd, as the leading byte of a key tells. -/
def isOdd (y : Coordinate) : Bool := y.val % 2 == 1

/-- The point with a given abscissa whose ordinate has the given parity. -/
def compressedPoint? (odd : Bool) (x : Nat) : Option Point := do
  let x ← Coordinate.ofNat? x
  let root ← Coordinate.sqrt? (cubic x)
  let y := if isOdd root == odd then root else -root
  some (Point.finite x y)

/-- The point with given coordinates, if they solve the curve equation. -/
def plainPoint? (x y : Nat) : Option (Coordinate × Coordinate) := do
  let x ← Coordinate.ofNat? x
  let y ← Coordinate.ofNat? y
  if y * y = cubic x then some (x, y) else none

/-- Reads a public key: 33 bytes with a leading 2 or 3, 65 bytes with a leading 4, or 65 bytes with
a leading 6 or 7 that agrees with the parity of the ordinate. -/
def publicKey? (key : Bytes) : Option Point :=
  match key with
  | [] => none
  | tag :: rest =>
      if rest.length = 32 then
        if tag = 2 ∨ tag = 3 then compressedPoint? (tag == 3) (Bytes.beValue rest) else none
      else if rest.length = 64 then
        if tag = 4 ∨ tag = 6 ∨ tag = 7 then do
          let (x, y) ← plainPoint? (Bytes.beValue (rest.take 32)) (Bytes.beValue (rest.drop 32))
          if tag = 4 ∨ isOdd y = (tag == 7) then some (Point.finite x y) else none
        else none
      else none

/-- Whether a signature signs the digest, read as a big-endian number, for a key. -/
def verify (key : Point) (sig : Signature) (digest : Bytes) : Bool :=
  if sig.r = 0 ∨ sig.s = 0 then false
  else
    let inverse := Scalar.inverse sig.s
    let message := Scalar.ofNat (Bytes.beValue digest)
    let point := Point.combine (message * inverse) (sig.r * inverse) Point.base key
    !point.isInfinity && Scalar.ofNat point.abscissa.val == sig.r

end Curve

end BitcoinScript
