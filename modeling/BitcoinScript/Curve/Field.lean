/-!
# The field and the scalars of secp256k1

Coordinates are residues modulo the field prime, scalars residues modulo the order of the group.
Both moduli are odd primes, so that inverses and square roots are powers.
-/

namespace BitcoinScript

namespace Curve

/-- The prime modulus of the coordinates, `2 ^ 256 - 2 ^ 32 - 977`. -/
def fieldPrime : Nat :=
  0xfffffffffffffffffffffffffffffffffffffffffffffffffffffffefffffc2f

/-- The number of points of the curve, infinity included. -/
def groupOrder : Nat :=
  0xfffffffffffffffffffffffffffffffebaaedce6af48a03bbfd25e8cd0364141

/-- A coordinate of a point. -/
abbrev Coordinate := Fin fieldPrime

/-- A residue modulo the group order. -/
abbrev Scalar := Fin groupOrder

/-- The coordinate congruent to a number. -/
def Coordinate.ofNat (n : Nat) : Coordinate :=
  ⟨n % fieldPrime, Nat.mod_lt n (by decide)⟩

/-- The scalar congruent to a number. -/
def Scalar.ofNat (n : Nat) : Scalar :=
  ⟨n % groupOrder, Nat.mod_lt n (by decide)⟩

instance (n : Nat) : OfNat Coordinate n := ⟨Coordinate.ofNat n⟩

instance (n : Nat) : OfNat Scalar n := ⟨Scalar.ofNat n⟩

/-- `base ^ exponent` modulo `m`, by squaring along the low `bits` bits of the exponent, where `one`
is the residue of one. -/
def power {m : Nat} (one : Fin m) : (bits : Nat) → (base : Fin m) → (exponent : Nat) → Fin m
  | 0, _, _ => one
  | bits + 1, base, exponent =>
      let rest := power one bits (base * base) (exponent / 2)
      if exponent % 2 = 1 then base * rest else rest

/-- The inverse of a non-zero scalar. -/
def Scalar.inverse (s : Scalar) : Scalar :=
  power 1 256 s (groupOrder - 2)

/-- The inverse of a non-zero coordinate. -/
def Coordinate.inverse (x : Coordinate) : Coordinate :=
  power 1 256 x (fieldPrime - 2)

/-- A square root of a coordinate, if it has one: the prime is three modulo four. -/
def Coordinate.sqrt? (x : Coordinate) : Option Coordinate :=
  let root := power 1 256 x ((fieldPrime + 1) / 4)
  if root * root = x then some root else none

/-- The coordinate with a given value, if the value is below the prime. -/
def Coordinate.ofNat? (n : Nat) : Option Coordinate :=
  if h : n < fieldPrime then some ⟨n, h⟩ else none

/-- The right-hand side `x ^ 3 + 7` of the curve equation. -/
def cubic (x : Coordinate) : Coordinate :=
  x * x * x + 7

end Curve

end BitcoinScript
