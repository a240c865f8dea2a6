import BitcoinScript.Curve.Field

/-!
# Points of secp256k1

Points are added in weighted coordinates: `(x, y, z)` with `z ≠ 0` stands for the point
`(x / z ^ 2, y / z ^ 3)`, and `z = 0` for the point at infinity. No division is needed until the
abscissa of a result is compared.
-/

namespace BitcoinScript

namespace Curve

/-- A point in weighted coordinates. -/
structure Point where
  x : Coordinate
  y : Coordinate
  z : Coordinate
deriving DecidableEq

namespace Point

/-- The neutral element. -/
def infinity : Point := ⟨1, 1, 0⟩

/-- The finite point with the given coordinates. -/
def finite (x y : Coordinate) : Point := ⟨x, y, 1⟩

/-- The base point of the group. -/
def base : Point :=
  finite
    0x79be667ef9dcbbac55a06295ce870b07029bfcdb2dce28d959f2815b16f81798
    0x483ada7726a3c4655da4fbfc0e1108a8fd17b448a68554199c47d08ffb10d4b8

/-- Whether a point is the neutral element. -/
def isInfinity (p : Point) : Bool := p.z == 0

/-- Twice a point. -/
def double (p : Point) : Point :=
  if p.z = 0 ∨ p.y = 0 then infinity
  else
    let a := p.x * p.x
    let b := p.y * p.y
    let c := b * b
    let d := 4 * p.x * b
    let e := 3 * a
    let x := e * e - 2 * d
    ⟨x, e * (d - x) - 8 * c, 2 * p.y * p.z⟩

/-- The sum of two points. -/
def add (p q : Point) : Point :=
  if p.z = 0 then q
  else if q.z = 0 then p
  else
    let pz := p.z * p.z
    let qz := q.z * q.z
    let u1 := p.x * qz
    let u2 := q.x * pz
    let s1 := p.y * q.z * qz
    let s2 := q.y * p.z * pz
    if u1 = u2 then
      if s1 = s2 then double p else infinity
    else
      let h := u2 - u1
      let r := s2 - s1
      let hh := h * h
      let hhh := h * hh
      let v := u1 * hh
      let x := r * r - hhh - 2 * v
      ⟨x, r * (v - x) - s1 * hhh, h * p.z * q.z⟩

/-- Adds to `acc`, doubled `bits` times, the multiples of `p` and `q` given by the low `bits` bits
of two scalars. `sum` is `p + q`. -/
def combineFrom (u v : Nat) (p q sum : Point) : (bits : Nat) → (acc : Point) → Point
  | 0, acc => acc
  | bits + 1, acc =>
      let acc := acc.double
      let acc := match u.testBit bits, v.testBit bits with
        | true, true => acc.add sum
        | true, false => acc.add p
        | false, true => acc.add q
        | false, false => acc
      combineFrom u v p q sum bits acc

/-- The combination `u • p + v • q`. -/
def combine (u v : Scalar) (p q : Point) : Point :=
  combineFrom u.val v.val p q (p.add q) 256 infinity

/-- The abscissa of a finite point. -/
def abscissa (p : Point) : Coordinate :=
  p.x * Coordinate.inverse (p.z * p.z)

end Point

end Curve

end BitcoinScript
