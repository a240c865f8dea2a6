import BitcoinScript.Bytes

/-!
# Script numbers

A script number is an integer written as a little-endian byte string whose highest bit is the sign:
a string of `k` bytes stands for `m` when its value `m` is below `2 ^ (8 * k - 1)`, and for
`-(m - 2 ^ (8 * k - 1))` otherwise. Zero is the empty string, and a string is *minimal* when no
shorter one stands for the same number.

* `Number.encode` writes an integer, `Number.value` reads any string, and `Number.decode` reads one
  under a size bound and, on demand, the rule of minimality.
* `Number.isMinimal` and `Number.minimize` test and restore minimality on the bytes themselves.
-/

namespace BitcoinScript

namespace Number

/-- Why a byte string is not accepted as a number. -/
inductive Error where
  /-- The string is longer than the size bound. -/
  | overflow
  /-- A shorter string stands for the same number. -/
  | notMinimal
deriving DecidableEq, Repr

/-- The text of a number error. -/
def Error.message : Error → String
  | .overflow => "Script number overflow"
  | .notMinimal => "Non-minimally encoded script number"

/-- The largest size of a number without the lifted limits. -/
def standardSize : Nat := 4

/-- The largest size of a lock time: these reach `2 ^ 32 - 1`, hence the fifth byte. -/
def lockTimeSize : Nat := 5

/-- The largest size of a number under the lifted limits. -/
def extendedSize : Nat := 750000

/-- The weight of the sign bit in a string of the given length. -/
def signWeight (length : Nat) : Nat := 1 <<< (8 * length - 1)

/-- The integer that a byte string stands for. -/
def value (b : Bytes) : Int :=
  let m := Bytes.leValueByHalves b.length.log2 b
  let weight := signWeight b.length
  if m < weight then m else -((m - weight : Nat) : Int)

/-- The number of bytes needed for a magnitude and a sign bit above it. -/
def width (magnitude : Nat) : Nat :=
  if magnitude = 0 then 0 else (magnitude.log2 + 1) / 8 + 1

/-- The minimal byte string of an integer. -/
def encode (n : Int) : Bytes :=
  let w := width n.natAbs
  let sign := if n < 0 then signWeight w else 0
  Bytes.leByHalves w.log2 w (n.natAbs + sign)

/-- Whether the last byte carries more than a sign, or gives the sign a byte of its own because the
byte before it uses its highest bit. -/
def isMinimal (b : Bytes) : Bool :=
  match b.reverse with
  | [] => true
  | [top] => top &&& 0x7f != 0
  | top :: next :: _ => top &&& 0x7f != 0 || next &&& 0x80 != 0

/-- Drops redundant zero bytes below the sign byte and moves the sign onto the highest byte that is
left, or into a byte of its own where that byte uses its highest bit. -/
def minimize (b : Bytes) : Bytes :=
  if isMinimal b then b
  else
    match b.reverse with
    | [] => []
    | top :: below =>
        let sign := top &&& 0x80
        match below.dropWhile (· == 0) with
        | [] => []
        | next :: rest =>
            if next &&& 0x80 != 0 then (sign :: next :: rest).reverse
            else ((next ||| sign) :: rest).reverse

/-- Reads a number of at most `maxSize` bytes, which has to be minimal if `requireMinimal` is set.
The size is checked first. -/
def decode (requireMinimal : Bool) (maxSize : Nat) (b : Bytes) : Except Error Int :=
  if b.length > maxSize then .error .overflow
  else if requireMinimal && !isMinimal b then .error .notMinimal
  else .ok (value b)

/-- Whether a byte string counts as true: some byte is not zero, a final sign bit aside. -/
def isTrue (b : Bytes) : Bool :=
  match b.reverse with
  | [] => false
  | top :: below => below.any (· != 0) || (top != 0 && top != 0x80)

/-- The truth value as a byte string: the number one, or the empty string. -/
def ofBool (b : Bool) : Bytes :=
  if b then [1] else []

theorem value_def (b : Bytes) :
    value b =
      if Bytes.leValue b < signWeight b.length then (Bytes.leValue b : Int)
      else -((Bytes.leValue b - signWeight b.length : Nat) : Int) := by
  simp only [value, Bytes.leValueByHalves_eq]

theorem encode_def (n : Int) :
    encode n =
      Bytes.le (width n.natAbs)
        (n.natAbs + if n < 0 then signWeight (width n.natAbs) else 0) := by
  simp only [encode, Bytes.leByHalves_eq]

@[simp] theorem length_encode (n : Int) : (encode n).length = width n.natAbs := by
  simp [encode_def]

end Number

end BitcoinScript
