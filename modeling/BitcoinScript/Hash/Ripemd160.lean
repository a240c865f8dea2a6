import BitcoinScript.Hash.Block

/-!
# RIPEMD-160

Two lines of eighty rounds run side by side over each block and are added crosswise. The digest of
a message has 20 bytes (`length_ripemd160`).
-/

namespace BitcoinScript

namespace Hash

namespace Ripemd160

/-- The five chaining words. -/
structure Chain where
  a : UInt32
  b : UInt32
  c : UInt32
  d : UInt32
  e : UInt32

/-- The chaining words before the first block. -/
def initial : Chain :=
  ⟨0x67452301, 0xefcdab89, 0x98badcfe, 0x10325476, 0xc3d2e1f0⟩

/-- What one of the two lines does: the word it takes and the rotation in every round, and the
constant and the mixing function of every group of sixteen rounds. -/
structure Line where
  order : Array Nat
  rotation : Array UInt32
  constant : Array UInt32
  mixing : Array Nat

/-- The left line. -/
def left : Line where
  order := #[
    0, 1, 2, 3, 4, 5, 6, 7, 8, 9, 10, 11, 12, 13, 14, 15,
    7, 4, 13, 1, 10, 6, 15, 3, 12, 0, 9, 5, 2, 14, 11, 8,
    3, 10, 14, 4, 9, 15, 8, 1, 2, 7, 0, 6, 13, 11, 5, 12,
    1, 9, 11, 10, 0, 8, 12, 4, 13, 3, 7, 15, 14, 5, 6, 2,
    4, 0, 5, 9, 7, 12, 2, 10, 14, 1, 3, 8, 11, 6, 15, 13]
  rotation := #[
    11, 14, 15, 12, 5, 8, 7, 9, 11, 13, 14, 15, 6, 7, 9, 8,
    7, 6, 8, 13, 11, 9, 7, 15, 7, 12, 15, 9, 11, 7, 13, 12,
    11, 13, 6, 7, 14, 9, 13, 15, 14, 8, 13, 6, 5, 12, 7, 5,
    11, 12, 14, 15, 14, 15, 9, 8, 9, 14, 5, 6, 8, 6, 5, 12,
    9, 15, 5, 11, 6, 8, 13, 12, 5, 12, 13, 14, 11, 8, 5, 6]
  constant := #[0x00000000, 0x5a827999, 0x6ed9eba1, 0x8f1bbcdc, 0xa953fd4e]
  mixing := #[0, 1, 2, 3, 4]

/-- The right line. -/
def right : Line where
  order := #[
    5, 14, 7, 0, 9, 2, 11, 4, 13, 6, 15, 8, 1, 10, 3, 12,
    6, 11, 3, 7, 0, 13, 5, 10, 14, 15, 8, 12, 4, 9, 1, 2,
    15, 5, 1, 3, 7, 14, 6, 9, 11, 8, 12, 2, 10, 0, 4, 13,
    8, 6, 4, 1, 3, 11, 15, 0, 5, 12, 2, 13, 9, 7, 10, 14,
    12, 15, 10, 4, 1, 5, 8, 7, 6, 2, 13, 14, 0, 3, 9, 11]
  rotation := #[
    8, 9, 9, 11, 13, 15, 15, 5, 7, 7, 8, 11, 14, 14, 12, 6,
    9, 13, 15, 7, 12, 8, 9, 11, 7, 7, 12, 7, 6, 15, 13, 11,
    9, 7, 15, 11, 8, 6, 6, 14, 12, 13, 5, 14, 13, 13, 7, 5,
    15, 5, 8, 11, 14, 14, 6, 14, 6, 9, 12, 9, 12, 5, 15, 8,
    8, 5, 12, 9, 12, 5, 14, 6, 8, 13, 6, 5, 15, 13, 11, 11]
  constant := #[0x50a28be6, 0x5c4dd124, 0x6d703ef3, 0x7a6d76e9, 0x00000000]
  mixing := #[4, 3, 2, 1, 0]

/-- The five mixing functions. -/
def mix (kind : Nat) (x y z : UInt32) : UInt32 :=
  match kind with
  | 0 => x ^^^ y ^^^ z
  | 1 => (x &&& y) ||| (~~~x &&& z)
  | 2 => (x ||| ~~~y) ^^^ z
  | 3 => (x &&& z) ||| (y &&& ~~~z)
  | _ => x ^^^ (y ||| ~~~z)

/-- Runs `count` rounds of a line from round `t` on. -/
def rounds (line : Line) (w : Array UInt32) : (count t : Nat) → (a b c d e : UInt32) → Chain
  | 0, _, a, b, c, d, e => ⟨a, b, c, d, e⟩
  | count + 1, t, a, b, c, d, e =>
      let word := w.getD (line.order.getD t 0) 0
      let mixed := mix (line.mixing.getD (t / 16) 0) b c d
      let sum := a + mixed + word + line.constant.getD (t / 16) 0
      rounds line w count (t + 1) e (rotateLeft sum (line.rotation.getD t 0) + e) b
        (rotateLeft c 10) d

/-- Absorbs one block. -/
def compress (s : Chain) (words : Array UInt32) : Chain :=
  let l := rounds left words 80 0 s.a s.b s.c s.d s.e
  let r := rounds right words 80 0 s.a s.b s.c s.d s.e
  ⟨s.b + l.c + r.d, s.c + l.d + r.e, s.d + l.e + r.a, s.e + l.a + r.b, s.a + l.b + r.c⟩

/-- The chaining words in order. -/
def Chain.words (s : Chain) : List UInt32 :=
  [s.a, s.b, s.c, s.d, s.e]

end Ripemd160

/-- The RIPEMD-160 digest of a message. -/
def ripemd160 (m : ByteArray) : Bytes :=
  (run .little Ripemd160.compress Ripemd160.initial m).words.flatMap (wordBytes .little)

@[simp] theorem length_ripemd160 (m : ByteArray) : (ripemd160 m).length = 20 := by
  simp [ripemd160, Ripemd160.Chain.words]

end Hash

end BitcoinScript
