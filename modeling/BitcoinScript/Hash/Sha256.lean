import BitcoinScript.Hash.Block

/-!
# SHA-256

The digest of a message has 32 bytes (`length_sha256`).
-/

namespace BitcoinScript

namespace Hash

namespace Sha256

/-- The eight chaining words. -/
structure Chain where
  a : UInt32
  b : UInt32
  c : UInt32
  d : UInt32
  e : UInt32
  f : UInt32
  g : UInt32
  h : UInt32

/-- The chaining words before the first block. -/
def initial : Chain :=
  ⟨0x6a09e667, 0xbb67ae85, 0x3c6ef372, 0xa54ff53a, 0x510e527f, 0x9b05688c, 0x1f83d9ab, 0x5be0cd19⟩

/-- The round constants. -/
def roundConstants : Array UInt32 := #[
  0x428a2f98, 0x71374491, 0xb5c0fbcf, 0xe9b5dba5, 0x3956c25b, 0x59f111f1, 0x923f82a4, 0xab1c5ed5,
  0xd807aa98, 0x12835b01, 0x243185be, 0x550c7dc3, 0x72be5d74, 0x80deb1fe, 0x9bdc06a7, 0xc19bf174,
  0xe49b69c1, 0xefbe4786, 0x0fc19dc6, 0x240ca1cc, 0x2de92c6f, 0x4a7484aa, 0x5cb0a9dc, 0x76f988da,
  0x983e5152, 0xa831c66d, 0xb00327c8, 0xbf597fc7, 0xc6e00bf3, 0xd5a79147, 0x06ca6351, 0x14292967,
  0x27b70a85, 0x2e1b2138, 0x4d2c6dfc, 0x53380d13, 0x650a7354, 0x766a0abb, 0x81c2c92e, 0x92722c85,
  0xa2bfe8a1, 0xa81a664b, 0xc24b8b70, 0xc76c51a3, 0xd192e819, 0xd6990624, 0xf40e3585, 0x106aa070,
  0x19a4c116, 0x1e376c08, 0x2748774c, 0x34b0bcb5, 0x391c0cb3, 0x4ed8aa4a, 0x5b9cca4f, 0x682e6ff3,
  0x748f82ee, 0x78a5636f, 0x84c87814, 0x8cc70208, 0x90befffa, 0xa4506ceb, 0xbef9a3f7, 0xc67178f2]

/-- Appends `count` words to the message schedule. -/
def extendSchedule : (count : Nat) → Array UInt32 → Array UInt32
  | 0, w => w
  | count + 1, w =>
      let t := w.size
      let x := w.getD (t - 15) 0
      let y := w.getD (t - 2) 0
      let s0 := rotateRight x 7 ^^^ rotateRight x 18 ^^^ (x >>> 3)
      let s1 := rotateRight y 17 ^^^ rotateRight y 19 ^^^ (y >>> 10)
      extendSchedule count (w.push (w.getD (t - 16) 0 + s0 + w.getD (t - 7) 0 + s1))

/-- Runs `count` rounds from round `t` on. -/
def rounds (w : Array UInt32) :
    (count t : Nat) → (a b c d e f g h : UInt32) → Chain
  | 0, _, a, b, c, d, e, f, g, h => ⟨a, b, c, d, e, f, g, h⟩
  | count + 1, t, a, b, c, d, e, f, g, h =>
      let s1 := rotateRight e 6 ^^^ rotateRight e 11 ^^^ rotateRight e 25
      let choice := (e &&& f) ^^^ (~~~e &&& g)
      let t1 := h + s1 + choice + roundConstants.getD t 0 + w.getD t 0
      let s0 := rotateRight a 2 ^^^ rotateRight a 13 ^^^ rotateRight a 22
      let majority := (a &&& b) ^^^ (a &&& c) ^^^ (b &&& c)
      rounds w count (t + 1) (t1 + (s0 + majority)) a b c (d + t1) e f g

/-- Absorbs one block. -/
def compress (s : Chain) (words : Array UInt32) : Chain :=
  let r := rounds (extendSchedule 48 words) 64 0 s.a s.b s.c s.d s.e s.f s.g s.h
  ⟨s.a + r.a, s.b + r.b, s.c + r.c, s.d + r.d, s.e + r.e, s.f + r.f, s.g + r.g, s.h + r.h⟩

/-- The chaining words in order. -/
def Chain.words (s : Chain) : List UInt32 :=
  [s.a, s.b, s.c, s.d, s.e, s.f, s.g, s.h]

end Sha256

/-- The SHA-256 digest of a message. -/
def sha256 (m : ByteArray) : Bytes :=
  (run .big Sha256.compress Sha256.initial m).words.flatMap (wordBytes .big)

@[simp] theorem length_sha256 (m : ByteArray) : (sha256 m).length = 32 := by
  simp [sha256, Sha256.Chain.words]

end Hash

end BitcoinScript
