import BitcoinScript.Hash.Block

/-!
# SHA-1

The digest of a message has 20 bytes (`length_sha1`).
-/

namespace BitcoinScript

namespace Hash

namespace Sha1

/-- The five chaining words. -/
structure Chain where
  a : UInt32
  b : UInt32
  c : UInt32
  d : UInt32
  e : UInt32

/-- The chaining words before the first block. -/
def initial : Chain :=
  ⟨0x67452301, 0xefcdab89, 0x98badcfe, 0x10325476, 0xc3d2e1f0⟩

/-- Appends `count` words to the message schedule. -/
def extendSchedule : (count : Nat) → Array UInt32 → Array UInt32
  | 0, w => w
  | count + 1, w =>
      let t := w.size
      let x := w.getD (t - 3) 0 ^^^ w.getD (t - 8) 0 ^^^ w.getD (t - 14) 0 ^^^ w.getD (t - 16) 0
      extendSchedule count (w.push (rotateLeft x 1))

/-- The mixing function of round `t`, with its constant added. -/
def mix (t : Nat) (b c d : UInt32) : UInt32 :=
  if t < 20 then ((b &&& c) ||| (~~~b &&& d)) + 0x5a827999
  else if t < 40 then (b ^^^ c ^^^ d) + 0x6ed9eba1
  else if t < 60 then ((b &&& c) ||| (b &&& d) ||| (c &&& d)) + 0x8f1bbcdc
  else (b ^^^ c ^^^ d) + 0xca62c1d6

/-- Runs `count` rounds from round `t` on. -/
def rounds (w : Array UInt32) : (count t : Nat) → (a b c d e : UInt32) → Chain
  | 0, _, a, b, c, d, e => ⟨a, b, c, d, e⟩
  | count + 1, t, a, b, c, d, e =>
      rounds w count (t + 1) (rotateLeft a 5 + mix t b c d + e + w.getD t 0) a (rotateLeft b 30) c d

/-- Absorbs one block. -/
def compress (s : Chain) (words : Array UInt32) : Chain :=
  let r := rounds (extendSchedule 64 words) 80 0 s.a s.b s.c s.d s.e
  ⟨s.a + r.a, s.b + r.b, s.c + r.c, s.d + r.d, s.e + r.e⟩

/-- The chaining words in order. -/
def Chain.words (s : Chain) : List UInt32 :=
  [s.a, s.b, s.c, s.d, s.e]

end Sha1

/-- The SHA-1 digest of a message. -/
def sha1 (m : ByteArray) : Bytes :=
  (run .big Sha1.compress Sha1.initial m).words.flatMap (wordBytes .big)

@[simp] theorem length_sha1 (m : ByteArray) : (sha1 m).length = 20 := by
  simp [sha1, Sha1.Chain.words]

end Hash

end BitcoinScript
