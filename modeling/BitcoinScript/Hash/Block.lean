import BitcoinScript.Bytes

/-!
# Messages cut into blocks of 64 bytes

The three hash functions of the script language process a message in blocks of sixteen 32-bit
words. The message is followed by a byte `0x80`, as many zero bytes as are needed, and its length
in bits as an eight-byte number; the functions differ in the byte order of words and length.
-/

namespace BitcoinScript

namespace Hash

/-- The order in which the bytes of a word or of the message length are written. -/
inductive ByteOrder where
  | big
  | little
deriving DecidableEq, Repr

/-- The byte at a position, zero past the end. -/
def byteAt (m : ByteArray) (i : Nat) : UInt8 :=
  if h : i < m.size then m[i] else 0

/-- The 32-bit word whose four bytes start at a position. -/
def wordAt (order : ByteOrder) (m : ByteArray) (i : Nat) : UInt32 :=
  let b0 := (byteAt m i).toUInt32
  let b1 := (byteAt m (i + 1)).toUInt32
  let b2 := (byteAt m (i + 2)).toUInt32
  let b3 := (byteAt m (i + 3)).toUInt32
  match order with
  | .big => (b0 <<< 24) ||| (b1 <<< 16) ||| (b2 <<< 8) ||| b3
  | .little => (b3 <<< 24) ||| (b2 <<< 16) ||| (b1 <<< 8) ||| b0

/-- The sixteen words of the block that starts at a position. -/
def block (order : ByteOrder) (m : ByteArray) (start : Nat) : Array UInt32 :=
  (Array.range 16).map fun i => wordAt order m (start + 4 * i)

/-- Four bytes of a word. -/
def wordBytes (order : ByteOrder) (w : UInt32) : Bytes :=
  match order with
  | .big => Bytes.be 4 w.toNat
  | .little => Bytes.le 4 w.toNat

/-- The bytes that follow a message of the given length. -/
def padding (order : ByteOrder) (length : Nat) : Bytes :=
  let bits := match order with
    | .big => Bytes.be 8 (8 * length)
    | .little => Bytes.le 8 (8 * length)
  0x80 :: List.replicate ((119 - length % 64) % 64) 0 ++ bits

/-- Runs a compression function over `count` blocks from `start` on. -/
def foldBlocks {σ : Type} (order : ByteOrder) (compress : σ → Array UInt32 → σ) (m : ByteArray) :
    (count start : Nat) → σ → σ
  | 0, _, s => s
  | count + 1, start, s =>
      foldBlocks order compress m count (start + 64) (compress s (block order m start))

/-- Runs a compression function over a padded message. -/
def run {σ : Type} (order : ByteOrder) (compress : σ → Array UInt32 → σ) (initial : σ)
    (m : ByteArray) : σ :=
  let padded := m ++ (padding order m.size).toByteArray
  foldBlocks order compress padded (padded.size / 64) 0 initial

/-- Rotation of a word to the left by `1 ≤ n ≤ 31` places. -/
@[inline] def rotateLeft (x n : UInt32) : UInt32 :=
  (x <<< n) ||| (x >>> (32 - n))

/-- Rotation of a word to the right by `1 ≤ n ≤ 31` places. -/
@[inline] def rotateRight (x n : UInt32) : UInt32 :=
  (x >>> n) ||| (x <<< (32 - n))

@[simp] theorem length_wordBytes (order : ByteOrder) (w : UInt32) :
    (wordBytes order w).length = 4 := by
  cases order <;> simp [wordBytes]

end Hash

end BitcoinScript
