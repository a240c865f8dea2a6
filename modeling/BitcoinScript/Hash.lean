import BitcoinScript.Hash.Sha1
import BitcoinScript.Hash.Sha256
import BitcoinScript.Hash.Ripemd160

/-!
# The hash functions of the script language

Besides SHA-1, SHA-256 and RIPEMD-160 themselves, two compositions are used: `hash160`, which names
keys and scripts, and `hash256`, which names transactions and makes signature digests.
-/

namespace BitcoinScript

/-- A string of exactly 32 bytes: a transaction name or a signature digest. -/
structure Bytes32 where
  bytes : Bytes
  length_eq : bytes.length = 32
deriving DecidableEq

namespace Bytes32

theorem ext {a b : Bytes32} (h : a.bytes = b.bytes) : a = b := by
  cases a; cases b; cases h; rfl

/-- Thirty-two zero bytes. -/
def zero : Bytes32 := ⟨List.replicate 32 0, by simp⟩

end Bytes32

namespace Hash

/-- RIPEMD-160 of SHA-256. -/
def hash160 (m : ByteArray) : Bytes :=
  ripemd160 (sha256 m).toByteArray

/-- SHA-256 of SHA-256. -/
def doubleSha256 (m : ByteArray) : Bytes :=
  sha256 (sha256 m).toByteArray

@[simp] theorem length_hash160 (m : ByteArray) : (hash160 m).length = 20 := by
  simp [hash160]

@[simp] theorem length_doubleSha256 (m : ByteArray) : (doubleSha256 m).length = 32 := by
  simp [doubleSha256]

/-- The double SHA-256 digest of a byte string. -/
def hash256 (m : Bytes) : Bytes32 :=
  ⟨doubleSha256 m.toByteArray, by simp⟩

end Hash

end BitcoinScript
