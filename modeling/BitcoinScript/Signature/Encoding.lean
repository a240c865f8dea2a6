import BitcoinScript.Bytes
import BitcoinScript.Rules.Flags
import BitcoinScript.Signature.HashType

/-!
# The form of signatures and keys

Depending on the flags, a signature has to be the strict encoding of two positive integers followed
by a defined hash type, with the smaller of the two possible second integers, and a public key has
to have one of two forms. An empty signature is always accepted: it is the short way to give none.
-/

namespace BitcoinScript

/-- The first rule of the strict encoding that a signature breaks. -/
inductive DerError where
  | tooShort
  | tooLong
  | invalidSequenceId
  | invalidDataLength
  | invalidIntegerIdR
  | zeroLengthR
  | negativeR
  | tooMuchPaddingR
  | invalidIntegerIdS
  | zeroLengthS
  | negativeS
  | tooMuchPaddingS
deriving DecidableEq, Repr

/-- The name of a broken rule. -/
def DerError.name : DerError → String
  | .tooShort => "TooShort"
  | .tooLong => "TooLong"
  | .invalidSequenceId => "InvalidSequenceId"
  | .invalidDataLength => "InvalidDataLength"
  | .invalidIntegerIdR => "InvalidIntegerIdR"
  | .zeroLengthR => "ZeroLengthR"
  | .negativeR => "NegativeR"
  | .tooMuchPaddingR => "TooMuchPaddingR"
  | .invalidIntegerIdS => "InvalidIntegerIdS"
  | .zeroLengthS => "ZeroLengthS"
  | .negativeS => "NegativeS"
  | .tooMuchPaddingS => "TooMuchPaddingS"

/-- Why a signature or key is refused for its form. -/
inductive EncodingError where
  /-- The signature is not strictly encoded. -/
  | signature (cause : DerError)
  /-- The second integer is above half the group order. -/
  | highS
  /-- The hash type is not defined. -/
  | hashType
  /-- The hash type asks for the fork's digest, which is not allowed yet. -/
  | illegalForkId
  /-- The hash type does not ask for the fork's digest, which is required. -/
  | mustUseForkId
  /-- The key has neither of the two forms. -/
  | publicKey
deriving DecidableEq, Repr

/-- The text of an encoding error. -/
def EncodingError.message : EncodingError → String
  | .signature cause => "invalid signature encoding: " ++ cause.name
  | .highS => "Signature violates low-S requirement"
  | .hashType => "Unsupported signature hash type"
  | .illegalForkId => "Signature uses SIGHASH_FORKID before it is enabled"
  | .mustUseForkId => "Signature must use SIGHASH_FORKID"
  | .publicKey => "public key type"

namespace Encoding

/-- Half of the group order, rounded down: the largest low second integer. -/
def halfOrder : Nat := 0x7fffffffffffffffffffffffffffffff5d576e7357a4501ddfe92f46681b20a0

/-- Checks the strict encoding `30 l 02 r R 02 s S` followed by a hash type, and returns `S`.
`l`, `r` and `s` are lengths of one byte, and an integer starts with a zero byte only if it would be
negative without it. -/
def strictS (sig : Bytes) : Except DerError Bytes :=
  let size := sig.length
  let byte := fun i => sig.getD i 0
  let r := (byte 3).toNat
  let s := (byte (5 + r)).toNat
  if size < 9 then .error .tooShort
  else if size > 73 then .error .tooLong
  else if byte 0 ≠ 0x30 then .error .invalidSequenceId
  else if (byte 1).toNat ≠ size - 3 then .error .invalidDataLength
  else if 5 + r ≥ size then .error .invalidDataLength
  else if r + s + 7 ≠ size then .error .invalidDataLength
  else if byte 2 ≠ 0x02 then .error .invalidIntegerIdR
  else if r = 0 then .error .zeroLengthR
  else if byte 4 &&& 0x80 ≠ 0 then .error .negativeR
  else if r > 1 ∧ byte 4 = 0 ∧ byte 5 &&& 0x80 = 0 then .error .tooMuchPaddingR
  else if byte (r + 4) ≠ 0x02 then .error .invalidIntegerIdS
  else if s = 0 then .error .zeroLengthS
  else if byte (r + 6) &&& 0x80 ≠ 0 then .error .negativeS
  else if s > 1 ∧ byte (r + 6) = 0 ∧ byte (r + 7) &&& 0x80 = 0 then .error .tooMuchPaddingS
  else .ok ((sig.drop (r + 6)).take s)

/-- Checks the strict encoding, and under the rule of low values also the second integer. -/
def checkStrict (sig : Bytes) (flags : Flags) : Except EncodingError Unit :=
  match strictS sig with
  | .error cause => .error (.signature cause)
  | .ok s => if flags.lowS && Bytes.beValue s > halfOrder then .error .highS else .ok ()

/-- Checks that a hash type is defined, and that it asks for the fork's digest exactly if the flags
allow it. -/
def checkHashType (t : HashType) (flags : Flags) : Except EncodingError Unit :=
  if !t.isDefined then .error .hashType
  else if t.hasForkId && !flags.forkId then .error .illegalForkId
  else if !t.hasForkId && flags.forkId then .error .mustUseForkId
  else .ok ()

/-- Checks the form of a signature, the strict encoding before the hash type. -/
def checkSignature (sig : Bytes) (flags : Flags) : Except EncodingError Unit :=
  match sig.getLast? with
  | none => .ok ()
  | some hashByte =>
      let strict :=
        if flags.derSignatures || flags.lowS || flags.strictEncoding then checkStrict sig flags
        else .ok ()
      let typed :=
        if flags.strictEncoding then checkHashType (.ofByte hashByte) flags else .ok ()
      match strict with
      | .error e => .error e
      | .ok () => typed

/-- Whether a key is 33 bytes with a leading 2 or 3, or 65 bytes with a leading 4. -/
def isPublicKey (key : Bytes) : Bool :=
  match key with
  | [] => false
  | tag :: rest =>
      (rest.length == 32 && (tag == 2 || tag == 3)) || (rest.length == 64 && tag == 4)

/-- Checks the form of a public key. -/
def checkPublicKey (key : Bytes) (flags : Flags) : Except EncodingError Unit :=
  if flags.strictEncoding && !isPublicKey key then .error .publicKey else .ok ()

end Encoding

end BitcoinScript
