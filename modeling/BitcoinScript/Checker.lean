import BitcoinScript.Hash
import BitcoinScript.Signature.Digest
import BitcoinScript.Signature.Lenient
import BitcoinScript.Transaction

/-!
# Checkers

A running script asks its surroundings two questions: whether a signature signs for a key, and
whether a lock time has passed. A checker answers them. Outside of any transaction every answer is
no; inside one, signatures are checked against the digest of the spending input, and lock times
against that of the transaction.

A `Call` records one question with its answer.
-/

namespace BitcoinScript

/-- Answers the questions of a running script. -/
structure Checker where
  /-- Whether a signature, its hash type last, signs the script code for a key. A digest that does
  not exist is an error, while malformed signatures and keys just sign nothing. -/
  checkSignature : (sig key scriptCode : Bytes) → Flags → Except DigestError Bool
  /-- Whether a lock time has passed. -/
  checkLockTime : Int → Bool

/-- A question asked of a checker, and its answer. -/
inductive Call where
  | signature (sig key scriptCode : Bytes) (flags : Flags) (answer : Except DigestError Bool)
  | lockTime (time : Int) (answer : Bool)

/-- The checker outside of any transaction. -/
def Checker.absent : Checker where
  checkSignature _ _ _ _ := .ok false
  checkLockTime _ := false

/-- The checker that accepts the listed pairs of signature and key, and lock times up to a
maximum. -/
def Checker.listed (accepted : List (Bytes × Bytes)) (maxLockTime : Option Int) : Checker where
  checkSignature sig key _ _ := .ok (accepted.contains (sig, key))
  checkLockTime time :=
    match maxLockTime with
    | some limit => time ≤ limit
    | none => false

/-- One input of a transaction, and the amount it spends. -/
structure Spend where
  tx : Transaction
  input : Nat
  amount : UInt64

namespace Spend

/-- Lock times below this are block heights, from it on times. -/
def lockTimeThreshold : Int := 500000000

/-- The sequence that marks an input as final. -/
def finalSequence : UInt32 := 0xffffffff

/-- The hash type, the scalars and the point of a signature and a key that can be read. -/
def readable? (sig key : Bytes) : Option (HashType × Curve.Signature × Curve.Point) :=
  match sig.getLast? with
  | none => none
  | some hashByte =>
      match Curve.publicKey? key with
      | none => none
      | some point =>
          match Curve.Lenient.signature? sig.dropLast with
          | none => none
          | some scalars => some (.ofByte hashByte, scalars, point)

/-- Whether a signature signs the digest of the spending input. -/
def checkSignature (s : Spend) (sig key scriptCode : Bytes) (flags : Flags) :
    Except DigestError Bool :=
  match readable? sig key with
  | none => .ok false
  | some (hashType, scalars, point) =>
      match Digest.signatureDigest s.tx s.input scriptCode s.amount hashType flags with
      | .error e => .error e
      | .ok digest => .ok (Curve.verify point scalars.lowS digest.bytes)

/-- Whether the lock time of the transaction has reached the given one: both are block heights or
both are times, and the input is not final, which would switch lock times off. A number that is no
signed 64-bit word is never reached. -/
def checkLockTime (s : Spend) (time : Int) : Bool :=
  let own : Int := s.tx.lockTime.toNat
  let isWord := decide (-0x8000000000000000 ≤ time ∧ time < 0x8000000000000000)
  let sameDomain := decide (own < lockTimeThreshold) == decide (time < lockTimeThreshold)
  isWord && sameDomain && decide (time ≤ own) &&
    match s.tx.inputs[s.input]? with
    | some input => input.sequence != finalSequence
    | none => false

/-- The checker for a spend. -/
def checker (s : Spend) : Checker where
  checkSignature := s.checkSignature
  checkLockTime := s.checkLockTime

end Spend

end BitcoinScript
