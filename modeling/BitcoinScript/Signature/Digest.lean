import BitcoinScript.Program.Edit
import BitcoinScript.Rules.Flags
import BitcoinScript.Signature.HashType
import BitcoinScript.Transaction

/-!
# Signature digests

A signature signs the digest of a string made from the transaction, the script code and the hash
type. The first digest serializes a copy of the transaction in which the parts left open are
blanked; the fork's digest hashes the parts one by one and commits to the spent amount too.

* `legacyPreimage` and `forkPreimage` are the strings hashed, `legacyDigest` and `forkDigest` the
  digests, and `signatureDigest` chooses by hash type and flags.
-/

namespace BitcoinScript

/-- Why there is no digest. -/
inductive DigestError where
  /-- The transaction has no input of this index. -/
  | inputOutOfRange (index inputs : Nat)
deriving DecidableEq, Repr

/-- The text of a digest error. -/
def DigestError.message : DigestError → String
  | .inputOutOfRange index inputs =>
      "input index " ++ toString index ++ " out of range, transaction has " ++ toString inputs ++
        " inputs"

namespace Digest

/-! ## The first digest -/

/-- An input in the copy that is signed for input `index`: scripts and witnesses are removed, the
signing input gets the script code, and the sequences of the other inputs are zeroed unless all
outputs are signed. -/
def blankInput (index : Nat) (scriptCode : Bytes) (t : HashType) (position : Nat) (i : TxInput) :
    TxInput :=
  if position = index then { i with script := scriptCode, witness := [] }
  else
    { i with
      script := []
      witness := []
      sequence := if t.isNone || t.isSingle then 0 else i.sequence }

/-- An output that is not signed but keeps its place. -/
def blankOutput : TxOutput := ⟨0xffffffffffffffff, []⟩

/-- The outputs of the copy: all, none, or those up to the index with all but the last blanked. -/
def signedOutputs (index : Nat) (t : HashType) (outputs : List TxOutput) : List TxOutput :=
  if t.isNone then []
  else if t.isSingle then
    List.replicate (min index outputs.length) blankOutput ++ (outputs.drop index).take 1
  else outputs

/-- The inputs of the copy: all, or the signing one alone. -/
def signedInputs (index : Nat) (scriptCode : Bytes) (t : HashType) (inputs : List TxInput) :
    List TxInput :=
  let blanked := inputs.mapIdx (blankInput index scriptCode t)
  if t.anyoneCanPay then (blanked.drop index).take 1 else blanked

/-- The copy of a transaction that is signed for input `index`. -/
def signedCopy (tx : Transaction) (index : Nat) (scriptCode : Bytes) (t : HashType) : Transaction :=
  { tx with
    inputs := signedInputs index (Edit.removeCodeSeparators scriptCode) t tx.inputs
    outputs := signedOutputs index t tx.outputs }

/-- The string hashed for the first digest. -/
def legacyPreimage (tx : Transaction) (index : Nat) (scriptCode : Bytes) (t : HashType) : Bytes :=
  (signedCopy tx index scriptCode t).serialize ++ uint32Bytes t.value

/-- The number one, which is signed when the only output to sign is missing. -/
def missingOutputDigest : Bytes32 := ⟨1 :: List.replicate 31 0, by simp⟩

/-- The first digest. -/
def legacyDigest (tx : Transaction) (index : Nat) (scriptCode : Bytes) (t : HashType) :
    Except DigestError Bytes32 :=
  if index < tx.inputs.length then
    if t.isSingle && tx.outputs.length ≤ index then .ok missingOutputDigest
    else .ok (Hash.hash256 (legacyPreimage tx index scriptCode t))
  else .error (.inputOutOfRange index tx.inputs.length)

/-! ## The digest of the fork -/

/-- The hash of all spent outpoints, zero if the other inputs are left open. -/
def previousHash (tx : Transaction) (t : HashType) : Bytes32 :=
  if t.anyoneCanPay then .zero
  else Hash.hash256 (tx.inputs.flatMap fun i => i.previous.serialize)

/-- The hash of all sequences, zero if other inputs or outputs are left open. -/
def sequenceHash (tx : Transaction) (t : HashType) : Bytes32 :=
  if t.anyoneCanPay || t.isSingle || t.isNone then .zero
  else Hash.hash256 (tx.inputs.flatMap fun i => uint32Bytes i.sequence)

/-- The hash of the signed outputs, zero if there is none. -/
def outputsHash (tx : Transaction) (index : Nat) (t : HashType) : Bytes32 :=
  if t.isSingle then
    match tx.outputs[index]? with
    | some o => Hash.hash256 o.serialize
    | none => .zero
  else if t.isNone then .zero
  else Hash.hash256 (tx.outputs.flatMap TxOutput.serialize)

/-- The string hashed for the fork's digest of the given input. -/
def forkPreimage (tx : Transaction) (index : Nat) (input : TxInput) (scriptCode : Bytes)
    (amount : UInt64) (t : HashType) : Bytes :=
  uint32Bytes tx.version ++ (previousHash tx t).bytes ++ (sequenceHash tx t).bytes ++
    input.previous.serialize ++ sizedBytes scriptCode ++ uint64Bytes amount ++
    uint32Bytes input.sequence ++ (outputsHash tx index t).bytes ++ uint32Bytes tx.lockTime ++
    uint32Bytes t.value

/-- The digest of the fork. -/
def forkDigest (tx : Transaction) (index : Nat) (scriptCode : Bytes) (amount : UInt64)
    (t : HashType) : Except DigestError Bytes32 :=
  match tx.inputs[index]? with
  | some input => .ok (Hash.hash256 (forkPreimage tx index input scriptCode amount t))
  | none => .error (.inputOutOfRange index tx.inputs.length)

/-! ## The choice -/

/-- Whether the fork's digest is used: the hash type asks for it and the flags allow it. -/
def usesFork (t : HashType) (flags : Flags) : Bool := t.hasForkId && flags.forkId

/-- The digest that a signature of the given hash type signs. -/
def signatureDigest (tx : Transaction) (index : Nat) (scriptCode : Bytes) (amount : UInt64)
    (t : HashType) (flags : Flags) : Except DigestError Bytes32 :=
  if usesFork t flags then forkDigest tx index scriptCode amount t
  else legacyDigest tx index scriptCode t

end Digest

end BitcoinScript
