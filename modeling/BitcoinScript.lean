import BitcoinScript.Bytes
import BitcoinScript.Bytes.Hex
import BitcoinScript.Hash
import BitcoinScript.Curve.Ecdsa
import BitcoinScript.Number
import BitcoinScript.Chunk
import BitcoinScript.Program
import BitcoinScript.Program.Edit
import BitcoinScript.Program.Builder
import BitcoinScript.Rules.RuleSet
import BitcoinScript.Stack
import BitcoinScript.Transaction.Reader
import BitcoinScript.Signature.Digest
import BitcoinScript.Signature.Encoding
import BitcoinScript.Signature.Lenient
import BitcoinScript.Checker
import BitcoinScript.Failure
import BitcoinScript.Machine.Arithmetic
import BitcoinScript.Machine.Splice
import BitcoinScript.Machine.Bitwise
import BitcoinScript.Trace
import BitcoinScript.Main
import BitcoinScript.Proofs.Number.Width
import BitcoinScript.Proofs.Number.Minimal
import BitcoinScript.Proofs.Program.Framing
import BitcoinScript.Proofs.Program.Deletion
import BitcoinScript.Proofs.Machine.Run
import BitcoinScript.Proofs.Machine.Frame
import BitcoinScript.Proofs.Machine.Calls
import BitcoinScript.Proofs.Machine.SignedCode
import BitcoinScript.Proofs.Machine.ItemSize
import BitcoinScript.Proofs.Machine.Limits
import BitcoinScript.Proofs.Verification.Verdict
import BitcoinScript.Proofs.Verification.ScriptHash
import BitcoinScript.Proofs.Rules.Tightening
import BitcoinScript.Proofs.Program.Grammar
import BitcoinScript.Proofs.Signature.Commitment
import BitcoinScript.Proofs.Verification.SignatureGate
import BitcoinScript.Proofs.Machine.Reframe
import BitcoinScript.Proofs.Machine.Branches
import BitcoinScript.Proofs.Signature.Binding
import BitcoinScript.Proofs.Verification.SignatureWork
import BitcoinScript.Proofs.Machine.Failures
import BitcoinScript.Proofs.Machine.Admission
import BitcoinScript.Proofs.Machine.Lockstep
import BitcoinScript.Proofs.Machine.Operands
import BitcoinScript.Proofs.Machine.Below
import BitcoinScript.Proofs.Machine.Marks
import BitcoinScript.Proofs.Machine.Flow
import BitcoinScript.Proofs.Verification.PushOnly
import BitcoinScript.Proofs.Machine.PeakMemory
import BitcoinScript.Proofs.Guarded.Number
import BitcoinScript.Proofs.Guarded.Operation
import BitcoinScript.Proofs.Guarded.Script
import BitcoinScript.Proofs.Guarded.Signatures
import BitcoinScript.Proofs.Machine.KeyMatching
import BitcoinScript.Proofs.Guarded.Safety
import BitcoinScript.Proofs.Signature.Uniqueness
import BitcoinScript.Proofs.Program.LongestCut
import BitcoinScript.Proofs.Signature.Separators
import BitcoinScript.Proofs.Machine.Shift
import BitcoinScript.Proofs.Machine.Resize
import BitcoinScript.Proofs.Program.ShortestPush
import BitcoinScript.Proofs.Program.Concatenation
import BitcoinScript.Proofs.Machine.Provenance
import BitcoinScript.Proofs.Machine.Finality
import BitcoinScript.Proofs.Machine.SingleKey
import BitcoinScript.Proofs.Machine.FusedVerify
import BitcoinScript.Proofs.Guarded.Reservation
import BitcoinScript.Proofs.Stack.Blocks
import BitcoinScript.Proofs.Guarded.Stack
import BitcoinScript.Proofs.Program.Occurrences
