import BitcoinScript.Opcode
import BitcoinScript.Signature.Digest
import BitcoinScript.Signature.Encoding
import BitcoinScript.Stack

/-!
# Failures

Why a script fails, and where and in what state it was then.
-/

namespace BitcoinScript

/-- Why a check of several signatures is refused before any of them is checked, or for its extra
item. -/
inductive MultiSigError where
  /-- The number of keys is negative or too large. -/
  | keyCount
  /-- The number of signatures is negative or larger than that of the keys. -/
  | signatureCount
  /-- The extra item has this length instead of none. -/
  | dummy (length : Nat)
deriving DecidableEq, Repr

/-- The text of a multiple signature error. -/
def MultiSigError.message : MultiSigError → String
  | .keyCount => "Invalid number of pubkeys"
  | .signatureCount => "Invalid number of signatures"
  | .dummy length => "Multisig dummy argument has length " ++ toString length ++ " instead of 0"

/-- Why a script fails. -/
inductive Reason where
  /-- The script ended with false or nothing on top of the stack. -/
  | evalFalse
  | opReturn
  | scriptSize
  | pushSize
  | opCount
  | stackSize
  | stackMemory
  /-- A verifying opcode found false. -/
  | verify (op : Opcode)
  | badOpcode (op : Opcode)
  | disabledOpcode (op : Opcode)
  /-- The stack is too short for the operation, or an index points outside of it. -/
  | invalidStackOperation
  | invalidAltStackOperation
  | unbalancedConditional
  | invalidOperandSize
  | invalidNumberRange
  | invalidSplitRange
  | impossibleEncoding
  | divByZero
  | modByZero
  | negativeLockTime
  | unsatisfiedLockTime
  | minimalData
  | cleanStack
  | signaturePushOnly
  | discourageUpgradableNops (op : Opcode)
  | number (cause : Number.Error)
  | digest (cause : DigestError)
  | encoding (cause : EncodingError)
  | multiSig (cause : MultiSigError)
deriving DecidableEq, Repr

/-- The text of a reason. -/
def Reason.message : Reason → String
  | .evalFalse => "script terminated with a false stack element"
  | .opReturn => "OP_RETURN was encountered"
  | .scriptSize => "script size exceeds the limit"
  | .pushSize => "push size exceeds the maximum element size"
  | .opCount => "operation count exceeds the limit"
  | .stackSize => "stack size exceeds the limit"
  | .stackMemory => "stack memory usage exceeds the limit"
  | .verify op => op.text ++ " failed"
  | .badOpcode op => op.text ++ " is not a valid opcode"
  | .disabledOpcode op => "attempt to execute disabled opcode " ++ op.text
  | .invalidStackOperation => "invalid stack operation"
  | .invalidAltStackOperation => "invalid alt stack operation"
  | .unbalancedConditional => "unbalanced conditional"
  | .invalidOperandSize => "operands must have the same size"
  | .invalidNumberRange => "number out of the valid range"
  | .invalidSplitRange => "split position out of range"
  | .impossibleEncoding => "value does not fit in the requested size"
  | .divByZero => "division by zero"
  | .modByZero => "modulo by zero"
  | .negativeLockTime => "negative lock time"
  | .unsatisfiedLockTime => "lock time requirement not satisfied"
  | .minimalData => "data push is not minimally encoded"
  | .cleanStack => "stack is not clean after evaluation"
  | .signaturePushOnly => "signature script is not push only"
  | .discourageUpgradableNops op => op.text ++ " reserved for soft-fork upgrades"
  | .number cause => cause.message
  | .digest cause => cause.message
  | .encoding cause => cause.message
  | .multiSig cause => cause.message

/-- A failed execution: the reason, the opcode at fault with its position if there is one, and the
state of the machine. -/
structure Failure where
  reason : Reason
  location : Option (Opcode × Nat)
  stack : Stack
  altStack : Stack
  opCount : Nat

namespace Failure

/-- A failure outside of any execution. -/
def bare (reason : Reason) : Failure := ⟨reason, none, [], [], 0⟩

/-- A failure after an execution that left a stack behind. -/
def final (reason : Reason) (stack : Stack) : Failure := ⟨reason, none, stack, [], 0⟩

/-- The text of a failure. -/
def message (f : Failure) : String :=
  let place := match f.location with
    | some (op, offset) => "at " ++ op.text ++ " (offset " ++ toString offset ++ "), "
    | none => ""
  f.reason.message ++ ", " ++ place ++ "stack: " ++ f.stack.text

end Failure

end BitcoinScript
