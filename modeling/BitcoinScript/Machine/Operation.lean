import BitcoinScript.Opcode
import BitcoinScript.Rules.Flags

/-!
# Operations

What the opcodes that are no pushes do. `Opcode.operation` gives every opcode its operation; opcodes
without a meaning have the operation `bad`.
-/

namespace BitcoinScript

/-- Moves and copies of blocks of items. -/
inductive StackOp where
  | drop (n : Nat)
  | dup (n : Nat)
  | copyOver (n : Nat)
  | rotate (n : Nat)
  | swap (n : Nat)
  | nip
  | tuck
deriving DecidableEq, Repr

/-- Arithmetic with one operand. -/
inductive UnaryOp where
  | increment
  | decrement
  | negate
  | absolute
  | isZero
  | isNonZero
deriving DecidableEq, Repr

/-- Arithmetic and comparison with two operands. -/
inductive BinaryOp where
  | add
  | sub
  | mul
  | div
  | mod
  | both
  | either
  | equal
  | different
  | less
  | greater
  | lessOrEqual
  | greaterOrEqual
  | min
  | max
deriving DecidableEq, Repr

/-- Logic on the bits of two items. -/
inductive BitOp where
  | and
  | or
  | xor
deriving DecidableEq, Repr

/-- The direction of a shift. -/
inductive Direction where
  | left
  | right
deriving DecidableEq, Repr

/-- The hash functions. -/
inductive HashOp where
  | ripemd160
  | sha1
  | sha256
  | hash160
  | hash256
deriving DecidableEq, Repr

/-- What an opcode does. -/
inductive Operation where
  /-- Fail. -/
  | bad
  /-- Push a number. -/
  | smallInt (n : Int)
  | nop
  /-- Do nothing, unless such opcodes are discouraged. -/
  | upgradableNop
  /-- Check a lock time. -/
  | lockTime
  /-- Open a branch that is executed if the top item is true, or if it is false. -/
  | openBranch (negated : Bool)
  /-- Turn to the other side of the innermost branch. -/
  | turnBranch
  /-- Close the innermost branch. -/
  | closeBranch
  | verify
  /-- End the script, or fail. -/
  | exit
  | toAlt
  | fromAlt
  | stack (op : StackOp)
  /-- Copy the top item if it is true. -/
  | dupIfTrue
  /-- Push the number of items. -/
  | depth
  /-- Fetch an item by its index, as a copy or out of its place. -/
  | fetch (takeOut : Bool)
  | cat
  | split
  | numToBin
  | binToNum
  | size
  | invert
  | bitwise (op : BitOp)
  | equal
  | equalVerify
  | shift (d : Direction)
  | unary (op : UnaryOp)
  | binary (op : BinaryOp)
  | numEqualVerify
  /-- Whether a number lies between two others, the first included. -/
  | within
  | hash (op : HashOp)
  /-- Start the signed part of the script here. -/
  | codeSeparator
  /-- Check a signature, and either push the answer or require it. -/
  | checkSig (required : Bool)
  /-- Check several signatures, and either push the answer or require it. -/
  | checkMultiSig (required : Bool)
deriving DecidableEq, Repr

namespace Opcode

/-- The operations of the opcodes above the small numbers. -/
def operations : List (UInt8 × Operation) := [
  (0x61, .nop), (0x63, .openBranch false), (0x64, .openBranch true), (0x67, .turnBranch),
  (0x68, .closeBranch), (0x69, .verify), (0x6a, .exit),
  (0x6b, .toAlt), (0x6c, .fromAlt), (0x6d, .stack (.drop 2)), (0x6e, .stack (.dup 2)),
  (0x6f, .stack (.dup 3)), (0x70, .stack (.copyOver 2)), (0x71, .stack (.rotate 2)),
  (0x72, .stack (.swap 2)), (0x73, .dupIfTrue), (0x74, .depth), (0x75, .stack (.drop 1)),
  (0x76, .stack (.dup 1)), (0x77, .stack .nip), (0x78, .stack (.copyOver 1)), (0x79, .fetch false),
  (0x7a, .fetch true), (0x7b, .stack (.rotate 1)), (0x7c, .stack (.swap 1)), (0x7d, .stack .tuck),
  (0x7e, .cat), (0x7f, .split), (0x80, .numToBin), (0x81, .binToNum), (0x82, .size),
  (0x83, .invert), (0x84, .bitwise .and), (0x85, .bitwise .or), (0x86, .bitwise .xor),
  (0x87, .equal), (0x88, .equalVerify),
  (0x8b, .unary .increment), (0x8c, .unary .decrement), (0x8f, .unary .negate),
  (0x90, .unary .absolute), (0x91, .unary .isZero), (0x92, .unary .isNonZero),
  (0x93, .binary .add), (0x94, .binary .sub), (0x95, .binary .mul), (0x96, .binary .div),
  (0x97, .binary .mod), (0x98, .shift .left), (0x99, .shift .right),
  (0x9a, .binary .both), (0x9b, .binary .either), (0x9c, .binary .equal), (0x9d, .numEqualVerify),
  (0x9e, .binary .different), (0x9f, .binary .less), (0xa0, .binary .greater),
  (0xa1, .binary .lessOrEqual), (0xa2, .binary .greaterOrEqual), (0xa3, .binary .min),
  (0xa4, .binary .max), (0xa5, .within),
  (0xa6, .hash .ripemd160), (0xa7, .hash .sha1), (0xa8, .hash .sha256), (0xa9, .hash .hash160),
  (0xaa, .hash .hash256), (0xab, .codeSeparator),
  (0xac, .checkSig false), (0xad, .checkSig true), (0xae, .checkMultiSig false),
  (0xaf, .checkMultiSig true),
  (0xb0, .upgradableNop), (0xb1, .lockTime), (0xb2, .upgradableNop), (0xb3, .upgradableNop),
  (0xb4, .upgradableNop), (0xb5, .upgradableNop), (0xb6, .upgradableNop), (0xb7, .upgradableNop),
  (0xb8, .upgradableNop), (0xb9, .upgradableNop)]

/-- What an opcode does that is no push. -/
def operation (op : Opcode) : Operation :=
  match op.smallInt? with
  | some n => .smallInt n
  | none => (operations.lookup op.byte).getD .bad

/-- The opcodes that no rules bring back. -/
def alwaysDisabled : List UInt8 := [0x8d, 0x8e]

/-- The opcodes that the monolith upgrade brought back. -/
def broughtBack : List UInt8 :=
  [0x7e, 0x7f, 0x80, 0x81, 0x83, 0x84, 0x85, 0x86, 0x95, 0x96, 0x97, 0x98, 0x99]

/-- Whether an opcode makes a script fail wherever it stands. -/
def isDisabled (op : Opcode) (flags : Flags) : Bool :=
  alwaysDisabled.contains op.byte || (broughtBack.contains op.byte && !flags.monolithOpcodes)

end Opcode

end BitcoinScript
