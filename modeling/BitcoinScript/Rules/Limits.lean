import BitcoinScript.Number
import BitcoinScript.Rules.Flags

/-!
# Limits of execution

The flags fix how long scripts, items and numbers may be, how many operations a script may take, and
how much the two stacks may hold.
-/

namespace BitcoinScript

/-- How the main and the alternative stack together are bounded. -/
inductive StackBound where
  /-- By the number of items. -/
  | depth (items : Nat)
  /-- By their memory: every item costs its length and a fixed overhead. -/
  | memory (bytes : Nat)
deriving DecidableEq, Repr

/-- The bounds of execution. -/
structure Limits where
  scriptSize : Nat
  elementSize : Nat
  operations : Nat
  numberSize : Nat
  multiSigKeys : Nat
  stack : StackBound
deriving DecidableEq, Repr

namespace Limits

/-- A size or count that no 64-bit machine exceeds; lifted limits stand here. -/
def wordMax : Nat := 0xffffffffffffffff

/-- The fixed memory cost of a stack item. -/
def itemOverhead : Nat := 32

/-- The limits of the genesis upgrade. -/
def lifted : Limits where
  scriptSize := wordMax
  elementSize := wordMax
  operations := wordMax
  numberSize := Number.extendedSize
  multiSigKeys := 0x7fffffff
  stack := .memory 100000000

/-- The limits before it; the magnetic upgrade raised the number of operations. -/
def standard (magnetic : Bool) : Limits where
  scriptSize := 10000
  elementSize := 520
  operations := if magnetic then 500 else 201
  numberSize := Number.standardSize
  multiSigKeys := 20
  stack := .depth 1000

end Limits

/-- The limits in force under some flags. -/
def Flags.limits (f : Flags) : Limits :=
  if f.genesis then .lifted else .standard f.magnetic

end BitcoinScript
