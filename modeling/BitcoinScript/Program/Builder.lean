import BitcoinScript.Number
import BitcoinScript.Program.Edit

/-!
# Building scripts

A script is built by appending opcodes, data, numbers or raw bytes.
-/

namespace BitcoinScript

/-- One step of building a script. -/
inductive BuildStep where
  /-- Append one opcode. -/
  | opcode (op : Opcode)
  /-- Append the push of some data. -/
  | data (d : Bytes)
  /-- Append the shortest push of a number. -/
  | int (n : Int)
  /-- Append bytes as they are. -/
  | raw (b : Bytes)
deriving DecidableEq, Repr

namespace BuildStep

/-- The shortest push of a number: an opcode for minus one to sixteen, its bytes otherwise. -/
def intBytes (n : Int) : Bytes :=
  if n = 0 then [Opcode.push0.byte]
  else if n = -1 then [Opcode.minusOne.byte]
  else if 1 ≤ n ∧ n ≤ 16 then [UInt8.ofNat (0x50 + n.toNat)]
  else pushEncoding (Number.encode n)

/-- The bytes that a step appends. -/
def bytes : BuildStep → Bytes
  | .opcode op => [op.byte]
  | .data d => pushEncoding d
  | .int n => intBytes n
  | .raw b => b

/-- The scripts after each of the steps, from a script on. -/
def scripts (script : Bytes) : List BuildStep → List Bytes
  | [] => []
  | step :: rest =>
      let next := script ++ step.bytes
      next :: scripts next rest

/-- The script that the steps build. -/
def script (steps : List BuildStep) : Bytes :=
  steps.flatMap bytes

end BuildStep

end BitcoinScript
