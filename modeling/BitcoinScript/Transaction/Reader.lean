import BitcoinScript.Transaction

/-!
# Reading transactions

A transaction is read from front to back, and nothing may follow it. An input count of zero
announces the form with witnesses: a byte one, inputs, outputs and one witness per input; that form
is refused for a transaction whose witnesses are all empty. Counts and lengths must be written in
the shortest way.
-/

namespace BitcoinScript

/-- Takes a value off the front of a byte string, or fails. -/
abbrev Reader (α : Type) := StateT Bytes Option α

namespace Reader

/-- The next `n` bytes. -/
def bytes (n : Nat) : Reader Bytes := fun b =>
  let taken := b.take n
  if taken.length = n then some (taken, b.drop n) else none

/-- The next `width` bytes as a little-endian number. -/
def number (width : Nat) : Reader Nat := do
  return Bytes.leValue (← bytes width)

/-- A value that has to satisfy a condition. -/
def guarded (condition : Bool) (n : Nat) : Reader Nat :=
  if condition then pure n else failure

/-- A count or length in the shortest compact form. -/
def compact : Reader Nat := do
  let marker ← number 1
  if marker = 0xfd then
    let n ← number 2
    guarded (0xfd ≤ n) n
  else if marker = 0xfe then
    let n ← number 4
    guarded (0xffff < n) n
  else if marker = 0xff then
    let n ← number 8
    guarded (0xffffffff < n) n
  else return marker

/-- A byte string with its length in front. -/
def sized : Reader Bytes := do
  bytes (← compact)

/-- `n` values one after the other; `done` holds those read before, newest first. -/
def repeated {α : Type} (item : Reader α) : (n : Nat) → (done : List α) → Reader (List α)
  | 0, done => pure done.reverse
  | n + 1, done => do
      let x ← item
      repeated item n (x :: done)

/-- Values with their number in front. -/
def list {α : Type} (item : Reader α) : Reader (List α) := do
  repeated item (← compact) []

/-- A string of 32 bytes. -/
def bytes32 : Reader Bytes32 := fun b =>
  match bytes 32 b with
  | some (taken, rest) => if h : taken.length = 32 then some (⟨taken, h⟩, rest) else none
  | none => none

/-- A 32-bit number. -/
def uint32 : Reader UInt32 := do
  return UInt32.ofNat (← number 4)

/-- A 64-bit number. -/
def uint64 : Reader UInt64 := do
  return UInt64.ofNat (← number 8)

/-- An input without a witness. -/
def input : Reader TxInput := do
  let txid ← bytes32
  let index ← uint32
  let script ← sized
  let sequence ← uint32
  return ⟨⟨txid, index⟩, script, sequence, []⟩

/-- An output. -/
def output : Reader TxOutput := do
  let value ← uint64
  let script ← sized
  return ⟨value, script⟩

/-- The witnesses of the given inputs. -/
def witnesses : (inputs done : List TxInput) → Reader (List TxInput)
  | [], done => pure done.reverse
  | i :: rest, done => do
      let witness ← list sized
      witnesses rest ({ i with witness := witness } :: done)

/-- Inputs and outputs, in the form without or with witnesses. -/
def body : Reader (List TxInput × List TxOutput) := do
  let inputs ← list input
  if inputs.isEmpty then
    let flag ← number 1
    if flag ≠ 1 then failure
    let inputs ← list input
    let outputs ← list output
    let inputs ← witnesses inputs []
    if !inputs.isEmpty && inputs.all (·.witness.isEmpty) then failure
    return (inputs, outputs)
  else
    let outputs ← list output
    return (inputs, outputs)

/-- A transaction. -/
def transaction : Reader Transaction := do
  let version ← uint32
  let (inputs, outputs) ← body
  let lockTime ← uint32
  return ⟨version, inputs, outputs, lockTime⟩

end Reader

/-- Reads a transaction that takes up a whole byte string. -/
def Transaction.read? (b : Bytes) : Option Transaction :=
  match Reader.transaction b with
  | some (tx, []) => some tx
  | _ => none

end BitcoinScript
