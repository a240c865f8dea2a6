import BitcoinScript.Cli.Arguments
import BitcoinScript.Rules.RuleSet
import BitcoinScript.Signature.HashType
import BitcoinScript.Text.Digits

/-!
# Commands

The command line takes one of four commands, or asks for the version.
-/

namespace BitcoinScript

namespace Cli

/-- A command with its arguments; scripts and transactions are still hexadecimal text. -/
inductive Command where
  | version
  /-- List a script. -/
  | disasm (script : String)
  /-- Run a script on its own. -/
  | eval (script : String) (rules : RuleSet)
  /-- Verify an input of a transaction. -/
  | verify (tx : String) (input : Nat) (amount : UInt64) (scriptPubkey : String) (rules : RuleSet)
  /-- Compute the digests of an input of a transaction. -/
  | sighash (tx : String) (input : Nat) (amount : UInt64) (scriptCode : String) (t : HashType)
deriving DecidableEq

namespace Command

/-- The value of an option, or a default. -/
def valueOr {α : Type} (a : Arguments) (name : String) (fallback : α) (read : String → Option α) :
    Option α :=
  match a.option? name with
  | none => some fallback
  | some text => read text

/-- The rules chosen by the arguments. -/
def rules? (a : Arguments) : Option RuleSet := do
  let epoch ← valueOr a "rules" Epoch.chronicle Epoch.ofName?
  let rules := RuleSet.ofEpoch epoch
  return if a.switch "policy" then rules.withPolicy else rules

/-- The index of an input. -/
def input? (a : Arguments) : Option Nat :=
  valueOr a "input" 0 (Text.readNat? 10 UInt64.size)

/-- The amount of an output. -/
def amount? (a : Arguments) : Option UInt64 :=
  valueOr a "amount" 0 fun text => (Text.readNat? 10 UInt64.size text).map UInt64.ofNat

/-- A hash type, in hexadecimal after `0x` and in decimal otherwise. -/
def readHashType? (text : String) : Option HashType :=
  let value := match Text.afterStart? "0x" text with
    | some digits => Text.readNat? 16 UInt32.size digits
    | none => Text.readNat? 10 UInt32.size text
  value.map fun n => ⟨UInt32.ofNat n⟩

/-- The hash type of a digest. -/
def hashType? (a : Arguments) : Option HashType :=
  valueOr a "hash-type" ⟨0x41⟩ readHashType?

/-- Reads the arguments of a command. -/
def ofArguments? (name : String) (args : List String) : Option Command :=
  match name with
  | "disasm" => do
      let a ← Arguments.read ⟨[], [], 1⟩ {} args
      let script ← a.positionals.head?
      return .disasm script
  | "eval" => do
      let a ← Arguments.read ⟨["rules"], ["policy"], 1⟩ {} args
      let script ← a.positionals.head?
      let rules ← rules? a
      return .eval script rules
  | "verify" => do
      let a ← Arguments.read ⟨["tx", "input", "amount", "script-pubkey", "rules"], ["policy"], 0⟩ {}
        args
      let tx ← a.option? "tx"
      let scriptPubkey ← a.option? "script-pubkey"
      let input ← input? a
      let amount ← amount? a
      let rules ← rules? a
      return .verify tx input amount scriptPubkey rules
  | "sighash" => do
      let a ← Arguments.read ⟨["tx", "input", "amount", "script-code", "hash-type"], [], 0⟩ {} args
      let tx ← a.option? "tx"
      let scriptCode ← a.option? "script-code"
      let input ← input? a
      let amount ← amount? a
      let t ← hashType? a
      return .sighash tx input amount scriptCode t
  | _ => none

/-- Reads a command line. -/
def read? : List String → Option Command
  | [] => none
  | first :: rest =>
      if first = "--version" || (Text.afterStart? "-V" first).isSome then some .version
      else ofArguments? first rest

end Command

end Cli

end BitcoinScript
