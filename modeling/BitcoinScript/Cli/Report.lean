import BitcoinScript.Checker
import BitcoinScript.Cli.Command
import BitcoinScript.Transaction.Reader
import BitcoinScript.Verification

/-!
# Carrying out commands

`Cli.report` answers a command line with what is printed and the exit code: 0 if all went well, 1 for
an error in the input, 2 for arguments that make no command.
-/

namespace BitcoinScript

namespace Cli

/-- Why a command fails. -/
inductive Error where
  | hex (e : Hex.Error)
  | transaction
  | parse (e : ParseError)
  | script (e : ScriptError)
  | digest (e : DigestError)
  | inputOutOfRange (index inputs : Nat)

/-- The text of an error. -/
def Error.message : Error → String
  | .hex e => "invalid hex: " ++ e.message
  | .transaction => "invalid transaction"
  | .parse e => e.message
  | .script e => e.message
  | .digest e => e.message
  | .inputOutOfRange index inputs =>
      "input " ++ toString index ++ " out of range, transaction has " ++ toString inputs ++ " inputs"

/-- What a command line is answered with. -/
structure Report where
  exitCode : Nat
  out : String
  err : String
deriving DecidableEq, Repr

/-- Reads a hexadecimal argument: blanks around it are ignored, and so is `0x` in front. -/
def bytes (text : String) : Except Error Bytes :=
  let trimmed := Text.trim text
  let digits := (Text.afterStart? "0x" trimmed).getD trimmed
  match Hex.decode digits with
  | .ok b => .ok b
  | .error e => .error (.hex e)

/-- Reads a transaction. -/
def transaction (text : String) : Except Error Transaction := do
  let b ← bytes text
  match Transaction.read? b with
  | some tx => .ok tx
  | none => .error .transaction

/-- A text filled up with blanks on the left. -/
def padLeft (width : Nat) (text : String) : String :=
  String.ofList (List.replicate (width - text.length) ' ') ++ text

/-- Lines, each ended. -/
def lines (ls : List String) : String :=
  String.join (ls.map (· ++ "\n"))

/-- The line of a chunk in a listing. -/
def chunkLine (c : Chunk) : String :=
  let data := match c.payload with
    | none => ""
    | some [] => ""
    | some d => " " ++ Hex.encode d
  padLeft 6 (toString c.offset) ++ "  " ++ c.opcode.text ++ data

/-- The listing of a script. -/
def disasm (script : String) : Except Error String := do
  let b ← bytes script
  match Program.parse b with
  | .error e => .error (.parse e)
  | .ok p => .ok (lines (p.text :: "" :: p.chunks.map chunkLine))

/-- The line of an item with its distance from the top. -/
def itemLine (depth : Nat) (x : Item) : String :=
  padLeft 4 (toString depth) ++ "  " ++ x.kind.name ++ " " ++ x.provenance.name ++ "  " ++ x.text

/-- The result of running a script on its own. -/
def eval (script : String) (rules : RuleSet) : Except Error String := do
  let b ← bytes script
  match execute .absent rules.flags b with
  | .error e => .error (.script (.parse e))
  | .ok e =>
      match e.outcome with
      | .error f => .error (.script (.execution f))
      | .ok success =>
          let head :=
            ["success: " ++ (if success then "true" else "false"),
              "stack (" ++ toString e.stack.length ++ " items, top first):"]
          .ok (lines (head ++ e.stack.mapIdx itemLine))

/-- The result of verifying an input. -/
def verify (tx : String) (input : Nat) (amount : UInt64) (scriptPubkey : String)
    (rules : RuleSet) : Except Error String := do
  let tx ← transaction tx
  let locking ← bytes scriptPubkey
  match tx.inputs[input]? with
  | none => .error (.inputOutOfRange input tx.inputs.length)
  | some own =>
      let spend : Spend := ⟨tx, input, amount⟩
      match (verifySpend spend.checker rules.flags own.script locking).verdict with
      | .error e => .error (.script e)
      | .ok () =>
          .ok (lines [Hex.encode tx.id.bytes.reverse ++ ":" ++ toString input ++
            " is valid under " ++ rules.text])

/-- Both digests of an input. -/
def sighash (tx : String) (input : Nat) (amount : UInt64) (scriptCode : String) (t : HashType) :
    Except Error String := do
  let tx ← transaction tx
  let code ← bytes scriptCode
  match Digest.legacyDigest tx input code t, Digest.forkDigest tx input code amount t with
  | .ok legacy, .ok fork =>
      .ok (lines ["hash type: " ++ t.text, "legacy:    " ++ Hex.encode legacy.bytes,
        "fork-id:   " ++ Hex.encode fork.bytes])
  | .error e, _ => .error (.digest e)
  | _, .error e => .error (.digest e)

/-- Carries a command out. -/
def Command.run : Command → Except Error String
  | .version => .ok (lines ["svscript-cli 0.1.0"])
  | .disasm script => Cli.disasm script
  | .eval script rules => Cli.eval script rules
  | .verify tx input amount scriptPubkey rules => Cli.verify tx input amount scriptPubkey rules
  | .sighash tx input amount scriptCode t => Cli.sighash tx input amount scriptCode t

/-- Answers a command line. -/
def report (args : List String) : Report :=
  match Command.read? args with
  | none => ⟨2, "", "error: unknown, repeated, missing or malformed arguments\n"⟩
  | some command =>
      match command.run with
      | .ok out => ⟨0, out, ""⟩
      | .error e => ⟨1, "", "Error: " ++ e.message ++ "\n"⟩

end Cli

end BitcoinScript
