import BitcoinScript.Verification

/-!
# The log of a run

A run is logged step by step: every operation with the stack before it, every digest computed for a
signature, and the failure. The log is read off the steps of the machine, which do not know of it.
-/

namespace BitcoinScript

/-- How much a log line matters. -/
inductive LogLevel where
  | trace
  | debug
deriving DecidableEq, Repr

/-- The name of a log level. -/
def LogLevel.name : LogLevel → String
  | .trace => "TRACE"
  | .debug => "DEBUG"

/-- A line of the log. -/
structure LogLine where
  level : LogLevel
  message : String
deriving DecidableEq, Repr

/-- A log line as text. -/
def LogLine.text (l : LogLine) : String := l.level.name ++ " " ++ l.message

namespace Trace

/-- The line for a digest that is computed. -/
def digestLine (index : Nat) (t : HashType) (flags : Flags) : LogLine :=
  ⟨.debug, "Computing " ++ (if Digest.usesFork t flags then "fork-id" else "legacy") ++
    " digest for input " ++ toString index ++ ", hash type " ++ t.text⟩

/-- The line for a question asked of the checker of a spend. Signatures and keys that cannot be read
need no digest. -/
def callLines (spend? : Option Spend) : Call → List LogLine
  | .lockTime _ _ => []
  | .signature sig key _ flags _ =>
      match spend?, Spend.readable? sig key with
      | some spend, some (hashType, _, _) => [digestLine spend.input hashType flags]
      | _, _ => []

/-- The line for an operation that is about to be performed. -/
def operationLines (c : Chunk) (s : Machine.State) : List LogLine :=
  match c.payload with
  | some _ => []
  | none =>
      if Machine.isPerformed c s then
        [⟨.trace, "Executing " ++ c.opcode.text ++ " at offset " ++ toString c.offset ++
          ", stack: " ++ Stack.text s.stack⟩]
      else []

/-- The line for a failure at a chunk. -/
def failureLine (c : Chunk) (reason : Reason) : LogLine :=
  ⟨.debug, "Script execution failed at " ++ c.opcode.text ++ " (offset " ++ toString c.offset ++
    "): " ++ reason.message⟩

/-- The lines of one step, from the state before it and what came of it. -/
def stepLines (spend? : Option Spend) (ctx : Machine.Context) (c : Chunk) (s : Machine.State)
    (o : Machine.Outcome) : List LogLine :=
  let before := match Machine.accept ctx c s with
    | .ok accepted => operationLines c accepted
    | .error _ => []
  let asked := fun (t : Machine.State) =>
    (t.calls.drop s.calls.length).flatMap (callLines spend?)
  match o with
  | .next t => before ++ asked t
  | .done t => before ++ asked t
  | .fail reason t => before ++ asked t ++ [failureLine c reason]

/-- The lines of a run; `done` holds the earlier ones, newest first. -/
def runLines (spend? : Option Spend) (ctx : Machine.Context) :
    (done : List LogLine) → List Chunk → Machine.State → List LogLine
  | done, [], s =>
      let last := if s.branches.isEmpty then []
        else [⟨.debug, "Script execution failed: " ++ Reason.unbalancedConditional.message⟩]
      done.reverse ++ last
  | done, c :: rest, s =>
      let o := Machine.step ctx c s
      let done := (stepLines spend? ctx c s o).reverse ++ done
      match o with
      | .next s => runLines spend? ctx done rest s
      | .done _ => done.reverse
      | .fail _ _ => done.reverse

/-- The log of evaluating a program on a stack. -/
def evaluationLines (spend? : Option Spend) (checker : Checker) (flags : Flags) (p : Program)
    (stack : Stack) : List LogLine :=
  if p.size > flags.limits.scriptSize then []
  else runLines spend? ⟨flags, checker, p.bytes⟩ [] p.chunks { stack := stack }

/-- The log of one stage of a verification. -/
def stageLines (spend? : Option Spend) (checker : Checker) (flags : Flags) (s : Stage) :
    List LogLine :=
  let announcement := match s.role with
    | .redeem => [⟨.trace, "Evaluating redeem script " ++ s.program.text⟩]
    | _ => []
  announcement ++ evaluationLines spend? checker flags s.program s.stack

/-- The log of a verification. -/
def verificationLines (spend? : Option Spend) (checker : Checker) (flags : Flags)
    (v : Verification) : List LogLine :=
  v.stages.flatMap (stageLines spend? checker flags)

end Trace

end BitcoinScript
