import BitcoinScript.Checker
import BitcoinScript.Failure
import BitcoinScript.Rules.Limits
import BitcoinScript.Stack

/-!
# The state of the machine

A machine runs one script under fixed rules. Its state holds the two stacks, the branches that are
open, the operations counted so far, the start of the signed part of the script, and the questions
asked of the checker.
-/

namespace BitcoinScript

namespace Machine

/-- What stays fixed while a script runs. -/
structure Context where
  flags : Flags
  checker : Checker
  /-- The whole script. -/
  script : Bytes

/-- The bounds in force. -/
def Context.limits (ctx : Context) : Limits := ctx.flags.limits

/-- What changes while a script runs. -/
structure State where
  stack : Stack
  altStack : Stack := []
  /-- For every open branch, innermost first, whether its current side is executed. -/
  branches : List Bool := []
  opCount : Nat := 0
  /-- The position after the last code separator executed. -/
  codeStart : Nat := 0
  /-- The questions asked of the checker, in order. -/
  calls : List Call := []

/-- What comes of an operation. -/
inductive Outcome where
  /-- Go on with the next chunk. -/
  | next (s : State)
  /-- End the script here. -/
  | done (s : State)
  /-- Fail, in the given state. -/
  | fail (reason : Reason) (s : State)

namespace State

/-- Whether all open branches are on a side that is executed. -/
def executing (s : State) : Bool := s.branches.all id

/-- The memory that both stacks are charged for. -/
def memory (s : State) : Nat := Stack.memory s.stack + Stack.memory s.altStack

/-- Notes a question asked of the checker. -/
def record (s : State) (c : Call) : State := { s with calls := s.calls ++ [c] }

/-- Goes on with a new stack, or fails in the state as it is. -/
def withStack (s : State) : Except Reason Stack → Outcome
  | .ok stack => .next { s with stack := stack }
  | .error reason => .fail reason s

end State

/-- The number held by an item, under the rules in force. -/
def number (flags : Flags) (x : Item) : Except Reason Int :=
  match x.toInt flags.minimalData flags.limits.numberSize with
  | .ok n => .ok n
  | .error e => .error (.number e)

/-- Fails if the stacks exceed their bound. -/
def checkBound (ctx : Context) (s : State) : Except Reason Unit :=
  match ctx.limits.stack with
  | .depth items =>
      if s.stack.length + s.altStack.length > items then .error .stackSize else .ok ()
  | .memory bytes => if s.memory > bytes then .error .stackMemory else .ok ()

end Machine

end BitcoinScript
