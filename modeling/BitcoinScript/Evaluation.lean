import BitcoinScript.Machine.Step

/-!
# Evaluating scripts

`evaluate` runs a program on a stack and tells whether it ends with a true item on top. `execute`
parses a script and evaluates it on the empty stack.
-/

namespace BitcoinScript

/-- What comes of evaluating a program. -/
structure Evaluation where
  /-- Whether the top item is true in the end, or why the program failed. -/
  outcome : Except Failure Bool
  /-- The stack that is left. -/
  stack : Stack
  /-- The questions asked of the checker, in order. -/
  calls : List Call

/-- Whether the top item of a stack is true. -/
def topIsTrue : Stack → Bool
  | [] => false
  | x :: _ => x.isTrue

/-- The evaluation that a run of the machine amounts to. -/
def Evaluation.ofResult (r : Machine.Result) : Evaluation where
  outcome :=
    match r.failure with
    | none => .ok (topIsTrue r.state.stack)
    | some (reason, location) =>
        .error ⟨reason, location, r.state.stack, r.state.altStack, r.state.opCount⟩
  stack := r.state.stack
  calls := r.state.calls

/-- Evaluates a program on a stack. -/
def evaluate (checker : Checker) (flags : Flags) (p : Program) (stack : Stack) : Evaluation :=
  if p.size > flags.limits.scriptSize then ⟨.error (.bare .scriptSize), stack, []⟩
  else .ofResult (Machine.run ⟨flags, checker, p.bytes⟩ p.chunks { stack := stack })

/-- Why a script is not accepted: it breaks off, or it fails. -/
inductive ScriptError where
  | parse (e : ParseError)
  | execution (f : Failure)

/-- The text of a script error. -/
def ScriptError.message : ScriptError → String
  | .parse e => "failed to parse script: " ++ e.message
  | .execution f => f.message

/-- Parses a script and evaluates it on the empty stack. -/
def execute (checker : Checker) (flags : Flags) (script : Bytes) : Except ParseError Evaluation :=
  match Program.parse script with
  | .error e => .error e
  | .ok p => .ok (evaluate checker flags p [])

end BitcoinScript
