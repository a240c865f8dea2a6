import BitcoinScript.Evaluation

/-!
# Verifying spends

An output is locked by a script, and an input unlocks it by another. The two run one after the other
on the same stack, and true must be left on top. If the locking script pays to the hash of a script,
that script has to be the last item pushed by the unlocking one; it runs on the items below it. The
genesis upgrade ended this, and requires unlocking scripts that only push.
-/

namespace BitcoinScript

/-- Which script of a spend is evaluated. -/
inductive Role where
  | unlocking
  | locking
  | redeem
deriving DecidableEq, Repr

/-- One evaluation within a verification. -/
structure Stage where
  role : Role
  program : Program
  /-- The stack at the start. -/
  stack : Stack
  evaluation : Evaluation

/-- What comes of verifying a spend: the verdict, and the evaluations that led to it. -/
structure Verification where
  verdict : Except ScriptError Unit
  stages : List Stage

namespace Verification

/-- The questions asked of the checker, in order. -/
def calls (v : Verification) : List Call := v.stages.flatMap (·.evaluation.calls)

/-- A failed verification. -/
def failed (f : Failure) (stages : List Stage) : Verification := ⟨.error (.execution f), stages⟩

/-- A failed verification of scripts that cannot be parsed. -/
def unparsed (e : ParseError) (stages : List Stage) : Verification := ⟨.error (.parse e), stages⟩

/-- Requires that one item is left, if the flags ask for it. -/
def finish (flags : Flags) (stack : Stack) (stages : List Stage) : Verification :=
  if flags.cleanStack && stack.length != 1 then failed (.final .cleanStack stack) stages
  else ⟨.ok (), stages⟩

/-- Evaluates a program in a role. -/
def stage (checker : Checker) (flags : Flags) (role : Role) (p : Program) (stack : Stack) : Stage :=
  ⟨role, p, stack, evaluate checker flags p stack⟩

/-- Runs the script behind a script hash on the items below it. `pushed` is the stack that the
unlocking script left. -/
def redeem (checker : Checker) (flags : Flags) (pushed : Stack) (stages : List Stage) :
    Verification :=
  match pushed with
  | [] => failed (.bare .invalidStackOperation) stages
  | script :: below =>
      match Program.parse script.bytes with
      | .error e => unparsed e stages
      | .ok p =>
          let last := stage checker flags .redeem p below
          let stages := stages ++ [last]
          match last.evaluation.outcome with
          | .error f => failed f stages
          | .ok false => failed (.final .evalFalse last.evaluation.stack) stages
          | .ok true => finish flags last.evaluation.stack stages

/-- Verifies parsed scripts. -/
def ofPrograms (checker : Checker) (flags : Flags) (unlocking locking : Program) : Verification :=
  if flags.genesis && !unlocking.isPushOnly then failed (.bare .signaturePushOnly) []
  else
    let first := stage checker flags .unlocking unlocking []
    match first.evaluation.outcome with
    | .error f => failed f [first]
    | .ok _ =>
        let second := stage checker flags .locking locking first.evaluation.stack
        let stages := [first, second]
        match second.evaluation.outcome with
        | .error f => failed f stages
        | .ok false => failed (.final .evalFalse second.evaluation.stack) stages
        | .ok true =>
            if flags.p2sh && !flags.genesis && locking.isP2sh then
              if unlocking.isPushOnly then
                redeem checker flags first.evaluation.stack stages
              else failed (.bare .signaturePushOnly) stages
            else finish flags second.evaluation.stack stages

end Verification

/-- Verifies that one script unlocks another. Both are parsed before either runs. -/
def verifySpend (checker : Checker) (flags : Flags) (unlocking locking : Bytes) : Verification :=
  match Program.parse unlocking with
  | .error e => .unparsed e []
  | .ok u =>
      match Program.parse locking with
      | .error e => .unparsed e []
      | .ok l => .ofPrograms checker flags u l

end BitcoinScript
