import BitcoinScript.Machine.Operation
import BitcoinScript.Machine.State

/-!
# Control flow, constants and moves
-/

namespace BitcoinScript

/-- Moves or copies items, if there are enough of them. -/
def StackOp.apply (op : StackOp) (s : Stack) : Option Stack :=
  match op with
  | .drop n => Stack.discard n s
  | .dup n => Stack.dup n s
  | .copyOver n => Stack.copyOver n s
  | .rotate n => Stack.rotate n s
  | .swap n => Stack.swap n s
  | .nip => Stack.nip s
  | .tuck => Stack.tuck s

namespace Machine

/-- The stack after a move, or the failure of one on a stack that is too short. -/
def moved : Option Stack → Except Reason Stack
  | some s => .ok s
  | none => .error .invalidStackOperation

/-- Does nothing, unless such opcodes are discouraged. -/
def upgradableNop (flags : Flags) (op : Opcode) (s : State) : Outcome :=
  if flags.discourageUpgradableNops then .fail (.discourageUpgradableNops op) s else .next s

/-- Opens a branch. Inside code that is not executed, the new branch is not executed either and the
stack is not looked at. -/
def openBranch (negated : Bool) (s : State) : Outcome :=
  if s.executing then
    match s.stack with
    | [] => .fail .unbalancedConditional s
    | x :: rest => .next { s with stack := rest, branches := (x.isTrue != negated) :: s.branches }
  else .next { s with branches := false :: s.branches }

/-- Turns to the other side of the innermost branch. -/
def turnBranch (s : State) : Outcome :=
  match s.branches with
  | [] => .fail .unbalancedConditional s
  | b :: rest => .next { s with branches := (!b) :: rest }

/-- Closes the innermost branch. -/
def closeBranch (s : State) : Outcome :=
  match s.branches with
  | [] => .fail .unbalancedConditional s
  | _ :: rest => .next { s with branches := rest }

/-- Takes the top item off, which must be true. -/
def verify (op : Opcode) : Stack → Except Reason Stack
  | [] => .error .invalidStackOperation
  | x :: rest => if x.isTrue then .ok rest else .error (.verify op)

/-- Ends the script once the limits are lifted, and fails before. -/
def exit (flags : Flags) (s : State) : Outcome :=
  if flags.genesis then .done s else .fail .opReturn s

/-- Moves the top item to the alternative stack. -/
def toAlt (s : State) : Outcome :=
  match s.stack with
  | [] => .fail .invalidStackOperation s
  | x :: rest => .next { s with stack := rest, altStack := x :: s.altStack }

/-- Moves the top item of the alternative stack back. -/
def fromAlt (s : State) : Outcome :=
  match s.altStack with
  | [] => .fail .invalidAltStackOperation s
  | x :: rest => .next { s with stack := x :: s.stack, altStack := rest }

/-- Copies the top item if it is true. -/
def dupIfTrue : Stack → Except Reason Stack
  | [] => .error .invalidStackOperation
  | x :: rest => .ok (if x.isTrue then x :: x :: rest else x :: rest)

/-- Pushes the number of items, a derived value. -/
def depth (s : Stack) : Stack := .ofInt s.length .derived :: s

/-- Fetches the item with as many items above it as the index says, the index itself aside. The item
becomes as derived as the index. -/
def fetch (flags : Flags) (takeOut : Bool) : Stack → Except Reason Stack
  | [] => .error .invalidStackOperation
  | index :: rest =>
      match number flags index with
      | .error e => .error e
      | .ok n =>
          if n < 0 then .error .invalidStackOperation
          else
            match rest[n.toNat]? with
            | none => .error .invalidStackOperation
            | some x =>
                let below := if takeOut then rest.eraseIdx n.toNat else rest
                .ok (x.merge index.provenance :: below)

/-- Checks the lock time on top of the stack, which stays there. The operation does nothing before
lock times are checked, and again once the limits are lifted. -/
def lockTime (ctx : Context) (op : Opcode) (s : State) : Outcome :=
  if !ctx.flags.checkLockTime || ctx.flags.genesis then upgradableNop ctx.flags op s
  else
    match s.stack with
    | [] => .fail .invalidStackOperation s
    | x :: _ =>
        match x.toInt ctx.flags.minimalData Number.lockTimeSize with
        | .error e => .fail (.number e) s
        | .ok time =>
            if time < 0 then .fail .negativeLockTime s
            else
              let answer := ctx.checker.checkLockTime time
              let asked := s.record (.lockTime time answer)
              if answer then .next asked else .fail .unsatisfiedLockTime asked

end Machine

end BitcoinScript
