import BitcoinScript.Machine.Arithmetic
import BitcoinScript.Machine.Bitwise
import BitcoinScript.Machine.Control
import BitcoinScript.Machine.Signatures
import BitcoinScript.Machine.Splice
import BitcoinScript.Program

/-!
# Steps of the machine

A step first accepts a chunk: its data must not be too long, it is counted if it is an operation, and
it must not be disabled. This happens also in branches that are not executed. Then a push is pushed,
or an operation performed, if the machine is executing; conditionals are always performed. Last, the
stacks must not exceed their bound.
-/

namespace BitcoinScript

namespace Machine

/-- Performs the operation of a chunk. -/
def perform (ctx : Context) (c : Chunk) (s : State) : Outcome :=
  match c.opcode.operation with
  | .bad => .fail (.badOpcode c.opcode) s
  | .smallInt n => .next { s with stack := .ofInt n .literal :: s.stack }
  | .nop => .next s
  | .upgradableNop => upgradableNop ctx.flags c.opcode s
  | .lockTime => lockTime ctx c.opcode s
  | .openBranch negated => openBranch negated s
  | .turnBranch => turnBranch s
  | .closeBranch => closeBranch s
  | .verify => s.withStack (verify c.opcode s.stack)
  | .exit => exit ctx.flags s
  | .toAlt => toAlt s
  | .fromAlt => fromAlt s
  | .stack op => s.withStack (moved (op.apply s.stack))
  | .dupIfTrue => s.withStack (dupIfTrue s.stack)
  | .depth => .next { s with stack := depth s.stack }
  | .fetch takeOut => s.withStack (fetch ctx.flags takeOut s.stack)
  | .cat => s.withStack (cat ctx.limits s.stack)
  | .split => s.withStack (split ctx.flags s.stack)
  | .numToBin => s.withStack (numToBin ctx.flags s.altStack s.stack)
  | .binToNum => s.withStack (binToNum ctx.limits s.stack)
  | .size => s.withStack (size s.stack)
  | .invert => s.withStack (invert s.stack)
  | .bitwise op => s.withStack (bitwise op s.stack)
  | .equal => s.withStack (equal s.stack)
  | .equalVerify => s.withStack (equalVerify s.stack)
  | .shift d => shift ctx.flags d s
  | .unary op => s.withStack (unary ctx.flags op s.stack)
  | .binary op => s.withStack (binary ctx.flags op s.stack)
  | .numEqualVerify => s.withStack (numEqualVerify ctx.flags s.stack)
  | .within => s.withStack (within ctx.flags s.stack)
  | .hash op => s.withStack (hash op s.stack)
  | .codeSeparator => .next { s with codeStart := c.offset + 1 }
  | .checkSig required => checkSig ctx required s
  | .checkMultiSig required => checkMultiSig ctx required s

/-- Whether a chunk pushes more bytes than an item may have. -/
def isTooLong (limits : Limits) (c : Chunk) : Bool :=
  match c.payload with
  | some data => data.length > limits.elementSize
  | none => false

/-- Accepts a chunk and counts it, whether it is executed or not. -/
def accept (ctx : Context) (c : Chunk) (s : State) : Except (Reason × State) State :=
  if isTooLong ctx.limits c then .error (.pushSize, s)
  else
    let s := if c.opcode.isCounted then { s with opCount := s.opCount + 1 } else s
    if c.opcode.isCounted && s.opCount > ctx.limits.operations then .error (.opCount, s)
    else if c.opcode.isDisabled ctx.flags then .error (.disabledOpcode c.opcode, s)
    else .ok s

/-- Whether an accepted chunk is looked at: the machine executes, or the chunk is a conditional. -/
def isPerformed (c : Chunk) (s : State) : Bool :=
  s.executing || c.opcode.isConditional

/-- Pushes the data of a chunk, or performs its operation, or skips it. -/
def execute (ctx : Context) (c : Chunk) (s : State) : Outcome :=
  match c.payload with
  | some data =>
      if s.executing then
        if ctx.flags.minimalData && !c.isMinimalPush then .fail .minimalData s
        else .next { s with stack := .literal data :: s.stack }
      else .next s
  | none => if isPerformed c s then perform ctx c s else .next s

/-- Fails after an operation whose stacks exceed their bound. -/
def bounded (ctx : Context) : Outcome → Outcome
  | .fail reason s => .fail reason s
  | .next s =>
      match checkBound ctx s with
      | .ok () => .next s
      | .error e => .fail e s
  | .done s =>
      match checkBound ctx s with
      | .ok () => .done s
      | .error e => .fail e s

/-- One step of the machine. -/
def step (ctx : Context) (c : Chunk) (s : State) : Outcome :=
  match accept ctx c s with
  | .error (reason, s) => .fail reason s
  | .ok s => bounded ctx (execute ctx c s)

/-- How a run ends: in a state, with the reason and place of a failure if there is one. -/
structure Result where
  state : State
  failure : Option (Reason × Option (Opcode × Nat))

/-- Runs the chunks of a script one after the other. At the end no branch may be open, unless the
script was ended by an operation. -/
def run (ctx : Context) : List Chunk → State → Result
  | [], s =>
      if s.branches.isEmpty then ⟨s, none⟩ else ⟨s, some (.unbalancedConditional, none)⟩
  | c :: rest, s =>
      match step ctx c s with
      | .next s => run ctx rest s
      | .done s => ⟨s, none⟩
      | .fail reason s => ⟨s, some (reason, some (c.opcode, c.offset))⟩

end Machine

end BitcoinScript
