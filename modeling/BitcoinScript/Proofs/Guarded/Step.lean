import BitcoinScript.Evaluation
import BitcoinScript.Proofs.Guarded.Signatures
import BitcoinScript.Proofs.Machine.SignedCode

/-!
# Guarded steps

A step of the machine with all guards: the opcode is looked up in a table with a place for every
byte, operations are counted in a word, and the stacks are measured in words after every operation.

`step_eq` says that no guard strikes in a state with room: the signed part starts inside of the
script, and what the stacks hold is far from the largest word. One operation can at most double it,
so that it can still be measured afterwards.

The machine counts operations without end. In words, the sum of the operations and the keys of a
check stops at the largest word instead. `exists_perform_eq` says what this comes to in a state that
counts any number: the operation does what the machine does from a state that counts less, and from
the same state if the sum is a word. So what the machine does in every state also describes the
operation in words.
-/

namespace BitcoinScript

namespace Guarded

open Checked

open Machine (Context Outcome State Result)

/-! ## The machine with guards -/

/-- The operations in a table, one for every byte. -/
def handlers : List Operation := (List.range 256).map fun n => Opcode.operation ⟨UInt8.ofNat n⟩

/-- Performs the operation of a chunk. Operations that neither compute with words nor read at an
index have no guards. -/
def perform (ctx : Context) (c : Chunk) (s : State) : Option Outcome := do
  match ← index handlers c.opcode.byte.toNat with
  | .bad => return .fail (.badOpcode c.opcode) s
  | .smallInt n => return .next { s with stack := (← ofInt n .literal) :: s.stack }
  | .nop => return .next s
  | .upgradableNop => return Machine.upgradableNop ctx.flags c.opcode s
  | .lockTime => lockTime ctx c.opcode s
  | .openBranch negated => return Machine.openBranch negated s
  | .turnBranch => return Machine.turnBranch s
  | .closeBranch => return Machine.closeBranch s
  | .verify => return s.withStack (Machine.verify c.opcode s.stack)
  | .exit => return Machine.exit ctx.flags s
  | .toAlt => return Machine.toAlt s
  | .fromAlt => return Machine.fromAlt s
  | .stack op => outcome s (moveItems op s.stack)
  | .dupIfTrue => outcome s (dupIfTrue s.stack)
  | .depth => outcome s (depth s.stack)
  | .fetch takeOut => outcome s (fetch ctx.flags takeOut s.stack)
  | .cat => outcome s (cat ctx.limits s.stack)
  | .split => outcome s (split ctx.flags s.stack)
  | .numToBin => outcome s (numToBin ctx.flags s.altStack s.stack)
  | .binToNum => outcome s (binToNum ctx.limits s.stack)
  | .size => outcome s (size s.stack)
  | .invert => outcome s (invert s.stack)
  | .bitwise op => outcome s (bitwise op s.stack)
  | .equal => outcome s (equal s.stack)
  | .equalVerify => outcome s (equalVerify s.stack)
  | .shift d => shift ctx.flags d s
  | .unary op => outcome s (unary ctx.flags op s.stack)
  | .binary op => outcome s (binary ctx.flags op s.stack)
  | .numEqualVerify => outcome s (numEqualVerify ctx.flags s.stack)
  | .within => outcome s (within ctx.flags s.stack)
  | .hash op => outcome s (hash op s.stack)
  | .codeSeparator => return .next { s with codeStart := ← add c.offset 1 }
  | .checkSig required => checkSig ctx required s
  | .checkMultiSig required => checkMultiSig ctx required s

/-- Counts a chunk, if it is an operation. -/
def counted (c : Chunk) (s : State) : Option State :=
  if c.opcode.isCounted then do return { s with opCount := ← add s.opCount 1 } else some s

/-- Accepts a chunk and counts it, whether it is executed or not. -/
def accept (ctx : Context) (c : Chunk) (s : State) : Option (Except (Reason × State) State) :=
  if Machine.isTooLong ctx.limits c then some (.error (.pushSize, s))
  else do
    let s ← counted c s
    if c.opcode.isCounted && s.opCount > ctx.limits.operations then return .error (.opCount, s)
    else if c.opcode.isDisabled ctx.flags then return .error (.disabledOpcode c.opcode, s)
    else return .ok s

/-- Pushes the data of a chunk, or performs its operation, or skips it. -/
def execute (ctx : Context) (c : Chunk) (s : State) : Option Outcome :=
  match c.payload with
  | some data =>
      if s.executing then do
        if ctx.flags.minimalData && !(← isMinimalPush c) then return .fail .minimalData s
        else return .next { s with stack := .literal data :: s.stack }
      else some (.next s)
  | none => if Machine.isPerformed c s then perform ctx c s else some (.next s)

/-- Fails if the stacks exceed their bound. -/
def checkBound (ctx : Context) (s : State) : Checked Reason Unit :=
  match ctx.limits.stack with
  | .depth items => do
      if (← add s.stack.length s.altStack.length) > items then .failed .stackSize else .done ()
  | .memory bytes => do
      if (← memoryUsage s.stack s.altStack) > bytes then .failed .stackMemory else .done ()

/-- Fails after an operation whose stacks exceed their bound. -/
def bounded (ctx : Context) : Outcome → Option Outcome
  | .fail reason s => some (.fail reason s)
  | .next s => orFail s (checkBound ctx s) fun _ => some (.next s)
  | .done s => orFail s (checkBound ctx s) fun _ => some (.done s)

/-- One step of the machine. -/
def step (ctx : Context) (c : Chunk) (s : State) : Option Outcome := do
  match ← accept ctx c s with
  | .error (reason, s) => return .fail reason s
  | .ok s => bounded ctx (← execute ctx c s)

/-- Runs the chunks of a script one after the other. -/
def run (ctx : Context) : List Chunk → State → Option Result
  | [], s =>
      some (if s.branches.isEmpty then ⟨s, none⟩ else ⟨s, some (.unbalancedConditional, none)⟩)
  | c :: rest, s => do
      match ← step ctx c s with
      | .next s => run ctx rest s
      | .done s => return ⟨s, none⟩
      | .fail reason s => return ⟨s, some (reason, some (c.opcode, c.offset))⟩

/-- Evaluates a program on a stack. -/
def evaluate (checker : Checker) (flags : Flags) (p : Program) (stack : Stack) :
    Option Evaluation :=
  if p.size > flags.limits.scriptSize then some ⟨.error (.bare .scriptSize), stack, []⟩
  else do
    let r ← run ⟨flags, checker, p.bytes⟩ p.chunks { stack := stack }
    return .ofResult r

/-! ## States with room -/

/-- The memory that stacks may have at the start. One operation at most doubles it, so that it is
measured in words also before the bound is checked. -/
def room : Nat := 0x4000000000000000

/-- A state in which no guard strikes, if the operations are counted in words. -/
structure Roomy (ctx : Context) (s : State) : Prop where
  script_lt : ctx.script.length < signedSpan
  codeStart_le : s.codeStart ≤ ctx.script.length
  fits_stack : Stack.Fits room s.stack
  fits_altStack : Stack.Fits room s.altStack
  length_le : s.stack.length + s.altStack.length ≤ room
  memory_le : ctx.flags.genesis = true → s.memory ≤ room

/-- The chunk lies inside of the script. -/
def Inside (ctx : Context) (c : Chunk) : Prop := c.offset + c.size ≤ ctx.script.length

theorem room_lt : room < signedSpan := by decide

section Room

variable {ctx : Context} {c : Chunk} {s : State}

theorem Roomy.counted (h : Roomy ctx s) (c : Chunk) : Roomy ctx (Machine.counted c s) := by
  obtain ⟨hscript, hstart, hstack, haltStack, hlength, hmemory⟩ := h
  refine ⟨hscript, ?_, ?_, ?_, ?_, ?_⟩
  · rwa [Machine.counted_codeStart]
  · rwa [Machine.counted_stack]
  · rwa [Machine.counted_altStack]
  · rwa [Machine.counted_stack, Machine.counted_altStack]
  · rwa [State.memory, Machine.counted_stack, Machine.counted_altStack]

theorem Roomy.size_lt (h : Roomy ctx s) : ∀ x ∈ s.stack, x.size < signedSpan :=
  fun x hx => Nat.lt_of_le_of_lt (h.fits_stack x hx) room_lt

theorem Roomy.length_lt (h : Roomy ctx s) : s.stack.length < signedSpan := by
  have hle := h.length_le
  have hlt := room_lt
  omega

theorem handlers_eq (op : Opcode) : index handlers op.byte.toNat = some op.operation := by
  have hlt := op.byte.toNat_lt
  simp [index, handlers, hlt]

/-- The blocks of items that opcodes move are short. -/
theorem blockSize_le {op : Opcode} {o : StackOp} (h : op.operation = .stack o) :
    blockSize o ≤ 3 := by
  have htable : ∀ e ∈ Opcode.operations,
      (match e.2 with | .stack o => decide (blockSize o ≤ 3) | _ => true) = true := by decide
  rcases op.operation_cases with ⟨n, -, hop⟩ | hop | hmem
  · rw [h] at hop
    cases hop
  · rw [h] at hop
    cases hop
  · have hle := htable _ hmem
    rw [h] at hle
    exact of_decide_eq_true hle

/-- Only a check of several signatures counts operations of its own. -/
theorem perform_eq_of_ne (h : Roomy ctx s) (hc : Inside ctx c)
    (hsingle : ∀ required, c.opcode.operation ≠ .checkMultiSig required) :
    perform ctx c s = some (Machine.perform ctx c s) := by
  have hsizes := h.size_lt
  have hlength := h.length_lt
  have hword : s.stack.length < wordSpan := Nat.lt_trans hlength (by decide)
  have hmemory : ctx.flags.genesis = true →
      Stack.memory s.stack + Stack.memory s.altStack < wordSpan := by
    intro hg
    exact Nat.lt_of_le_of_lt (h.memory_le hg) (by decide)
  unfold perform Machine.perform
  rw [bind_of_some (handlers_eq c.opcode)]
  cases hop : c.opcode.operation with
  | smallInt n => simp
  | lockTime => exact lockTime_eq ctx c.opcode s
  | stack op => simp only [moveItems_eq (blockSize_le hop) hword, outcome_answer]
  | dupIfTrue => simp only [dupIfTrue_eq, outcome_answer]
  | depth => simp only [depth_eq hlength, outcome]
  | fetch takeOut => simp only [fetch_eq hword, outcome_answer]
  | cat => simp only [cat_eq hsizes, outcome_answer]
  | split => simp only [split_eq hsizes, outcome_answer]
  | numToBin => simp only [numToBin_eq hsizes hmemory, outcome_answer]
  | binToNum => simp only [binToNum_eq hsizes, outcome_answer]
  | size => simp only [size_eq hsizes, outcome_answer]
  | invert => simp only [invert_eq, outcome_answer]
  | bitwise op => simp only [bitwise_eq, outcome_answer]
  | equal => simp only [equal_eq, outcome_answer]
  | equalVerify => simp only [equalVerify_eq, outcome_answer]
  | shift d => exact shift_eq hsizes ctx.flags d
  | unary op => simp only [unary_eq, outcome_answer]
  | binary op => simp only [binary_eq, outcome_answer]
  | numEqualVerify => simp only [numEqualVerify_eq, outcome_answer]
  | within => simp only [within_eq, outcome_answer]
  | hash op => simp only [hash_eq, outcome_answer]
  | codeSeparator =>
      have hinside : c.offset + c.size ≤ ctx.script.length := hc
      have hpos := c.size_pos
      have hscript := h.script_lt
      have hdouble : wordSpan = 2 * signedSpan := rfl
      dsimp only
      rw [bind_of_some (add_eq (by omega))]
      rfl
  | checkSig required => exact checkSig_eq h.script_lt h.codeStart_le hsizes required
  | checkMultiSig required => exact absurd hop (hsingle required)
  | _ => rfl

/-- No guard strikes in a state with room, whatever it counts. -/
theorem exists_perform_eq (h : Roomy ctx s) (hc : Inside ctx c) :
    ∃ count ≤ s.opCount, (s.opCount + ctx.limits.multiSigKeys < wordSpan → count = s.opCount) ∧
      perform ctx c s = some (Machine.perform ctx c { s with opCount := count }) := by
  by_cases hmulti : ∃ required, c.opcode.operation = .checkMultiSig required
  · obtain ⟨required, hop⟩ := hmulti
    have hguarded : perform ctx c s = checkMultiSig ctx required s := by
      rw [perform, bind_of_some (handlers_eq c.opcode), hop]
    have hmachine : ∀ t, Machine.perform ctx c t = Machine.checkMultiSig ctx required t := by
      intro t
      rw [Machine.perform, hop]
    simp only [hguarded, hmachine]
    exact exists_checkMultiSig_eq h.script_lt h.codeStart_le h.length_lt h.size_lt required
  · refine ⟨s.opCount, Nat.le_refl _, fun _ => rfl, perform_eq_of_ne h hc ?_⟩
    exact fun required hop => hmulti ⟨required, hop⟩

theorem perform_eq (h : Roomy ctx s) (hc : Inside ctx c) (hcount : s.opCount < signedSpan) :
    perform ctx c s = some (Machine.perform ctx c s) := by
  have hkeys : ctx.limits.multiSigKeys ≤ 0x7fffffff := multiSigKeys_le ctx.flags
  have hdouble : 0x7fffffff + signedSpan < wordSpan := by decide
  obtain ⟨count, -, hfits, hperform⟩ := exists_perform_eq h hc
  rw [hperform, hfits (by omega)]

/-! ## Steps in states with room -/

theorem counted_eq (hcount : s.opCount + 1 < wordSpan) (c : Chunk) :
    counted c s = some (Machine.counted c s) := by
  unfold counted Machine.counted
  split
  · rw [bind_of_some (add_eq hcount)]
    rfl
  · rfl

theorem accept_eq (hcount : s.opCount + 1 < wordSpan) (ctx : Context) (c : Chunk) :
    accept ctx c s = some (Machine.accept ctx c s) := by
  rw [Machine.accept_eq]
  unfold accept
  split
  · rfl
  · rw [bind_of_some (counted_eq hcount c)]
    split
    · rfl
    · split <;> rfl

theorem execute_eq (h : Roomy ctx s) (hc : Inside ctx c) (hcount : s.opCount < signedSpan) :
    execute ctx c s = some (Machine.execute ctx c s) := by
  unfold execute Machine.execute
  cases c.payload with
  | some data =>
      dsimp only
      split
      · rw [bind_of_some (isMinimalPush_eq c)]
        split <;> rfl
      · rfl
  | none =>
      dsimp only
      split
      · exact perform_eq h hc hcount
      · rfl

/-- The stacks can be measured in words. -/
def Measurable (ctx : Context) (s : State) : Prop :=
  s.stack.length + s.altStack.length < wordSpan ∧
    (ctx.flags.genesis = true → s.memory < wordSpan)

theorem checkBound_eq (h : Measurable ctx s) :
    checkBound ctx s = .answer (Machine.checkBound ctx s) := by
  obtain ⟨hlength, hmemory⟩ := h
  unfold checkBound Machine.checkBound Context.limits Flags.limits
  by_cases hg : ctx.flags.genesis = true
  · rw [if_pos hg]
    dsimp only [Limits.lifted]
    rw [lift_bind (memoryUsage_eq (hmemory hg))]
    show _ = Checked.answer (if Stack.memory s.stack + Stack.memory s.altStack > _ then _ else _)
    split <;> rfl
  · rw [if_neg hg]
    dsimp only [Limits.standard]
    rw [lift_bind (add_eq hlength)]
    split <;> rfl

theorem bounded_eq {o : Outcome} (h : o.Ensures (Measurable ctx)) :
    bounded ctx o = some (Machine.bounded ctx o) := by
  cases o with
  | next t =>
      dsimp only [bounded, Machine.bounded]
      rw [checkBound_eq h]
      cases Machine.checkBound ctx t <;> rfl
  | done t =>
      dsimp only [bounded, Machine.bounded]
      rw [checkBound_eq h]
      cases Machine.checkBound ctx t <;> rfl
  | fail reason t => rfl

theorem Roomy.measurable (h : Roomy ctx s) : Measurable ctx s := by
  refine ⟨Nat.lt_of_le_of_lt h.length_le (by decide), ?_⟩
  intro hg
  exact Nat.lt_of_le_of_lt (h.memory_le hg) (by decide)

/-- What an operation leaves can be measured, before the bound is checked. -/
theorem perform_measurable (h : Roomy ctx s) (c : Chunk) :
    (Machine.perform ctx c s).Ensures (Measurable ctx) := by
  have hlength := h.length_le
  have hword : 2 * room + 64 < wordSpan := by decide
  refine ((Machine.perform_length_le ctx c s).mono fun t ht => ?_).and ?_
  · simp only [State.items, List.length_append] at ht
    omega
  · by_cases hg : ctx.flags.genesis = true
    · have hmemory := Machine.perform_memory_le (c := c) hg (h.memory_le hg) (by decide)
      exact Outcome.ensures_of_state fun _ => Nat.lt_of_le_of_lt hmemory hword
    · exact Outcome.ensures_of_state fun hgenesis => absurd hgenesis hg

theorem execute_measurable (h : Roomy ctx s) (hc : Inside ctx c) :
    (Machine.execute ctx c s).Ensures (Measurable ctx) := by
  unfold Machine.execute
  cases hpayload : c.payload with
  | some data =>
      dsimp only
      split
      · split
        · trivial
        · -- the data is a part of the script
          have hdata : data.length < signedSpan := by
            have hinside : c.offset + c.size ≤ ctx.script.length := hc
            have hscript := h.script_lt
            simp only [Chunk.size, hpayload] at hinside
            omega
          have hlength := h.length_le
          have hword : room + 64 + signedSpan < wordSpan := by decide
          refine ⟨?_, ?_⟩
          · simp only [List.length_cons]
            omega
          · intro hg
            have hmemory := h.memory_le hg
            simp only [State.memory, Stack.memory_cons, Stack.cost_eq, Item.size_literal]
              at hmemory ⊢
            omega
      · exact h.measurable
  | none =>
      dsimp only
      split
      · exact perform_measurable h c
      · exact h.measurable

theorem step_eq (h : Roomy ctx s) (hc : Inside ctx c) (hcount : s.opCount + 1 < signedSpan) :
    step ctx c s = some (Machine.step ctx c s) := by
  have hdouble : wordSpan = 2 * signedSpan := rfl
  unfold step Machine.step
  rw [bind_of_some (accept_eq (by omega) ctx c)]
  cases haccept : Machine.accept ctx c s with
  | error failure => rfl
  | ok t =>
      obtain ⟨-, -, -, rfl⟩ := Machine.accept_eq_ok_iff.mp haccept
      have hlt : (Machine.counted c s).opCount < signedSpan := by
        unfold Machine.counted
        split
        · exact hcount
        · omega
      dsimp only
      rw [bind_of_some (execute_eq (h.counted c) hc hlt),
        bounded_eq (execute_measurable (h.counted c) hc)]

end Room

end Guarded

end BitcoinScript
