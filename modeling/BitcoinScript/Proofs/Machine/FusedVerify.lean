import BitcoinScript.Proofs.Machine.SingleKey

/-!
# Fused tests

Four opcodes have a second form, which tests the answer at once instead of pushing it. Each pair is
written in its own way: the two tests for equality are operations of their own, and the two checks
of signatures branch at their end on whether the answer is required. `Requires` is what the two
forms have in common. Either both fail alike, or the first pushes an answer that the second
requires.

That the fused form is the plain form followed by `OP_VERIFY` follows from this relation alone
(`fused_verify_is_two_steps`).
-/

namespace BitcoinScript

/-- Tests two numbers for equality. -/
def Opcode.numEqual : Opcode := ⟨0x9c⟩

/-- Takes the top item off, which must be true. -/
def Opcode.verify : Opcode := ⟨0x69⟩

/-- The opcodes that have a form that tests the answer, and that form. -/
inductive Opcode.Fuses : Opcode → Opcode → Prop where
  | equal : Fuses .equal .equalVerify
  | numEqual : Fuses .numEqual .numEqualVerify
  | checkSig : Fuses .checkSig .checkSigVerify
  | checkMultiSig : Fuses .checkMultiSig .checkMultiSigVerify

theorem Item.isTrue_ofBool (b : Bool) (p : Provenance) : (Item.ofBool b p).isTrue = b := by
  rw [isTrue_eq, bytes_ofBool]
  cases b <;> rfl

namespace Machine

/-- What comes of an operation, and of its form `op` that requires the answer. If the answer is
refused, the operands may be off the stack or not. -/
inductive Requires (op : Opcode) : Outcome → Outcome → Prop where
  | failed (reason : Reason) (s : State) : Requires op (.fail reason s) (.fail reason s)
  | accepted (s : State) (p : Provenance) (rest : Stack) :
      Requires op (.next { s with stack := .ofBool true p :: rest }) (.next { s with stack := rest })
  | refused (s : State) (p : Provenance) (rest stack : Stack) :
      Requires op (.next { s with stack := .ofBool false p :: rest })
        (.fail (.verify op) { s with stack := stack })

/-! ## The four pairs -/

theorem equal_requires (s : State) :
    Requires Opcode.equalVerify (s.withStack (equal s.stack))
      (s.withStack (equalVerify s.stack)) := by
  match s.stack with
  | [] => exact .failed _ s
  | [x] => exact .failed _ s
  | y :: x :: rest =>
      simp only [equal, equalVerify]
      by_cases hsame : x.data = y.data
      · rw [if_pos hsame, decide_eq_true hsame]
        exact .accepted s _ rest
      · rw [if_neg hsame, decide_eq_false hsame]
        exact .refused s _ rest s.stack

theorem numEqual_requires (flags : Flags) (s : State) :
    Requires Opcode.numEqualVerify (s.withStack (binary flags .equal s.stack))
      (s.withStack (numEqualVerify flags s.stack)) := by
  match s.stack with
  | [] => exact .failed _ s
  | [x] => exact .failed _ s
  | y :: x :: rest =>
      simp only [binary, numEqualVerify]
      cases pair flags x y with
      | error e => exact .failed e s
      | ok numbers =>
          by_cases hsame : numbers.1 = numbers.2
          · simp only [BinaryOp.eval, hsame, beq_self_eq_true, if_true]
            exact .accepted s _ rest
          · simp only [BinaryOp.eval, beq_eq_false_iff_ne.mpr hsame, hsame, if_false]
            exact .refused s _ rest s.stack

theorem conclude_requires (op : Opcode) (valid : Bool) (p : Provenance) (rest : Stack) (s : State) :
    Requires op (conclude op false valid p rest s) (conclude op true valid p rest s) := by
  cases valid with
  | true => exact .accepted s p rest
  | false => exact .refused s p rest rest

theorem checkSig_requires (ctx : Context) (s : State) :
    Requires Opcode.checkSigVerify (checkSig ctx false s) (checkSig ctx true s) := by
  unfold checkSig
  split
  · split
    · exact .failed _ _
    · exact conclude_requires _ _ _ _ _
  · exact .failed _ s

theorem checkMultiSig_requires (ctx : Context) (s : State) :
    Requires Opcode.checkMultiSigVerify (checkMultiSig ctx false s) (checkMultiSig ctx true s) := by
  unfold checkMultiSig
  split
  · exact .failed _ s
  · dsimp only
    split
    · exact .failed _ _
    · split
      · exact .failed _ _
      · split
        · exact .failed _ _
        · split
          · exact .failed _ _
          · split
            · exact .failed _ _
            · exact conclude_requires _ _ _ _ _

theorem perform_requires (ctx : Context) (s : State) {op fused : Opcode} (h : op.Fuses fused)
    {c d : Chunk} (hc : c.opcode = op) (hd : d.opcode = fused) :
    Requires fused (perform ctx c s) (perform ctx d s) := by
  unfold perform
  rw [hc, hd]
  cases h with
  | equal => exact equal_requires s
  | numEqual => exact numEqual_requires ctx.flags s
  | checkSig => exact checkSig_requires ctx s
  | checkMultiSig => exact checkMultiSig_requires ctx s

/-! ## The test that follows -/

theorem perform_verify (ctx : Context) {v : Chunk} (hv : v.opcode = .verify) (s : State) :
    perform ctx v s = s.withStack (verify .verify s.stack) := by
  rw [perform, hv]
  rfl

/-- With a true item on top, the test takes it off. -/
theorem perform_verify_true (ctx : Context) {v : Chunk} (hv : v.opcode = .verify) (s : State)
    (p : Provenance) (rest : Stack) :
    perform ctx v { s with stack := .ofBool true p :: rest } = .next { s with stack := rest } := by
  rw [perform_verify ctx hv]
  simp only [verify, Item.isTrue_ofBool, if_true]
  rfl

theorem perform_verify_false (ctx : Context) {v : Chunk} (hv : v.opcode = .verify) (s : State)
    (p : Provenance) (rest : Stack) :
    perform ctx v { s with stack := .ofBool false p :: rest } =
      .fail (.verify .verify) { s with stack := .ofBool false p :: rest } := by
  rw [perform_verify ctx hv]
  simp only [verify, Item.isTrue_ofBool, Bool.false_eq_true, if_false]
  rfl

end Machine

open Machine

/-- **A fused test is two steps.** An opcode with a fused form ends no script. The fused form
succeeds if and only if the plain form does and `OP_VERIFY` does after it, and both ways lead to the
same state: the same stacks, the same number of operations, the same questions asked. Where the
plain form fails, the fused form fails for the same reason and in the same state. Where it leaves a
false item on top, the fused form fails with its own name, and but for the stack in the state that
the plain form leaves. -/
theorem fused_verify_is_two_steps (ctx : Context) (s : State) {op fused : Opcode}
    (h : op.Fuses fused) {c d v : Chunk} (hc : c.opcode = op) (hd : d.opcode = fused)
    (hv : v.opcode = .verify) :
    (∀ t, perform ctx c s ≠ .done t ∧ perform ctx d s ≠ .done t) ∧
    (∀ t, perform ctx d s = .next t ↔
      ∃ u, perform ctx c s = .next u ∧ perform ctx v u = .next t) ∧
    (∀ reason t, perform ctx c s = .fail reason t → perform ctx d s = .fail reason t) ∧
    ∀ u x rest, perform ctx c s = .next u → u.stack = x :: rest → x.isTrue = false →
      ∃ stack, perform ctx d s = .fail (.verify fused) { u with stack := stack } := by
  have hrequires := perform_requires ctx s h hc hd
  generalize perform ctx c s = plain at hrequires ⊢
  generalize perform ctx d s = tested at hrequires ⊢
  cases hrequires with
  | failed reason t =>
      refine ⟨fun _ => ⟨nofun, nofun⟩, fun _ => ⟨nofun, ?_⟩, ?_, nofun⟩
      · rintro ⟨u, hu, -⟩
        cases hu
      · rintro _ _ ⟨⟩
        rfl
  | accepted u p rest =>
      refine ⟨fun _ => ⟨nofun, nofun⟩, fun t => ⟨?_, ?_⟩, nofun, ?_⟩
      · intro ht
        exact ⟨_, rfl, (perform_verify_true ctx hv u p rest).trans ht⟩
      · rintro ⟨_, ⟨⟩, ht⟩
        exact (perform_verify_true ctx hv u p rest).symm.trans ht
      · rintro _ x below ⟨⟩ hstack hfalse
        cases hstack
        rw [Item.isTrue_ofBool] at hfalse
        cases hfalse
  | refused u p rest stack =>
      refine ⟨fun _ => ⟨nofun, nofun⟩, fun t => ⟨nofun, ?_⟩, nofun, ?_⟩
      · rintro ⟨_, ⟨⟩, ht⟩
        cases (perform_verify_false ctx hv u p rest).symm.trans ht
      · rintro _ x below ⟨⟩ - -
        exact ⟨stack, rfl⟩

/-- Two strings of different lengths that stand for the number one. -/
theorem fused_verify_of_padded_one :
    perform onePair ⟨.numEqualVerify, none, 0⟩ { stack := [.literal [1], .literal [1, 0]] } =
      .next { stack := [] } := by
  have hequal : perform onePair ⟨.numEqual, none, 0⟩ { stack := [.literal [1], .literal [1, 0]] } =
      .next { stack := [.ofBool true .literal] } := rfl
  have htwoSteps := (fused_verify_is_two_steps onePair
    { stack := [.literal [1], .literal [1, 0]] } .numEqual (c := ⟨.numEqual, none, 0⟩)
    (d := ⟨.numEqualVerify, none, 0⟩) (v := ⟨.verify, none, 0⟩) rfl rfl rfl).2.1
  exact (htwoSteps _).mpr ⟨_, hequal, rfl⟩

end BitcoinScript
