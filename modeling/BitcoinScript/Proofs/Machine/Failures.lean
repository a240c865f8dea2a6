import BitcoinScript.Proofs.Machine.Calls

/-!
# What is left after a failure

An operation that fails has looked at its operands and has not touched them, with two exceptions. A
shift takes its count off before it looks for the item to shift, so on a count alone it leaves the
empty stack. The signature checks that require their answer fail when their operands are off the
stack. The alternative stack, the open branches and the start of the signed part never change, and
more operations are counted by the checks of several signatures only (`failure_keeps_state`).
-/

namespace BitcoinScript

namespace Opcode

/-- Shifts bits to the left. -/
def leftShift : Opcode := ⟨0x98⟩

/-- Shifts bits to the right. -/
def rightShift : Opcode := ⟨0x99⟩

/-- Multiple signature check. -/
def checkMultiSig : Opcode := ⟨0xae⟩

theorem eq_of_operation_shift {op : Opcode} {d : Direction} (h : op.operation = .shift d) :
    op = leftShift ∨ op = rightShift := by
  refine of_operation (P := fun op => op = leftShift ∨ op = rightShift) h rfl ?_
  cases d <;> decide

theorem eq_of_operation_checkSig {op : Opcode} (h : op.operation = .checkSig true) :
    op = checkSigVerify := by
  refine of_operation (P := fun op => op = checkSigVerify) h rfl ?_
  decide

theorem eq_of_operation_checkMultiSig {op : Opcode} {required : Bool}
    (h : op.operation = .checkMultiSig required) :
    op = if required then checkMultiSigVerify else checkMultiSig := by
  refine of_operation
    (P := fun op => op = if required then checkMultiSigVerify else checkMultiSig) h rfl ?_
  cases required <;> decide

end Opcode

namespace Machine

/-! ## Operations on the stacks and branches -/

/-- A shift fails on a count alone, or in the state as it is. -/
theorem shift_fail {flags : Flags} {d : Direction} {s t : State} {reason : Reason}
    (h : shift flags d s = .fail reason t) :
    (∃ count n, s.stack = [count] ∧ number flags count = .ok n ∧ 0 ≤ n ∧
        reason = .invalidStackOperation ∧ t = { s with stack := [] }) ∨
      t = s ∧ ∀ count n, s.stack = [count] → number flags count = .ok n → n < 0 := by
  unfold shift at h
  split at h
  · rename_i hstack
    cases h
    refine Or.inr ⟨rfl, ?_⟩
    intro count n hcount
    rw [hstack] at hcount
    cases hcount
  · rename_i count rest hstack
    split at h
    · rename_i e he
      cases h
      refine Or.inr ⟨rfl, ?_⟩
      intro x n hx hn
      rw [hstack] at hx
      cases hx
      rw [he] at hn
      cases hn
    · rename_i n hn
      split at h
      · rename_i hneg
        cases h
        refine Or.inr ⟨rfl, ?_⟩
        intro x m hx hm
        rw [hstack] at hx
        cases hx
        rw [hn] at hm
        cases hm
        exact hneg
      · rename_i hnonneg
        split at h
        · cases h
          exact Or.inl ⟨count, n, hstack, hn, Int.not_lt.mp hnonneg, rfl, rfl⟩
        · cases h

/-- Except for shifts, operations on the stacks and the branches check before they change. -/
theorem eq_of_local_fail {ctx : Context} {c : Chunk} {s t : State} {reason : Reason}
    (hlocal : isLocal c.opcode.operation = true) (hshift : ∀ d, c.opcode.operation ≠ .shift d)
    (h : perform ctx c s = .fail reason t) : t = s := by
  rcases perform_local_cases ctx s hlocal hshift with ⟨u, hnext⟩ | ⟨e, hfail⟩ | ⟨-, -, hdone⟩
  · rw [h] at hnext
    cases hnext
  · rw [h] at hfail
    cases hfail
    rfl
  · rw [h] at hdone
    cases hdone

/-! ## Signature checks -/

theorem checkPair_error {ctx : Context} {code : Bytes} {sig key : Item} {s t : State} {e : Reason}
    (h : checkPair ctx code sig key s = (.error e, t)) (op : Opcode) : e ≠ .verify op := by
  unfold checkPair at h
  split at h
  · cases h
    exact Reason.noConfusion
  · split at h
    · cases h
      exact Reason.noConfusion
    · split at h
      · cases h
      · dsimp only at h
        split at h
        · cases h
          exact Reason.noConfusion
        · cases h

theorem matchKeys_error {ctx : Context} {code : Bytes} {sigs keys : List Item} {s t : State}
    {e : Reason} (h : matchKeys ctx code sigs keys s = (.error e, t)) (op : Opcode) :
    e ≠ .verify op := by
  induction keys generalizing sigs s with
  | nil => cases sigs <;> cases h
  | cons key keys ih =>
      cases sigs with
      | nil => cases h
      | cons sig sigs =>
          simp only [matchKeys] at h
          split at h
          · rename_i e' asked hpair
            cases h
            exact checkPair_error hpair op
          · rename_i valid asked hpair
            generalize (if valid = true then sigs else sig :: sigs) = left at h
            split at h
            · cases h
            · exact ih h

theorem countAt_error {flags : Flags} {i bound : Nat} {cause : MultiSigError} {s : Stack}
    {e : Reason} (h : countAt flags i bound cause s = .error e) (op : Opcode) :
    e ≠ .verify op := by
  unfold countAt number at h
  split at h
  · cases h
    exact Reason.noConfusion
  · split at h
    · rename_i e' he
      split at he
      · cases he
      · cases he
        cases h
        exact Reason.noConfusion
    · split at h
      · cases h
      · cases h
        exact Reason.noConfusion

theorem conclude_fail {op : Opcode} {required valid : Bool} {p : Provenance} {rest : Stack}
    {s t : State} {reason : Reason} (h : conclude op required valid p rest s = .fail reason t) :
    required = true ∧ reason = .verify op ∧ t = { s with stack := rest } := by
  unfold conclude at h
  split at h
  · rename_i hrequired
    split at h
    · cases h
    · cases h
      exact ⟨hrequired, rfl, rfl⟩
  · cases h

/-- A signature check fails before its operands are taken off, unless its answer is required. -/
theorem checkSig_fail {ctx : Context} {required : Bool} {s t : State} {reason : Reason}
    (h : checkSig ctx required s = .fail reason t) :
    (required = true ∧ reason = .verify .checkSigVerify ∧
        ∃ key sig rest calls, s.stack = key :: sig :: rest ∧
          t = { s with stack := rest, calls := calls }) ∨
      Alike s t ∧ ∀ op, reason ≠ .verify op := by
  unfold checkSig at h
  split at h
  · rename_i key sig rest hstack
    split at h
    · rename_i e asked hpair
      cases h
      exact Or.inr ⟨checkPair_alike hpair, checkPair_error hpair⟩
    · rename_i valid asked hpair
      obtain ⟨hrequired, hreason, rfl⟩ := conclude_fail h
      obtain ⟨calls, rfl⟩ := checkPair_alike hpair
      exact Or.inl ⟨hrequired, hreason, key, sig, rest, calls, hstack, rfl⟩
  · cases h
    exact Or.inr ⟨.refl s, fun _ => Reason.noConfusion⟩

theorem checkMultiSig_fail {ctx : Context} {required : Bool} {s t : State} {reason : Reason}
    (h : checkMultiSig ctx required s = .fail reason t) :
    (required = true ∧ reason = .verify .checkMultiSigVerify ∧
        ∃ n keys m sigs dummy rest calls,
          number ctx.flags n = .ok (keys.length : Nat) ∧
          number ctx.flags m = .ok (sigs.length : Nat) ∧
          s.stack = n :: keys ++ m :: sigs ++ dummy :: rest ∧
          t = { s with stack := rest, opCount := s.opCount + keys.length, calls := calls }) ∨
      (∃ k calls, t = { s with opCount := s.opCount + k, calls := calls }) ∧
        ∀ op, reason ≠ .verify op := by
  unfold checkMultiSig at h
  split at h
  · rename_i e he
    cases h
    exact Or.inr ⟨⟨0, _, rfl⟩, countAt_error he⟩
  · rename_i keyCount hkeys
    dsimp only at h
    split at h
    · cases h
      exact Or.inr ⟨⟨_, _, rfl⟩, fun _ => Reason.noConfusion⟩
    · split at h
      · rename_i e he
        cases h
        exact Or.inr ⟨⟨_, _, rfl⟩, countAt_error he⟩
      · rename_i sigCount hsigs
        split at h
        · cases h
          exact Or.inr ⟨⟨_, _, rfl⟩, fun _ => Reason.noConfusion⟩
        · rename_i dummy hdummy
          split at h
          · rename_i e asked hmatch
            cases h
            obtain ⟨calls, rfl⟩ := matchKeys_alike hmatch
            exact Or.inr ⟨⟨_, _, rfl⟩, matchKeys_error hmatch⟩
          · rename_i valid asked hmatch
            obtain ⟨calls, rfl⟩ := matchKeys_alike hmatch
            split at h
            · cases h
              exact Or.inr ⟨⟨_, _, rfl⟩, fun _ => Reason.noConfusion⟩
            · obtain ⟨hrequired, hreason, rfl⟩ := conclude_fail h
              obtain ⟨n, keys, m, sigs, hn, hm, rfl, rfl, -, hstack⟩ :=
                operands_of_countAt hkeys hsigs hdummy
              exact Or.inl ⟨hrequired, hreason, n, keys, m, sigs, dummy, _, calls, hn, hm, hstack,
                rfl⟩

/-! ## All operations -/

/-- The failures for which the stack is not as it was: those of a shift on a number alone, and those
of the required answers. -/
def IsExempt (flags : Flags) (op : Opcode) (reason : Reason) (stack : Stack) : Prop :=
  ((op = .leftShift ∨ op = .rightShift) ∧
      ∃ count n, stack = [count] ∧ number flags count = .ok n ∧ 0 ≤ n) ∨
    (op = .checkSigVerify ∨ op = .checkMultiSigVerify) ∧ ∃ verified, reason = .verify verified

/-- The operands that these failures have taken off, from the stack before to the stack after. -/
inductive Dropped (flags : Flags) : Opcode → Reason → Stack → Stack → Prop
  | shift {op : Opcode} {count : Item} {n : Int} (hop : op = .leftShift ∨ op = .rightShift)
      (hcount : number flags count = .ok n) (hnonneg : 0 ≤ n) :
      Dropped flags op .invalidStackOperation [count] []
  | single (key sig : Item) (rest : Stack) :
      Dropped flags .checkSigVerify (.verify .checkSigVerify) (key :: sig :: rest) rest
  | multiple {keyCount sigCount : Item} {keys sigs : List Item} (dummy : Item) (rest : Stack)
      (hkeys : number flags keyCount = .ok (keys.length : Nat))
      (hsigs : number flags sigCount = .ok (sigs.length : Nat)) :
      Dropped flags .checkMultiSigVerify (.verify .checkMultiSigVerify)
        (keyCount :: keys ++ sigCount :: sigs ++ dummy :: rest) rest

/-- How a failure may leave the state: the questions asked aside, the count has grown only if several
signatures are checked, and the stack has changed only by the operands of an exempt failure. -/
def FailsInto (flags : Flags) (op : Opcode) (reason : Reason) (s t : State) : Prop :=
  ∃ stack k calls, t = { s with stack := stack, opCount := s.opCount + k, calls := calls } ∧
    (k ≠ 0 → op = .checkMultiSig ∨ op = .checkMultiSigVerify) ∧
    (IsExempt flags op reason s.stack → Dropped flags op reason s.stack stack) ∧
    (¬ IsExempt flags op reason s.stack → stack = s.stack)

section Exempt

variable {flags : Flags} {op : Opcode} {reason : Reason} {s t : State}

theorem FailsInto.dropped {stack : Stack} {calls : List Call}
    (hexempt : IsExempt flags op reason s.stack)
    (hdropped : Dropped flags op reason s.stack stack) :
    FailsInto flags op reason s { s with stack := stack, calls := calls } :=
  ⟨stack, 0, calls, rfl, fun hne => absurd rfl hne, fun _ => hdropped,
    fun hno => absurd hexempt hno⟩

theorem FailsInto.kept (h : Alike s t) (hno : ¬ IsExempt flags op reason s.stack) :
    FailsInto flags op reason s t := by
  obtain ⟨calls, rfl⟩ := h
  exact ⟨s.stack, 0, calls, rfl, fun hne => absurd rfl hne, fun hexempt => absurd hexempt hno,
    fun _ => rfl⟩

variable {stack : Stack}

/-- The operations behind the exemptions. -/
theorem IsExempt.operation (h : IsExempt flags op reason stack) :
    (∃ d, op.operation = .shift d ∧
        ∃ count n, stack = [count] ∧ number flags count = .ok n ∧ 0 ≤ n) ∨
      (op.operation = .checkSig true ∨ op.operation = .checkMultiSig true) ∧
        ∃ verified, reason = .verify verified := by
  rcases h with ⟨rfl | rfl, hcount⟩ | ⟨rfl | rfl, hverify⟩
  · exact Or.inl ⟨.left, rfl, hcount⟩
  · exact Or.inl ⟨.right, rfl, hcount⟩
  · exact Or.inr ⟨Or.inl rfl, hverify⟩
  · exact Or.inr ⟨Or.inr rfl, hverify⟩

theorem not_isExempt_of_shift {d : Direction} (hop : op.operation = .shift d)
    (hno : ∀ count n, stack = [count] → number flags count = .ok n → n < 0) :
    ¬ IsExempt flags op reason stack := by
  intro hexempt
  rcases hexempt.operation with ⟨-, -, count, n, hstack, hn, hnonneg⟩ | ⟨hcheck | hcheck, -⟩
  · have hneg := hno count n hstack hn
    omega
  · rw [hop] at hcheck
    cases hcheck
  · rw [hop] at hcheck
    cases hcheck

theorem not_isExempt_of_not_verify (hshift : ∀ d, op.operation ≠ .shift d)
    (hno : ∀ verified, reason ≠ .verify verified) : ¬ IsExempt flags op reason stack := by
  intro hexempt
  rcases hexempt.operation with ⟨d, hop, -⟩ | ⟨-, verified, hverify⟩
  · exact hshift d hop
  · exact hno verified hverify

theorem not_isExempt_of_not_check (hshift : ∀ d, op.operation ≠ .shift d)
    (hsingle : op.operation ≠ .checkSig true) (hmultiple : op.operation ≠ .checkMultiSig true) :
    ¬ IsExempt flags op reason stack := by
  intro hexempt
  rcases hexempt.operation with ⟨d, hop, -⟩ | ⟨hcheck | hcheck, -⟩
  · exact hshift d hop
  · exact hsingle hcheck
  · exact hmultiple hcheck

end Exempt

section Operations

variable {ctx : Context} {op : Opcode} {reason : Reason} {s t : State}

theorem failsInto_of_shift {d : Direction} (hop : op.operation = .shift d)
    (h : shift ctx.flags d s = .fail reason t) : FailsInto ctx.flags op reason s t := by
  rcases shift_fail h with ⟨count, n, hstack, hn, hnonneg, rfl, rfl⟩ | ⟨rfl, hno⟩
  · have hopcode := Opcode.eq_of_operation_shift hop
    refine .dropped (Or.inl ⟨hopcode, count, n, hstack, hn, hnonneg⟩) ?_
    rw [hstack]
    exact .shift hopcode hn hnonneg
  · exact .kept (.refl t) (not_isExempt_of_shift hop hno)

theorem failsInto_of_lockTime (hop : op.operation = .lockTime)
    (h : lockTime ctx op s = .fail reason t) : FailsInto ctx.flags op reason s t := by
  have halike := lockTime_alike ctx op s
  rw [h, Outcome.state_fail] at halike
  refine .kept halike (not_isExempt_of_not_check ?_ ?_ ?_)
  · intro d
    rw [hop]
    exact Operation.noConfusion
  · rw [hop]
    exact Operation.noConfusion
  · rw [hop]
    exact Operation.noConfusion

theorem failsInto_of_checkSig {required : Bool} (hop : op.operation = .checkSig required)
    (h : checkSig ctx required s = .fail reason t) : FailsInto ctx.flags op reason s t := by
  rcases checkSig_fail h with ⟨rfl, rfl, key, sig, rest, calls, hstack, rfl⟩ | ⟨halike, hno⟩
  · rw [Opcode.eq_of_operation_checkSig hop]
    refine .dropped (Or.inr ⟨Or.inl rfl, _, rfl⟩) ?_
    rw [hstack]
    exact .single key sig rest
  · refine .kept halike (not_isExempt_of_not_verify ?_ hno)
    intro d
    rw [hop]
    exact Operation.noConfusion

theorem failsInto_of_checkMultiSig {required : Bool}
    (hop : op.operation = .checkMultiSig required)
    (h : checkMultiSig ctx required s = .fail reason t) : FailsInto ctx.flags op reason s t := by
  have hopcode := Opcode.eq_of_operation_checkMultiSig hop
  rcases checkMultiSig_fail h with
    ⟨rfl, rfl, n, keys, m, sigs, dummy, rest, calls, hn, hm, hstack, rfl⟩ | ⟨⟨k, calls, rfl⟩, hno⟩
  · rw [if_pos rfl] at hopcode
    subst hopcode
    refine ⟨rest, keys.length, calls, rfl, fun _ => Or.inr rfl, ?_, ?_⟩
    · intro _
      rw [hstack]
      exact .multiple dummy rest hn hm
    · intro hkept
      exact absurd (Or.inr ⟨Or.inr rfl, _, rfl⟩) hkept
  · have hexempt : ¬ IsExempt ctx.flags op reason s.stack := by
      refine not_isExempt_of_not_verify ?_ hno
      intro d
      rw [hop]
      exact Operation.noConfusion
    refine ⟨s.stack, k, calls, rfl, ?_, fun hdrop => absurd hdrop hexempt, fun _ => rfl⟩
    intro _
    rw [hopcode]
    cases required with
    | true => exact Or.inr rfl
    | false => exact Or.inl rfl

end Operations

theorem perform_fail {ctx : Context} {c : Chunk} {s t : State} {reason : Reason}
    (h : perform ctx c s = .fail reason t) : FailsInto ctx.flags c.opcode reason s t := by
  by_cases hshift : ∃ d, c.opcode.operation = .shift d
  · obtain ⟨d, hop⟩ := hshift
    rw [perform, hop] at h
    exact failsInto_of_shift hop h
  have hno : ∀ d, c.opcode.operation ≠ .shift d := fun d hd => hshift ⟨d, hd⟩
  cases hlocal : isLocal c.opcode.operation with
  | true =>
      obtain rfl := eq_of_local_fail hlocal hno h
      refine .kept (.refl t) (not_isExempt_of_not_check hno ?_ ?_)
      · intro hop
        rw [hop] at hlocal
        cases hlocal
      · intro hop
        rw [hop] at hlocal
        cases hlocal
  | false =>
      unfold perform at h
      cases hop : c.opcode.operation with
      | lockTime =>
          rw [hop] at h
          exact failsInto_of_lockTime hop h
      | codeSeparator => rw [hop] at h; cases h
      | checkSig required =>
          rw [hop] at h
          exact failsInto_of_checkSig hop h
      | checkMultiSig required =>
          rw [hop] at h
          exact failsInto_of_checkMultiSig hop h
      | _ => rw [hop] at hlocal; cases hlocal

end Machine

open Machine

/-- **Failures leave the machine as it was.** An operation that fails keeps the alternative stack,
the open branches and the start of the signed part, and counts more operations only if it checks
several signatures. It keeps the stack as well, except for a shift on a number alone and for a
required answer; these have dropped just their operands. -/
theorem failure_keeps_state {ctx : Context} {c : Chunk} {s t : State} {reason : Reason}
    (h : perform ctx c s = .fail reason t) :
    t.altStack = s.altStack ∧ t.branches = s.branches ∧ t.codeStart = s.codeStart ∧
      s.opCount ≤ t.opCount ∧
      (t.opCount ≠ s.opCount → c.opcode = .checkMultiSig ∨ c.opcode = .checkMultiSigVerify) ∧
      (IsExempt ctx.flags c.opcode reason s.stack →
        Dropped ctx.flags c.opcode reason s.stack t.stack) ∧
      (¬ IsExempt ctx.flags c.opcode reason s.stack → t.stack = s.stack) := by
  obtain ⟨stack, k, calls, rfl, hcount, hdropped, hkept⟩ := perform_fail h
  refine ⟨rfl, rfl, rfl, Nat.le_add_right _ _, ?_, hdropped, hkept⟩
  intro hne
  apply hcount
  rintro rfl
  exact hne rfl

/-- A shift on the number zero alone leaves nothing, and a required check of an empty signature
leaves what lies below it and its key. -/
theorem failure_drops_operands :
    (perform ⟨{}, .absent, []⟩ ⟨.leftShift, none, 0⟩ { stack := [.literal []] } =
        .fail .invalidStackOperation { stack := [] } ∧
      Dropped {} .leftShift .invalidStackOperation [.literal []] []) ∧
    perform ⟨{}, .absent, []⟩ ⟨.checkSigVerify, none, 0⟩
        { stack := [.literal [0x02], .literal [], .literal [0x07]] } =
        .fail (.verify .checkSigVerify) { stack := [.literal [0x07]] } ∧
      Dropped {} .checkSigVerify (.verify .checkSigVerify)
        [.literal [0x02], .literal [], .literal [0x07]] [.literal [0x07]] := by
  have hzero : number {} (.literal []) = .ok 0 := rfl
  have hshift : perform ⟨{}, .absent, []⟩ ⟨.leftShift, none, 0⟩ { stack := [.literal []] } =
      .fail .invalidStackOperation { stack := [] } := rfl
  have hcheck : perform ⟨{}, .absent, []⟩ ⟨.checkSigVerify, none, 0⟩
      { stack := [.literal [0x02], .literal [], .literal [0x07]] } =
      .fail (.verify .checkSigVerify) { stack := [.literal [0x07]] } := rfl
  refine ⟨⟨hshift, ?_⟩, hcheck, ?_⟩
  · obtain ⟨-, -, -, -, -, hdropped, -⟩ := failure_keeps_state hshift
    exact hdropped (Or.inl ⟨Or.inl rfl, _, 0, rfl, hzero, by decide⟩)
  · obtain ⟨-, -, -, -, -, hdropped, -⟩ := failure_keeps_state hcheck
    exact hdropped (Or.inr ⟨Or.inl rfl, _, rfl⟩)

end BitcoinScript
