import BitcoinScript.Proofs.Machine.Run

/-!
# What operations leave alone

Most operations work on the two stacks and the open branches, and on nothing else
(`perform_of_local`). The others are the code separator and the checks that ask the checker. These
add their questions; a signature check also takes its operands off and may leave an answer
(`checkSig_ensures`), and one of several signatures counts its keys (`checkMultiSig_ensures`).
-/

namespace BitcoinScript

/-- Every opcode pushes a small number, has no meaning, or stands in the table. -/
theorem Opcode.operation_cases (op : Opcode) :
    (∃ n, op.smallInt? = some n ∧ op.operation = .smallInt n) ∨ op.operation = .bad ∨
      (op.byte, op.operation) ∈ Opcode.operations := by
  unfold Opcode.operation
  split
  · rename_i n hn
    exact Or.inl ⟨n, hn, rfl⟩
  · cases hlookup : Opcode.operations.lookup op.byte with
    | none => exact Or.inr (Or.inl rfl)
    | some found =>
        obtain ⟨before, after, htable, -⟩ := List.lookup_eq_some_iff.mp hlookup
        refine Or.inr (Or.inr ?_)
        rw [htable, Option.getD_some]
        exact List.mem_append_right before List.mem_cons_self

/-- Whether opcodes get an operation from the table only. -/
def Operation.isTabled : Operation → Bool
  | .bad => false
  | .smallInt _ => false
  | _ => true

/-- What the table says of an operation holds of every opcode that has it. -/
theorem Opcode.of_operation {op : Opcode} {o : Operation} {P : Opcode → Prop}
    (h : op.operation = o) (ho : o.isTabled = true)
    (htable : ∀ e ∈ operations, e.2 = o → P ⟨e.1⟩) : P op := by
  subst h
  rcases op.operation_cases with ⟨n, -, hop⟩ | hop | hmem
  · rw [hop] at ho
    cases ho
  · rw [hop] at ho
    cases ho
  · exact htable _ hmem rfl

namespace Machine

/-- Whether an operation works on the stacks and the open branches only: it asks nothing, counts
nothing, and leaves the start of the signed part. -/
def isLocal : Operation → Bool
  | .lockTime => false
  | .codeSeparator => false
  | .checkSig _ => false
  | .checkMultiSig _ => false
  | _ => true

/-- The states that differ from `s` in the stacks and the open branches only. -/
def Local (s t : State) : Prop :=
  ∃ stack altStack branches,
    t = { s with stack := stack, altStack := altStack, branches := branches }

theorem Local.refl (s : State) : Local s s := ⟨s.stack, s.altStack, s.branches, rfl⟩

theorem withStack_local (s : State) (r : Except Reason Stack) : Local s (s.withStack r).state := by
  cases r with
  | error reason => exact .refl s
  | ok stack => exact ⟨stack, s.altStack, s.branches, rfl⟩

theorem upgradableNop_state (flags : Flags) (op : Opcode) (s : State) :
    (upgradableNop flags op s).state = s := by
  unfold upgradableNop
  split <;> rfl

theorem openBranch_local (negated : Bool) (s : State) : Local s (openBranch negated s).state := by
  unfold openBranch
  split
  · split
    · exact .refl s
    · exact ⟨_, _, _, rfl⟩
  · exact ⟨_, _, _, rfl⟩

theorem shift_local (flags : Flags) (d : Direction) (s : State) :
    Local s (shift flags d s).state := by
  unfold shift
  split
  · exact .refl s
  · split
    · exact .refl s
    · split
      · exact .refl s
      · split
        · exact ⟨_, _, _, rfl⟩
        · exact ⟨_, _, _, rfl⟩

theorem perform_of_local (ctx : Context) {c : Chunk} (s : State)
    (h : isLocal c.opcode.operation = true) : Local s (perform ctx c s).state := by
  unfold perform
  cases hop : c.opcode.operation with
  | bad => exact .refl s
  | smallInt n => exact ⟨_, _, _, rfl⟩
  | nop => exact .refl s
  | upgradableNop =>
      rw [upgradableNop_state]
      exact .refl s
  | lockTime => rw [hop] at h; cases h
  | openBranch negated => exact openBranch_local negated s
  | turnBranch =>
      dsimp only [turnBranch]
      split
      · exact .refl s
      · exact ⟨_, _, _, rfl⟩
  | closeBranch =>
      dsimp only [closeBranch]
      split
      · exact .refl s
      · exact ⟨_, _, _, rfl⟩
  | verify => exact withStack_local s _
  | exit =>
      dsimp only [exit]
      split <;> exact .refl s
  | toAlt =>
      dsimp only [toAlt]
      split
      · exact .refl s
      · exact ⟨_, _, _, rfl⟩
  | fromAlt =>
      dsimp only [fromAlt]
      split
      · exact .refl s
      · exact ⟨_, _, _, rfl⟩
  | stack op => exact withStack_local s _
  | dupIfTrue => exact withStack_local s _
  | depth => exact ⟨_, _, _, rfl⟩
  | fetch takeOut => exact withStack_local s _
  | cat => exact withStack_local s _
  | split => exact withStack_local s _
  | numToBin => exact withStack_local s _
  | binToNum => exact withStack_local s _
  | size => exact withStack_local s _
  | invert => exact withStack_local s _
  | bitwise op => exact withStack_local s _
  | equal => exact withStack_local s _
  | equalVerify => exact withStack_local s _
  | shift d => exact shift_local ctx.flags d s
  | unary op => exact withStack_local s _
  | binary op => exact withStack_local s _
  | numEqualVerify => exact withStack_local s _
  | within => exact withStack_local s _
  | hash op => exact withStack_local s _
  | codeSeparator => rw [hop] at h; cases h
  | checkSig required => rw [hop] at h; cases h
  | checkMultiSig required => rw [hop] at h; cases h

theorem withStack_cases (s : State) (r : Except Reason Stack) :
    (∃ t, s.withStack r = .next t) ∨ ∃ reason, s.withStack r = .fail reason s := by
  cases r with
  | ok stack => exact Or.inl ⟨_, rfl⟩
  | error reason => exact Or.inr ⟨reason, rfl⟩

/-- How an operation on the stacks and the branches ends. Shifts aside, it fails in the state as it
is, and only one operation ends the script, once the limits are lifted. -/
theorem perform_local_cases (ctx : Context) {c : Chunk} (s : State)
    (hlocal : isLocal c.opcode.operation = true)
    (hshift : ∀ d, c.opcode.operation ≠ .shift d) :
    (∃ t, perform ctx c s = .next t) ∨ (∃ reason, perform ctx c s = .fail reason s) ∨
      c.opcode.operation = .exit ∧ ctx.flags.genesis = true ∧ perform ctx c s = .done s := by
  unfold perform
  cases hop : c.opcode.operation with
  | lockTime => rw [hop] at hlocal; cases hlocal
  | codeSeparator => rw [hop] at hlocal; cases hlocal
  | checkSig required => rw [hop] at hlocal; cases hlocal
  | checkMultiSig required => rw [hop] at hlocal; cases hlocal
  | shift d => exact absurd hop (hshift d)
  | bad => exact Or.inr (Or.inl ⟨_, rfl⟩)
  | smallInt n => exact Or.inl ⟨_, rfl⟩
  | nop => exact Or.inl ⟨_, rfl⟩
  | depth => exact Or.inl ⟨_, rfl⟩
  | upgradableNop =>
      dsimp only [upgradableNop]
      split
      · exact Or.inr (Or.inl ⟨_, rfl⟩)
      · exact Or.inl ⟨_, rfl⟩
  | openBranch negated =>
      dsimp only [openBranch]
      split
      · split
        · exact Or.inr (Or.inl ⟨_, rfl⟩)
        · exact Or.inl ⟨_, rfl⟩
      · exact Or.inl ⟨_, rfl⟩
  | turnBranch =>
      dsimp only [turnBranch]
      split
      · exact Or.inr (Or.inl ⟨_, rfl⟩)
      · exact Or.inl ⟨_, rfl⟩
  | closeBranch =>
      dsimp only [closeBranch]
      split
      · exact Or.inr (Or.inl ⟨_, rfl⟩)
      · exact Or.inl ⟨_, rfl⟩
  | exit =>
      dsimp only [exit]
      split
      · rename_i hg
        exact Or.inr (Or.inr ⟨rfl, hg, rfl⟩)
      · exact Or.inr (Or.inl ⟨_, rfl⟩)
  | toAlt =>
      dsimp only [toAlt]
      split
      · exact Or.inr (Or.inl ⟨_, rfl⟩)
      · exact Or.inl ⟨_, rfl⟩
  | fromAlt =>
      dsimp only [fromAlt]
      split
      · exact Or.inr (Or.inl ⟨_, rfl⟩)
      · exact Or.inl ⟨_, rfl⟩
  | _ => exact (withStack_cases s _).imp_right Or.inl

/-! ## Checks that ask -/

/-- Two states that differ at most in the questions asked. -/
def Alike (s t : State) : Prop := ∃ calls, t = { s with calls := calls }

theorem Alike.refl (s : State) : Alike s s := ⟨s.calls, rfl⟩

theorem Alike.trans {s t u : State} (hst : Alike s t) (htu : Alike t u) : Alike s u := by
  obtain ⟨calls, rfl⟩ := hst
  obtain ⟨calls', rfl⟩ := htu
  exact ⟨calls', rfl⟩

theorem Alike.record {s t : State} (h : Alike s t) (c d : Call) :
    Alike (s.record c) (t.record d) := by
  obtain ⟨calls, rfl⟩ := h
  exact ⟨_, rfl⟩

theorem lockTime_alike (ctx : Context) (op : Opcode) (s : State) :
    Alike s (lockTime ctx op s).state := by
  unfold lockTime
  split
  · rw [upgradableNop_state]
    exact .refl s
  · split
    · exact .refl s
    · split
      · exact .refl s
      · split
        · exact .refl s
        · dsimp only
          split
          · exact ⟨_, rfl⟩
          · exact ⟨_, rfl⟩

theorem lockTime_ne_done (ctx : Context) (op : Opcode) (s t : State) :
    lockTime ctx op s ≠ .done t := by
  unfold lockTime
  split
  · unfold upgradableNop
    split <;> exact Outcome.noConfusion
  · split
    · exact Outcome.noConfusion
    · split
      · exact Outcome.noConfusion
      · split
        · exact Outcome.noConfusion
        · dsimp only
          split <;> exact Outcome.noConfusion

theorem checkPair_alike {ctx : Context} {code : Bytes} {sig key : Item} {s t : State}
    {r : Except Reason Bool} (h : checkPair ctx code sig key s = (r, t)) : Alike s t := by
  unfold checkPair at h
  split at h
  · cases h
    exact .refl s
  · split at h
    · cases h
      exact .refl s
    · split at h
      · cases h
        exact .refl s
      · dsimp only at h
        split at h
        · cases h
          exact ⟨_, rfl⟩
        · cases h
          exact ⟨_, rfl⟩

theorem matchKeys_alike {ctx : Context} {code : Bytes} {sigs keys : List Item} {s t : State}
    {r : Except Reason Bool} (h : matchKeys ctx code sigs keys s = (r, t)) : Alike s t := by
  induction keys generalizing sigs s with
  | nil =>
      cases sigs with
      | nil => cases h; exact .refl t
      | cons sig sigs => cases h; exact .refl t
  | cons key keys ih =>
      cases sigs with
      | nil => cases h; exact .refl t
      | cons sig sigs =>
          simp only [matchKeys] at h
          split at h
          · rename_i e asked hpair
            cases h
            exact checkPair_alike hpair
          · rename_i valid asked hpair
            have hfirst := checkPair_alike hpair
            generalize (if valid = true then sigs else sig :: sigs) = left at h
            split at h
            · cases h
              exact hfirst
            · exact hfirst.trans (ih h)

theorem conclude_state (op : Opcode) (required valid : Bool) (p : Provenance) (rest : Stack)
    (s : State) :
    ∃ stack, (conclude op required valid p rest s).state = { s with stack := stack } := by
  unfold conclude
  split
  · split
    · exact ⟨_, rfl⟩
    · exact ⟨_, rfl⟩
  · exact ⟨_, rfl⟩

theorem checkSig_state (ctx : Context) (required : Bool) (s : State) :
    ∃ stack calls, (checkSig ctx required s).state = { s with stack := stack, calls := calls } := by
  unfold checkSig
  split
  · rename_i key sig rest hstack
    split
    · rename_i e asked hpair
      obtain ⟨calls, rfl⟩ := checkPair_alike hpair
      exact ⟨_, _, rfl⟩
    · rename_i valid asked hpair
      obtain ⟨calls, rfl⟩ := checkPair_alike hpair
      obtain ⟨stack, hstate⟩ := conclude_state Opcode.checkSigVerify required valid
        (sig.provenance.union key.provenance) rest { s with calls := calls }
      exact ⟨_, _, hstate⟩
  · exact ⟨_, _, rfl⟩

theorem checkMultiSig_state (ctx : Context) (required : Bool) (s : State) :
    ∃ stack calls n, (checkMultiSig ctx required s).state =
      { s with stack := stack, calls := calls, opCount := s.opCount + n } := by
  unfold checkMultiSig
  split
  · exact ⟨_, _, 0, rfl⟩
  · dsimp only
    split
    · exact ⟨_, _, _, rfl⟩
    · split
      · exact ⟨_, _, _, rfl⟩
      · split
        · exact ⟨_, _, _, rfl⟩
        · split
          · rename_i e asked hmatch
            obtain ⟨calls, rfl⟩ := matchKeys_alike hmatch
            exact ⟨_, _, _, rfl⟩
          · rename_i valid asked hmatch
            obtain ⟨calls, rfl⟩ := matchKeys_alike hmatch
            split
            · exact ⟨_, _, _, rfl⟩
            · obtain ⟨stack, hstate⟩ :=
                conclude_state Opcode.checkMultiSigVerify required valid _ _ _
              exact ⟨_, _, _, hstate⟩

/-- No operation takes back what has been counted. -/
theorem opCount_le_perform (ctx : Context) (c : Chunk) (s : State) :
    s.opCount ≤ (perform ctx c s).state.opCount := by
  cases hlocal : isLocal c.opcode.operation with
  | true =>
      obtain ⟨stack, altStack, branches, hstate⟩ := perform_of_local ctx s hlocal
      exact Nat.le_of_eq (by rw [hstate])
  | false =>
      unfold perform
      cases hop : c.opcode.operation with
      | lockTime =>
          obtain ⟨calls, hstate⟩ := lockTime_alike ctx c.opcode s
          exact Nat.le_of_eq (by dsimp only; rw [hstate])
      | codeSeparator => exact Nat.le_refl _
      | checkSig required =>
          obtain ⟨stack, calls, hstate⟩ := checkSig_state ctx required s
          exact Nat.le_of_eq (by dsimp only; rw [hstate])
      | checkMultiSig required =>
          obtain ⟨stack, calls, n, hstate⟩ := checkMultiSig_state ctx required s
          dsimp only
          rw [hstate]
          exact Nat.le_add_right _ _
      | _ => rw [hop] at hlocal; cases hlocal

/-- What the signature checks leave on the stack: the items below their operands, and the answer
above them unless it is required. -/
def Answered (rest stack : Stack) : Prop :=
  stack = rest ∨ ∃ valid p, stack = .ofBool valid p :: rest

theorem conclude_ensures {op : Opcode} {required valid : Bool} {p : Provenance} {rest : Stack}
    {s : State} {P : State → Prop}
    (h : ∀ stack, Answered rest stack → P { s with stack := stack }) :
    (conclude op required valid p rest s).Ensures P := by
  unfold conclude
  split
  · split
    · exact h rest (Or.inl rfl)
    · trivial
  · exact h _ (Or.inr ⟨valid, p, rfl⟩)

theorem checkSig_ensures {ctx : Context} {required : Bool} {s : State} {P : State → Prop}
    (h : ∀ key sig rest stack calls, s.stack = key :: sig :: rest → Answered rest stack →
      P { s with stack := stack, calls := calls }) : (checkSig ctx required s).Ensures P := by
  unfold checkSig
  split
  · rename_i key sig rest hstack
    split
    · trivial
    · rename_i valid asked hpair
      obtain ⟨calls, rfl⟩ := checkPair_alike hpair
      exact conclude_ensures fun stack hanswer => h key sig rest stack calls hstack hanswer
  · trivial

theorem countAt_eq_ok {flags : Flags} {i bound n : Nat} {e : MultiSigError} {s : Stack}
    (h : countAt flags i bound e s = .ok n) :
    ∃ x, s[i]? = some x ∧ number flags x = .ok (n : Int) ∧ n ≤ bound := by
  unfold countAt at h
  split at h
  · cases h
  · rename_i x hx
    split at h
    · cases h
    · rename_i m hm
      split at h
      · rename_i hrange
        cases h
        refine ⟨x, hx, ?_, by omega⟩
        rw [hm, Int.toNat_of_nonneg hrange.1]
      · cases h

theorem checkMultiSig_ensures {ctx : Context} {required : Bool} {s : State} {P : State → Prop}
    (h : ∀ keyCount operands stack calls, keyCount ≤ ctx.limits.multiSigKeys →
      s.opCount + keyCount ≤ ctx.limits.operations → Answered (s.stack.drop operands) stack →
        P { s with stack := stack, opCount := s.opCount + keyCount, calls := calls }) :
    (checkMultiSig ctx required s).Ensures P := by
  unfold checkMultiSig
  split
  · trivial
  · rename_i keyCount hkeys
    obtain ⟨-, -, -, hfew⟩ := countAt_eq_ok hkeys
    dsimp only
    split
    · trivial
    · rename_i hcount
      split
      · trivial
      · rename_i sigCount hsigs
        split
        · trivial
        · split
          · trivial
          · rename_i valid asked hmatch
            obtain ⟨calls, rfl⟩ := matchKeys_alike hmatch
            split
            · trivial
            · exact conclude_ensures fun stack hanswer =>
                h keyCount _ stack calls hfew (Nat.not_lt.mp hcount) hanswer

end Machine

end BitcoinScript
