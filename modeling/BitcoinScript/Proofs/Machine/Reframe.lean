import BitcoinScript.Proofs.Machine.Lockstep

/-!
# States inside other branches

The open branches decide whether an operation is performed. What an operation then does depends on
them only if it opens, turns or closes a branch: every other one does the same inside other branches
and with more operations counted, unless the higher count makes it fail (`perform_reframe`).
-/

namespace BitcoinScript

namespace Machine

/-- The operations that open, turn or close a branch. -/
def isBranching : Operation → Bool
  | .openBranch _ => true
  | .turnBranch => true
  | .closeBranch => true
  | _ => false

/-- The state inside other branches and with `extra` operations more. -/
def State.reframe (branches : List Bool) (extra : Nat) (s : State) : State :=
  { s with branches := branches, opCount := s.opCount + extra }

namespace State

variable (branches : List Bool) (extra : Nat) (s : State)

@[simp] theorem reframe_stack : (s.reframe branches extra).stack = s.stack := rfl

@[simp] theorem reframe_altStack : (s.reframe branches extra).altStack = s.altStack := rfl

@[simp] theorem reframe_branches : (s.reframe branches extra).branches = branches := rfl

@[simp] theorem reframe_opCount : (s.reframe branches extra).opCount = s.opCount + extra := rfl

theorem reframe_self : s.reframe s.branches 0 = s := rfl

theorem reframe_reframe (b : List Bool) (n : Nat) :
    (s.reframe branches extra).reframe b n = s.reframe b (extra + n) := by
  simp only [reframe, Nat.add_assoc]

end State

/-- The outcome with its state changed. -/
def Outcome.map (f : State → State) : Outcome → Outcome
  | .next s => .next (f s)
  | .done s => .done (f s)
  | .fail reason s => .fail reason (f s)

theorem Outcome.exists_of_map_eq_next {f : State → State} {o : Outcome} {t : State}
    (h : o.map f = .next t) : ∃ u, o = .next u ∧ t = f u := by
  cases o with
  | next u =>
      cases h
      exact ⟨u, rfl, rfl⟩
  | done u => cases h
  | fail reason u => cases h

section Operations

variable (branches : List Bool) (extra : Nat)

theorem withStack_reframe (s : State) (r : Except Reason Stack) :
    (s.reframe branches extra).withStack r =
      (s.withStack r).map (State.reframe branches extra) := by
  cases r with
  | ok stack => rfl
  | error reason => rfl

theorem upgradableNop_reframe (flags : Flags) (op : Opcode) (s : State) :
    upgradableNop flags op (s.reframe branches extra) =
      (upgradableNop flags op s).map (State.reframe branches extra) := by
  unfold upgradableNop
  split <;> rfl

theorem lockTime_reframe (ctx : Context) (op : Opcode) (s : State) :
    lockTime ctx op (s.reframe branches extra) =
      (lockTime ctx op s).map (State.reframe branches extra) := by
  unfold lockTime
  rw [State.reframe_stack]
  split
  · exact upgradableNop_reframe branches extra ctx.flags op s
  · split
    · rfl
    · split
      · rfl
      · split
        · rfl
        · dsimp only
          split <;> rfl

theorem shift_reframe (flags : Flags) (d : Direction) (s : State) :
    shift flags d (s.reframe branches extra) =
      (shift flags d s).map (State.reframe branches extra) := by
  unfold shift
  rw [State.reframe_stack]
  split
  · rfl
  · split
    · rfl
    · split
      · rfl
      · split <;> rfl

theorem record_reframe (s t : State) (call : Call) (h : t = s.reframe branches extra) :
    t.record call = (s.record call).reframe branches extra := by
  rw [h]
  rfl

theorem checkPair_reframe (ctx : Context) (code : Bytes) (sig key : Item) (s : State) :
    checkPair ctx code sig key (s.reframe branches extra) =
      (checkPair ctx code sig key s).map id (State.reframe branches extra) := by
  obtain ⟨answer, u, v, hs, ht, rfl⟩ := checkPair_matches ctx code
    (record_reframe branches extra) (Eq.refl sig.bytes) (Eq.refl key.bytes)
    (Eq.refl (s.reframe branches extra))
  rw [hs, ht]
  rfl

theorem matchKeys_reframe (ctx : Context) (code : Bytes) (sigs keys : List Item) (s : State) :
    matchKeys ctx code sigs keys (s.reframe branches extra) =
      (matchKeys ctx code sigs keys s).map id (State.reframe branches extra) := by
  obtain ⟨answer, u, v, hs, ht, rfl⟩ := matchKeys_matches ctx code
    (record_reframe branches extra) (List.forall₂_refl sigs) (List.forall₂_refl keys)
    (Eq.refl (s.reframe branches extra))
  rw [hs, ht]
  rfl

theorem conclude_reframe (op : Opcode) (required valid : Bool) (p : Provenance) (rest : Stack)
    (s : State) :
    conclude op required valid p rest (s.reframe branches extra) =
      (conclude op required valid p rest s).map (State.reframe branches extra) := by
  unfold conclude
  split
  · split <;> rfl
  · rfl

theorem checkSig_reframe (ctx : Context) (required : Bool) (s : State) :
    checkSig ctx required (s.reframe branches extra) =
      (checkSig ctx required s).map (State.reframe branches extra) := by
  unfold checkSig
  rw [State.reframe_stack]
  split
  · rename_i key sig rest hstack
    have hcode : scriptCode ctx (s.reframe branches extra) = scriptCode ctx s := rfl
    rw [hcode, checkPair_reframe]
    obtain ⟨answer, asked⟩ :=
      checkPair ctx (withoutSignatures (scriptCode ctx s) [sig]) sig key s
    cases answer with
    | error reason => rfl
    | ok valid => exact conclude_reframe branches extra _ required valid _ rest asked
  · rfl

/-- A check of several signatures whose keys have been counted. -/
def checkCounted (ctx : Context) (required : Bool) (keyCount : Nat) (s : State) : Outcome :=
  if s.opCount > ctx.limits.operations then .fail .opCount s
  else
    match countAt ctx.flags (keyCount + 1) keyCount .signatureCount s.stack with
    | .error e => .fail e s
    | .ok sigCount =>
        match s.stack[keyCount + sigCount + 2]? with
        | none => .fail .invalidStackOperation s
        | some dummy =>
            let keys := (s.stack.drop 1).take keyCount
            let sigs := (s.stack.drop (keyCount + 2)).take sigCount
            match matchKeys ctx (withoutSignatures (scriptCode ctx s) sigs) sigs keys s with
            | (.error e, asked) => .fail e asked
            | (.ok valid, asked) =>
                let operands := keyCount + sigCount + 3
                if ctx.flags.nullDummy && dummy.size != 0 then
                  .fail (.multiSig (.dummy dummy.size)) asked
                else
                  conclude Opcode.checkMultiSigVerify required valid
                    (Stack.provenance (s.stack.take operands)) (s.stack.drop operands) asked

theorem checkMultiSig_eq (ctx : Context) (required : Bool) (s : State) :
    checkMultiSig ctx required s =
      match countAt ctx.flags 0 ctx.limits.multiSigKeys .keyCount s.stack with
      | .error e => .fail e s
      | .ok keyCount => checkCounted ctx required keyCount (s.reframe s.branches keyCount) := rfl

/-- A higher count may exceed the limit where a lower one does not. -/
theorem checkCounted_reframe (ctx : Context) (required : Bool) (keyCount : Nat) (s : State) :
    checkCounted ctx required keyCount (s.reframe branches extra) =
        (checkCounted ctx required keyCount s).map (State.reframe branches extra) ∨
      ∃ u, checkCounted ctx required keyCount (s.reframe branches extra) = .fail .opCount u := by
  unfold checkCounted
  by_cases hmany : (s.reframe branches extra).opCount > ctx.limits.operations
  · exact Or.inr ⟨_, if_pos hmany⟩
  · left
    have hfew : ¬ s.opCount > ctx.limits.operations := by
      rw [State.reframe_opCount] at hmany
      omega
    have hcode : scriptCode ctx (s.reframe branches extra) = scriptCode ctx s := rfl
    rw [if_neg hmany, if_neg hfew, State.reframe_stack, hcode]
    split
    · rfl
    · rename_i sigCount hsigs
      split
      · rfl
      · simp only [matchKeys_reframe]
        generalize matchKeys ctx _ _ _ s = found
        obtain ⟨answer, asked⟩ := found
        cases answer with
        | error reason => rfl
        | ok valid =>
            simp only [Prod.map_apply, id_eq]
            split
            · rfl
            · exact conclude_reframe branches extra _ required valid _ _ asked

theorem checkMultiSig_reframe (ctx : Context) (required : Bool) (s : State) :
    checkMultiSig ctx required (s.reframe branches extra) =
        (checkMultiSig ctx required s).map (State.reframe branches extra) ∨
      ∃ u, checkMultiSig ctx required (s.reframe branches extra) = .fail .opCount u := by
  rw [checkMultiSig_eq, checkMultiSig_eq, State.reframe_stack]
  cases countAt ctx.flags 0 ctx.limits.multiSigKeys .keyCount s.stack with
  | error reason => exact Or.inl rfl
  | ok keyCount =>
      have hcounted : (s.reframe branches extra).reframe branches keyCount =
          (s.reframe s.branches keyCount).reframe branches extra := by
        rw [State.reframe_reframe, State.reframe_reframe, Nat.add_comm]
      dsimp only [State.reframe_branches]
      rw [hcounted]
      exact checkCounted_reframe branches extra ctx required keyCount _

/-- Unless it is about branches, an operation does the same inside others, or runs out of
operations. -/
theorem perform_reframe (ctx : Context) {c : Chunk} (s : State)
    (h : isBranching c.opcode.operation = false) :
    perform ctx c (s.reframe branches extra) =
        (perform ctx c s).map (State.reframe branches extra) ∨
      ∃ u, perform ctx c (s.reframe branches extra) = .fail .opCount u := by
  unfold perform
  cases hop : c.opcode.operation with
  | openBranch negated => rw [hop] at h; cases h
  | turnBranch => rw [hop] at h; cases h
  | closeBranch => rw [hop] at h; cases h
  | checkMultiSig required => exact checkMultiSig_reframe branches extra ctx required s
  | bad => exact Or.inl rfl
  | smallInt n => exact Or.inl rfl
  | nop => exact Or.inl rfl
  | depth => exact Or.inl rfl
  | codeSeparator => exact Or.inl rfl
  | upgradableNop => exact Or.inl (upgradableNop_reframe branches extra ctx.flags c.opcode s)
  | lockTime => exact Or.inl (lockTime_reframe branches extra ctx c.opcode s)
  | shift d => exact Or.inl (shift_reframe branches extra ctx.flags d s)
  | checkSig required => exact Or.inl (checkSig_reframe branches extra ctx required s)
  | exit =>
      left
      dsimp only [exit]
      split <;> rfl
  | toAlt =>
      left
      dsimp only [toAlt, State.reframe_stack]
      split <;> rfl
  | fromAlt =>
      left
      dsimp only [fromAlt, State.reframe_altStack]
      split <;> rfl
  | _ => exact Or.inl (withStack_reframe branches extra s _)

end Operations

/-- An operation that goes on inside other branches goes on without them, and keeps the branches. -/
theorem perform_of_reframed {ctx : Context} {c : Chunk} {s t : State} {branches : List Bool}
    {extra : Nat} (hplain : isBranching c.opcode.operation = false)
    (h : perform ctx c (s.reframe branches extra) = .next t) :
    ∃ u, perform ctx c s = .next u ∧ u.branches = s.branches ∧ t = u.reframe branches extra := by
  rcases perform_reframe branches extra ctx s hplain with hsame | ⟨u, hfail⟩
  · rw [hsame] at h
    obtain ⟨u, hu, ht⟩ := Outcome.exists_of_map_eq_next h
    -- its own branches are a frame of the state as well
    rcases perform_reframe s.branches 0 ctx s hplain with hself | ⟨v, hfail⟩
    · rw [State.reframe_self, hu, Outcome.map, Outcome.next.injEq] at hself
      refine ⟨u, hu, ?_, ht⟩
      rw [hself, State.reframe_branches]
    · rw [State.reframe_self, hu] at hfail
      cases hfail
  · rw [hfail] at h
    cases h

end Machine

end BitcoinScript
