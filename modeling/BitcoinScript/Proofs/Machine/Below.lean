import BitcoinScript.Proofs.Machine.Calls
import BitcoinScript.Proofs.Machine.Lockstep
import BitcoinScript.Proofs.Machine.Operands
import BitcoinScript.Proofs.Machine.Reframe

/-!
# What lies below

A script works on the top of its stack. Only one operation looks at the whole of it, the one that
counts the items; every other one that succeeds does the same, and asks the same, with more items
below (`perform_onto`), unless there is no room for them. So does a whole script
(`success_keeps_below`).
-/

namespace BitcoinScript

/-- Pushes the number of items on the stack. -/
def Opcode.depth : Opcode := ⟨0x74⟩

theorem Opcode.eq_depth_of_operation {op : Opcode} (h : op.operation = .depth) :
    op = .depth := by
  refine of_operation (P := fun op => op = .depth) h rfl ?_
  decide

section Append

variable {s t below : Stack}

theorem Stack.block_append {n m : Nat} (h : n + m ≤ s.length) :
    ((s ++ below).drop n).take m = (s.drop n).take m := by
  have hdrop : m ≤ (s.drop n).length := by
    rw [List.length_drop]
    omega
  rw [List.drop_append_of_le_length (by omega), List.take_append_of_le_length hdrop]

theorem Stack.require_append {n : Nat} {result result' : Stack}
    (hresult : n ≤ s.length → result' = result ++ below) (h : require n s result = some t) :
    require n (s ++ below) result' = some (t ++ below) := by
  unfold require at h ⊢
  split at h
  · rename_i hn
    cases h
    have hlength : n ≤ (s ++ below).length := by
      rw [List.length_append]
      omega
    rw [if_pos hlength, hresult hn]
  · cases h

/-- Moves and copies that find their items find them also above others. -/
theorem StackOp.apply_append {op : StackOp} (h : op.apply s = some t) :
    op.apply (s ++ below) = some (t ++ below) := by
  cases op with
  | drop n =>
      refine Stack.require_append ?_ h
      exact fun hn => List.drop_append_of_le_length hn
  | dup n =>
      refine Stack.require_append ?_ h
      intro hn
      rw [List.take_append_of_le_length hn, List.append_assoc]
  | copyOver n =>
      refine Stack.require_append ?_ h
      intro hn
      rw [Stack.block_append (by omega), List.append_assoc]
  | rotate n =>
      refine Stack.require_append ?_ h
      intro hn
      rw [Stack.block_append (by omega), List.take_append_of_le_length (by omega),
        List.drop_append_of_le_length hn, List.append_assoc, List.append_assoc]
  | swap n =>
      refine Stack.require_append ?_ h
      intro hn
      rw [Stack.block_append (by omega), List.take_append_of_le_length (by omega),
        List.drop_append_of_le_length hn, List.append_assoc, List.append_assoc]
  | nip =>
      match s, h with
      | x :: y :: rest, h =>
          cases h
          rfl
  | tuck =>
      match s, h with
      | x :: y :: rest, h =>
          cases h
          rfl

end Append

namespace Machine

/-- The state with more items below those of its stack. -/
def State.onto (below : Stack) (s : State) : State := { s with stack := s.stack ++ below }

@[simp] theorem State.onto_stack (below : Stack) (s : State) :
    (s.onto below).stack = s.stack ++ below := rfl

/-- The second state has more items below. -/
def Onto (below : Stack) (s t : State) : Prop := t = s.onto below

/-- There is no room for the items. -/
def IsCramped (reason : Reason) : Prop := reason = .stackSize ∨ reason = .stackMemory

/-! ## Operations -/

section Operations

variable {ctx : Context} {below : Stack}

theorem withStack_onto {s : State} {r r' : Except Reason Stack}
    (h : ∀ stack, r = .ok stack → r' = .ok (stack ++ below)) :
    (s.withStack r).Tracks (Onto below) IsCramped ((s.onto below).withStack r') := by
  cases r with
  | error reason => exact .failed _ _ _
  | ok stack =>
      rw [h stack rfl]
      exact .next rfl

theorem dupIfTrue_append {s t : Stack} (h : dupIfTrue s = .ok t) :
    dupIfTrue (s ++ below) = .ok (t ++ below) := by
  cases s with
  | nil => cases h
  | cons x rest =>
      cases h
      simp only [dupIfTrue, List.cons_append]
      split <;> rfl

theorem fetch_append {flags : Flags} {takeOut : Bool} {s t : Stack}
    (h : fetch flags takeOut s = .ok t) : fetch flags takeOut (s ++ below) = .ok (t ++ below) := by
  cases s with
  | nil => cases h
  | cons index rest =>
      simp only [fetch, List.cons_append] at h ⊢
      split at h
      · cases h
      · rename_i n hn
        split at h
        · cases h
        · rename_i hsign
          split at h
          · cases h
          · rename_i x hx
            cases h
            have hlt : n.toNat < rest.length := (List.getElem?_eq_some_iff.mp hx).1
            have hfound : (rest ++ below)[n.toNat]? = some x := by
              rw [List.getElem?_append_left hlt, hx]
            simp only [if_neg hsign, hfound, List.eraseIdx_append_of_lt_length hlt]
            cases takeOut <;> rfl

theorem openBranch_onto (negated : Bool) (s : State) :
    (openBranch negated s).Tracks (Onto below) IsCramped (openBranch negated (s.onto below)) := by
  have hexecuting : (s.onto below).executing = s.executing := rfl
  unfold openBranch
  rw [hexecuting, State.onto_stack]
  split
  · cases s.stack with
    | nil => exact .failed _ _ _
    | cons x rest => exact .next rfl
  · exact .next rfl

theorem toAlt_onto (s : State) :
    (toAlt s).Tracks (Onto below) IsCramped (toAlt (s.onto below)) := by
  unfold toAlt
  rw [State.onto_stack]
  cases s.stack with
  | nil => exact .failed _ _ _
  | cons x rest => exact .next rfl

theorem lockTime_onto (ctx : Context) (op : Opcode) (s : State) :
    (lockTime ctx op s).Tracks (Onto below) IsCramped (lockTime ctx op (s.onto below)) := by
  unfold lockTime
  rw [State.onto_stack]
  split
  · unfold upgradableNop
    split
    · exact .failed _ _ _
    · exact .next rfl
  · cases s.stack with
    | nil => exact .failed _ _ _
    | cons x rest =>
        dsimp only [List.cons_append]
        split
        · exact .failed _ _ _
        · split
          · exact .failed _ _ _
          · split
            · exact .next rfl
            · exact .failed _ _ _

/-! ### Signatures -/

theorem record_onto (s t : State) (call : Call) (h : Onto below s t) :
    Onto below (s.record call) (t.record call) := by
  cases h
  rfl

theorem conclude_onto (op : Opcode) (required valid : Bool) (p : Provenance) (rest : Stack)
    (s : State) : (conclude op required valid p rest s).Tracks (Onto below) IsCramped
      (conclude op required valid p (rest ++ below) (s.onto below)) := by
  have hmatches : (conclude op required valid p rest s).Matches (Onto below)
      (conclude op required valid p (rest ++ below) (s.onto below)) := conclude_matches rfl rfl
  exact hmatches.tracks

theorem checkSig_onto (ctx : Context) (required : Bool) (s : State) :
    (checkSig ctx required s).Tracks (Onto below) IsCramped
      (checkSig ctx required (s.onto below)) := by
  have hcode : scriptCode ctx (s.onto below) = scriptCode ctx s := rfl
  unfold checkSig
  rw [State.onto_stack, hcode]
  match s.stack with
  | [] => exact .failed _ _ _
  | [key] => exact .failed _ _ _
  | key :: sig :: rest =>
      obtain ⟨answer, u, v, hs, ht, rfl⟩ := checkPair_matches ctx
        (withoutSignatures (scriptCode ctx s) [sig]) record_onto (Eq.refl sig.bytes)
        (Eq.refl key.bytes) (Eq.refl (s.onto below))
      simp only [List.cons_append, hs, ht]
      cases answer with
      | error reason => exact .failed _ _ _
      | ok valid => exact conclude_onto _ required valid _ rest u

theorem countAt_append {flags : Flags} {i bound n : Nat} {e : MultiSigError} {s : Stack}
    (h : countAt flags i bound e s = .ok n) : countAt flags i bound e (s ++ below) = .ok n := by
  obtain ⟨x, hx, -⟩ := countAt_eq_ok h
  have hlt : i < s.length := (List.getElem?_eq_some_iff.mp hx).1
  unfold countAt at h ⊢
  rw [List.getElem?_append_left hlt]
  exact h

theorem checkCounted_onto (ctx : Context) (required : Bool) (keyCount : Nat) (s : State) :
    (checkCounted ctx required keyCount s).Tracks (Onto below) IsCramped
      (checkCounted ctx required keyCount (s.onto below)) := by
  have hcount : (s.onto below).opCount = s.opCount := rfl
  have hcode : scriptCode ctx (s.onto below) = scriptCode ctx s := rfl
  unfold checkCounted
  rw [hcount, hcode, State.onto_stack]
  split
  · exact .failed _ _ _
  · cases hsigs : countAt ctx.flags (keyCount + 1) keyCount .signatureCount s.stack with
    | error reason => exact .failed _ _ _
    | ok sigCount =>
        dsimp only
        cases hdummy : s.stack[keyCount + sigCount + 2]? with
        | none => exact .failed _ _ _
        | some dummy =>
            -- the last operand is the deepest one, so none of them lies below
            have hlt : keyCount + sigCount + 2 < s.stack.length :=
              (List.getElem?_eq_some_iff.mp hdummy).1
            rw [countAt_append hsigs]
            dsimp only
            rw [List.getElem?_append_left hlt, hdummy, Stack.block_append (by omega),
              Stack.block_append (by omega), List.take_append_of_le_length (by omega),
              List.drop_append_of_le_length (by omega)]
            dsimp only
            generalize (s.stack.drop (keyCount + 2)).take sigCount = sigs
            obtain ⟨answer, u, v, hs, ht, rfl⟩ := matchKeys_matches ctx
              (withoutSignatures (scriptCode ctx s) sigs) record_onto (List.forall₂_refl sigs)
              (List.forall₂_refl ((s.stack.drop 1).take keyCount)) (Eq.refl (s.onto below))
            rw [hs, ht]
            cases answer with
            | error reason => exact .failed _ _ _
            | ok valid =>
                dsimp only
                split
                · exact .failed _ _ _
                · exact conclude_onto _ required valid _ _ u

theorem checkMultiSig_onto (ctx : Context) (required : Bool) (s : State) :
    (checkMultiSig ctx required s).Tracks (Onto below) IsCramped
      (checkMultiSig ctx required (s.onto below)) := by
  rw [checkMultiSig_eq, checkMultiSig_eq, State.onto_stack]
  cases hkeys : countAt ctx.flags 0 ctx.limits.multiSigKeys .keyCount s.stack with
  | error reason => exact .failed _ _ _
  | ok keyCount =>
      rw [countAt_append hkeys]
      exact checkCounted_onto ctx required keyCount (s.reframe s.branches keyCount)

/-- Unless it counts the items, an operation that succeeds does the same with more of them below, or
there is no room for them. -/
theorem perform_onto {c : Chunk} (hdepth : c.opcode ≠ .depth) (s : State) :
    (perform ctx c s).Tracks (Onto below) IsCramped (perform ctx c (s.onto below)) := by
  cases hreplacing : isReplacing c.opcode.operation with
  | true =>
      obtain ⟨n, k, op, hreplaces, hperforms⟩ := exists_replaces ctx c hreplacing
      rcases hperforms s with ⟨stack, hstack, hnext⟩ | ⟨reason, t, hfail, -⟩
      · have hdeeper := hreplaces.extend hstack below
        rw [hnext]
        rcases hperforms (s.onto below) with ⟨stack', hstack', hnext'⟩ | ⟨reason, t, hfail, hno⟩
        · rw [State.onto_stack, hdeeper, Except.ok.injEq] at hstack'
          rw [hnext', ← hstack']
          exact .next rfl
        · rw [hfail]
          rcases hno with herror | hmemory
          · rw [State.onto_stack, hdeeper] at herror
            cases herror
          · exact .fails _ _ (Or.inr hmemory)
      · rw [hfail]
        exact .failed _ _ _
  | false =>
      unfold perform
      cases hop : c.opcode.operation with
      | bad => exact .failed _ _ _
      | smallInt n => exact .next rfl
      | nop => exact .next rfl
      | codeSeparator => exact .next rfl
      | depth => exact absurd (Opcode.eq_depth_of_operation hop) hdepth
      | upgradableNop =>
          dsimp only [upgradableNop]
          split
          · exact .failed _ _ _
          · exact .next rfl
      | turnBranch =>
          dsimp only [turnBranch, State.onto]
          split
          · exact .failed _ _ _
          · exact .next rfl
      | closeBranch =>
          dsimp only [closeBranch, State.onto]
          split
          · exact .failed _ _ _
          · exact .next rfl
      | exit =>
          dsimp only [exit]
          split
          · exact .done rfl
          · exact .failed _ _ _
      | fromAlt =>
          dsimp only [fromAlt, State.onto]
          split
          · exact .failed _ _ _
          · exact .next rfl
      | lockTime => exact lockTime_onto ctx c.opcode s
      | openBranch negated => exact openBranch_onto negated s
      | toAlt => exact toAlt_onto s
      | stack op =>
          refine withStack_onto ?_
          intro stack hstack
          cases happly : op.apply s.stack with
          | none =>
              rw [happly] at hstack
              cases hstack
          | some t =>
              rw [happly] at hstack
              cases hstack
              rw [State.onto_stack, StackOp.apply_append happly]
              rfl
      | dupIfTrue => exact withStack_onto fun stack hstack => dupIfTrue_append hstack
      | fetch takeOut => exact withStack_onto fun stack hstack => fetch_append hstack
      | checkSig required => exact checkSig_onto ctx required s
      | checkMultiSig required => exact checkMultiSig_onto ctx required s
      | _ => rw [hop] at hreplacing; cases hreplacing

end Operations

/-! ## Runs -/

theorem step_onto {ctx : Context} {c : Chunk} (hdepth : c.opcode ≠ .depth) (below : Stack)
    (s : State) :
    (step ctx c s).Tracks (Onto below) IsCramped (step ctx c (s.onto below)) := by
  have hcounted : counted c (s.onto below) = (counted c s).onto below := by
    unfold counted
    split <;> rfl
  refine step_tracks (Or.inl rfl) (Or.inr rfl) rfl ?_
  rw [hcounted]
  exact execute_tracks rfl rfl (fun _ => rfl) (perform_onto hdepth _)

theorem run_onto {ctx : Context} {cs : List Chunk} (hdepth : ∀ c ∈ cs, c.opcode ≠ .depth)
    (below : Stack) {s : State} (h : (run ctx cs s).failure = none) :
    ((run ctx cs (s.onto below)).failure = none ∧
        (run ctx cs (s.onto below)).state = (run ctx cs s).state.onto below) ∨
      ∃ reason location, (run ctx cs (s.onto below)).failure = some (reason, location) ∧
        IsCramped reason := by
  refine run_tracks (Q := Onto below) ?_ ?_ rfl h
  · rintro s t rfl
    rfl
  · rintro c hc s t rfl
    exact step_onto (hdepth c hc) below s

end Machine

theorem topIsTrue_append {s : Stack} (h : s ≠ []) (below : Stack) :
    topIsTrue (s ++ below) = topIsTrue s := by
  cases s with
  | nil => exact absurd rfl h
  | cons x rest => rfl

/-- **A script that does not count the items cannot tell what lies below those it works on.** If it
succeeds without them, it asks the same and leaves them where they are, unless the stacks exceed
their bound. -/
theorem success_keeps_below {checker : Checker} {flags : Flags} {p : Program} {stack : Stack}
    {b : Bool} (hdepth : ∀ c ∈ p.chunks, c.opcode ≠ .depth)
    (h : (evaluate checker flags p stack).outcome = .ok b) (below : Stack) :
    (∃ b', (evaluate checker flags p (stack ++ below)).outcome = .ok b' ∧
        ((evaluate checker flags p stack).stack ≠ [] → b' = b) ∧
        (evaluate checker flags p (stack ++ below)).stack =
          (evaluate checker flags p stack).stack ++ below ∧
        (evaluate checker flags p (stack ++ below)).calls =
          (evaluate checker flags p stack).calls) ∨
      ∃ f, (evaluate checker flags p (stack ++ below)).outcome = .error f ∧
        (f.reason = .stackSize ∨ f.reason = .stackMemory) := by
  obtain ⟨hsize, r, rfl, hnone, rfl⟩ := evaluate_eq_ok_iff.mp h
  have hstart : evaluate checker flags p (stack ++ below) = .ofResult (Machine.run
      ⟨flags, checker, p.bytes⟩ p.chunks (Machine.State.onto below { stack := stack })) :=
    evaluate_eq hsize _
  rw [hstart, evaluate_eq hsize]
  rcases Machine.run_onto hdepth below hnone with ⟨hdeeper, hstate⟩ | ⟨reason, place, hfail, hroom⟩
  · refine Or.inl ⟨_, Evaluation.ofResult_of_none hdeeper, ?_, ?_, ?_⟩
    · intro hleft
      rw [hstate]
      exact topIsTrue_append hleft below
    · exact congrArg Machine.State.stack hstate
    · have hcalls := congrArg Machine.State.calls hstate
      exact hcalls
  · exact Or.inr ⟨_, Evaluation.ofResult_of_some hfail, hroom⟩

/-- The program `1 PICK ADD`. -/
def pickAdd : Program where
  chunks := [⟨.one, none, 0⟩, ⟨⟨0x79⟩, none, 1⟩, ⟨⟨0x93⟩, none, 2⟩]
  bytes := [0x51, 0x79, 0x93]

/-- The program adds the second item to the first one, and leaves a third one where it is. -/
theorem pickAdd_keeps_below :
    (∀ c ∈ pickAdd.chunks, c.opcode ≠ .depth) ∧
      (evaluate .absent {} pickAdd [.literal [2], .literal [3]]).outcome = .ok true ∧
      (evaluate .absent {} pickAdd [.literal [2], .literal [3], .literal [4]]).stack =
        (evaluate .absent {} pickAdd [.literal [2], .literal [3]]).stack ++ [.literal [4]] := by
  have hdepth : ∀ c ∈ pickAdd.chunks, c.opcode ≠ .depth := by decide
  have htrue : (evaluate .absent {} pickAdd [.literal [2], .literal [3]]).outcome = .ok true := rfl
  refine ⟨hdepth, htrue, ?_⟩
  rcases success_keeps_below hdepth htrue [.literal [4]] with ⟨b, -, -, hstack, -⟩ | ⟨f, hf, -⟩
  · exact hstack
  · have hroom : (evaluate .absent {} pickAdd [.literal [2], .literal [3], .literal [4]]).outcome =
        .ok true := rfl
    rw [List.cons_append, List.cons_append, List.nil_append, hroom] at hf
    cases hf

end BitcoinScript
