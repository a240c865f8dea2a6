import BitcoinScript.Proofs.Machine.Lockstep
import BitcoinScript.Proofs.Machine.Operands
import BitcoinScript.Proofs.Machine.Reframe

/-!
# Marks on items

Items are marked with a kind and a provenance, which execution carries along and never reads: on
stacks with pairwise the same bytes every operation does the same (`perform_sameBytes`), whether it
succeeds or fails. So do steps, runs, and evaluations that follow each other on one stack
(`marks_never_matter`).
-/

namespace BitcoinScript

/-! ## Items with the same bytes -/

namespace Item.SameBytes

variable {x y : Item}

theorem data_eq (h : x.SameBytes y) : x.data = y.data := Packed.bytes_injective h

theorem isTrue_eq (h : x.SameBytes y) : x.isTrue = y.isTrue := by
  rw [x.isTrue_eq, y.isTrue_eq, h]

theorem toInt_eq (h : x.SameBytes y) (requireMinimal : Bool) (maxSize : Nat) :
    x.toInt requireMinimal maxSize = y.toInt requireMinimal maxSize := by
  rw [x.toInt_eq, y.toInt_eq, h]

theorem number_eq (h : x.SameBytes y) (flags : Flags) :
    Machine.number flags x = Machine.number flags y := by
  unfold Machine.number
  rw [h.toInt_eq]

theorem pair_eq {x' y' : Item} (h : x.SameBytes y) (h' : x'.SameBytes y') (flags : Flags) :
    Machine.pair flags x x' = Machine.pair flags y y' := by
  unfold Machine.pair
  rw [h.number_eq, h'.number_eq]

/-- What is marked by a further provenance keeps its bytes. -/
theorem merge (h : x.SameBytes y) (p q : Provenance) : (x.merge p).SameBytes (y.merge q) := h

theorem withBytes {b c : Bytes} (h : b = c) (x y : Item) :
    (Machine.withBytes x b).SameBytes (Machine.withBytes y c) := by
  rw [h]
  rfl

end Item.SameBytes

theorem Stack.memory_eq_of_sameBytes {s t : Stack} (h : List.Forall₂ Item.SameBytes s t) :
    memory s = memory t := by
  induction h with
  | nil => rfl
  | cons hx hrest ih => rw [memory_cons, memory_cons, ih, cost, cost, hx.size_eq]

namespace Machine

/-! ## Operations on the stack -/

section Stacks

variable {s t : Stack}

theorem verify_sameBytes (op : Opcode) (h : List.Forall₂ Item.SameBytes s t) :
    Paired Item.SameBytes (verify op s) (verify op t) := by
  cases h with
  | nil => exact .error _
  | cons hx hrest =>
      simp only [verify, hx.isTrue_eq]
      split
      · exact .ok hrest
      · exact .error _

theorem dupIfTrue_sameBytes (h : List.Forall₂ Item.SameBytes s t) :
    Paired Item.SameBytes (dupIfTrue s) (dupIfTrue t) := by
  cases h with
  | nil => exact .error _
  | cons hx hrest =>
      simp only [dupIfTrue, hx.isTrue_eq]
      split
      · exact .ok (.cons hx (.cons hx hrest))
      · exact .ok (.cons hx hrest)

theorem depth_sameBytes (h : List.Forall₂ Item.SameBytes s t) :
    List.Forall₂ Item.SameBytes (depth s) (depth t) := by
  unfold depth
  rw [h.length_eq]
  exact .cons rfl h

theorem fetch_sameBytes (flags : Flags) (takeOut : Bool) (h : List.Forall₂ Item.SameBytes s t) :
    Paired Item.SameBytes (fetch flags takeOut s) (fetch flags takeOut t) := by
  cases h with
  | nil => exact .error _
  | cons hindex hrest =>
      simp only [fetch, hindex.number_eq]
      split
      · exact .error _
      · rename_i n hn
        split
        · exact .error _
        · rcases forall₂_getElem? hrest n.toNat with ⟨hs, ht⟩ | ⟨x, y, hs, ht, hxy⟩
          · rw [hs, ht]
            exact .error _
          · rw [hs, ht]
            refine .ok (.cons (hxy.merge _ _) ?_)
            split
            · exact forall₂_eraseIdx hrest _
            · exact hrest

theorem cat_sameBytes (limits : Limits) (h : List.Forall₂ Item.SameBytes s t) :
    Paired Item.SameBytes (cat limits s) (cat limits t) := by
  rcases h with _ | ⟨hy, _ | ⟨hx, hrest⟩⟩
  · exact .error _
  · exact .error _
  · simp only [cat, hx.size_eq, hy.size_eq]
    split
    · exact .error _
    · refine .ok (.cons (Item.SameBytes.merge ?_ _ _) hrest)
      unfold Item.SameBytes Item.bytes
      rw [hx.data_eq, hy.data_eq]

theorem split_sameBytes (flags : Flags) (h : List.Forall₂ Item.SameBytes s t) :
    Paired Item.SameBytes (Machine.split flags s) (Machine.split flags t) := by
  rcases h with _ | ⟨hposition, hrest⟩
  · exact .error _
  · simp only [Machine.split, hposition.number_eq]
    split
    · exact .error _
    · cases hrest with
      | nil => exact .error _
      | cons hx hrest =>
          simp only [hx.size_eq, hx.data_eq]
          split
          · exact .ok (.cons rfl (.cons rfl hrest))
          · exact .error _

theorem reserve_sameBytes (bound : StackBound) {altStack altStack' : Stack} (consumed length : Nat)
    (halt : List.Forall₂ Item.SameBytes altStack altStack')
    (h : List.Forall₂ Item.SameBytes s t) :
    reserve bound altStack consumed length s = reserve bound altStack' consumed length t := by
  unfold reserve
  rw [Stack.memory_eq_of_sameBytes h, Stack.memory_eq_of_sameBytes halt,
    Stack.memory_eq_of_sameBytes (List.forall₂_take consumed h)]

theorem numToBin_sameBytes (flags : Flags) {altStack altStack' : Stack}
    (halt : List.Forall₂ Item.SameBytes altStack altStack')
    (h : List.Forall₂ Item.SameBytes s t) :
    Paired Item.SameBytes (numToBin flags altStack s) (numToBin flags altStack' t) := by
  cases h with
  | nil => exact .error _
  | cons hsize hrest =>
      have hreserve := fun n => reserve_sameBytes flags.limits.stack 2 n halt (.cons hsize hrest)
      simp only [numToBin, hsize.number_eq, hreserve]
      split
      · exact .error _
      · split
        · exact .error _
        · split
          · exact .error _
          · cases hrest with
            | nil => exact .error _
            | cons hx hrest =>
                simp only [hx.data_eq]
                split
                · exact .error _
                · split
                  · exact .ok (.cons rfl hrest)
                  · exact .ok (.cons rfl hrest)

theorem binToNum_sameBytes (limits : Limits) (h : List.Forall₂ Item.SameBytes s t) :
    Paired Item.SameBytes (binToNum limits s) (binToNum limits t) := by
  cases h with
  | nil => exact .error _
  | cons hx hrest =>
      simp only [binToNum, hx.data_eq]
      split
      · exact .error _
      · exact .ok (.cons rfl hrest)

theorem size_sameBytes (h : List.Forall₂ Item.SameBytes s t) :
    Paired Item.SameBytes (size s) (size t) := by
  cases h with
  | nil => exact .error _
  | cons hx hrest =>
      simp only [size, hx.size_eq]
      exact .ok (.cons rfl (.cons hx hrest))

theorem invert_sameBytes (h : List.Forall₂ Item.SameBytes s t) :
    Paired Item.SameBytes (invert s) (invert t) := by
  cases h with
  | nil => exact .error _
  | cons hx hrest => exact .ok (.cons (.withBytes (congrArg _ hx) _ _) hrest)

theorem bitwise_sameBytes (op : BitOp) (h : List.Forall₂ Item.SameBytes s t) :
    Paired Item.SameBytes (bitwise op s) (bitwise op t) := by
  rcases h with _ | ⟨hy, _ | ⟨hx, hrest⟩⟩
  · exact .error _
  · exact .error _
  · simp only [bitwise, hx.size_eq, hy.size_eq]
    split
    · have hbytes := congrArg₂ (List.zipWith op.eval) hx hy
      exact .ok (.cons ((Item.SameBytes.withBytes hbytes _ _).merge _ _) hrest)
    · exact .error _

theorem equal_sameBytes (h : List.Forall₂ Item.SameBytes s t) :
    Paired Item.SameBytes (equal s) (equal t) := by
  rcases h with _ | ⟨hy, _ | ⟨hx, hrest⟩⟩
  · exact .error _
  · exact .error _
  · simp only [equal, hx.data_eq, hy.data_eq]
    exact .ok (.cons rfl hrest)

theorem equalVerify_sameBytes (h : List.Forall₂ Item.SameBytes s t) :
    Paired Item.SameBytes (equalVerify s) (equalVerify t) := by
  rcases h with _ | ⟨hy, _ | ⟨hx, hrest⟩⟩
  · exact .error _
  · exact .error _
  · simp only [equalVerify, hx.data_eq, hy.data_eq]
    split
    · exact .ok hrest
    · exact .error _

theorem hash_sameBytes (op : HashOp) (h : List.Forall₂ Item.SameBytes s t) :
    Paired Item.SameBytes (hash op s) (hash op t) := by
  cases h with
  | nil => exact .error _
  | cons hx hrest =>
      simp only [hash, hx.data_eq]
      exact .ok (.cons rfl hrest)

theorem unary_sameBytes (flags : Flags) (op : UnaryOp) (h : List.Forall₂ Item.SameBytes s t) :
    Paired Item.SameBytes (unary flags op s) (unary flags op t) := by
  cases h with
  | nil => exact .error _
  | cons hx hrest =>
      simp only [unary, hx.number_eq]
      split
      · exact .ok (.cons rfl hrest)
      · exact .error _

theorem binary_sameBytes (flags : Flags) (op : BinaryOp) (h : List.Forall₂ Item.SameBytes s t) :
    Paired Item.SameBytes (binary flags op s) (binary flags op t) := by
  have hitem : ∀ (v : Value) (p q : Provenance), (v.item p).SameBytes (v.item q) := by
    intro v p q
    cases v <;> rfl
  rcases h with _ | ⟨hy, _ | ⟨hx, hrest⟩⟩
  · exact .error _
  · exact .error _
  · simp only [binary, hx.pair_eq hy]
    split
    · split
      · exact .ok (.cons (hitem _ _ _) hrest)
      · exact .error _
    · exact .error _

theorem numEqualVerify_sameBytes (flags : Flags) (h : List.Forall₂ Item.SameBytes s t) :
    Paired Item.SameBytes (numEqualVerify flags s) (numEqualVerify flags t) := by
  rcases h with _ | ⟨hy, _ | ⟨hx, hrest⟩⟩
  · exact .error _
  · exact .error _
  · simp only [numEqualVerify, hx.pair_eq hy]
    split
    · split
      · exact .ok hrest
      · exact .error _
    · exact .error _

theorem within_sameBytes (flags : Flags) (h : List.Forall₂ Item.SameBytes s t) :
    Paired Item.SameBytes (within flags s) (within flags t) := by
  rcases h with _ | ⟨hhigh, _ | ⟨hlow, _ | ⟨hx, hrest⟩⟩⟩
  · exact .error _
  · exact .error _
  · exact .error _
  · simp only [within, hx.pair_eq hlow, hhigh.number_eq]
    split
    · split
      · exact .ok (.cons rfl hrest)
      · exact .error _
    · exact .error _

theorem shifted_sameBytes (flags : Flags) (d : Direction) (h : List.Forall₂ Item.SameBytes s t) :
    Paired Item.SameBytes (shifted flags d s) (shifted flags d t) := by
  cases h with
  | nil => exact .error _
  | cons hcount hrest =>
      simp only [shifted, hcount.number_eq]
      split
      · exact .error _
      · split
        · exact .error _
        · cases hrest with
          | nil => exact .error _
          | cons hx hrest =>
              exact .ok (.cons ((Item.SameBytes.withBytes (congrArg _ hx) _ _).merge _ _) hrest)

end Stacks

/-! ## Operations of the machine -/

section Operations

variable {ctx : Context} {s t : State}

theorem openBranch_sameBytes (negated : Bool) (h : s.Related Item.SameBytes Eq t) :
    (openBranch negated s).Matches (State.Related Item.SameBytes Eq) (openBranch negated t) := by
  have hstack := h.stack
  unfold openBranch
  rw [← h.executing, ← h.branches]
  split
  · generalize s.stack = a at hstack ⊢
    generalize t.stack = b at hstack ⊢
    cases hstack with
    | nil => exact .fail _ h
    | cons hx hrest =>
        dsimp only
        rw [hx.isTrue_eq]
        exact .next { h with stack := hrest, branches := rfl }
  · exact .next { h with branches := rfl }

theorem shift_sameBytes (flags : Flags) (d : Direction) (h : s.Related Item.SameBytes Eq t) :
    (shift flags d s).Matches (State.Related Item.SameBytes Eq) (shift flags d t) := by
  have hshifted := shifted_sameBytes flags d h.stack
  rw [shift_eq, shift_eq]
  generalize shifted flags d s.stack = r at hshifted ⊢
  generalize shifted flags d t.stack = r' at hshifted ⊢
  cases hshifted with
  | ok hstack => exact .next { h with stack := hstack }
  | error reason =>
      dsimp only
      split
      · exact .fail _ { h with stack := List.forall₂_drop 1 h.stack }
      · exact .fail _ h

theorem record_sameBytes (s t : State) (call : Call) (h : s.Related Item.SameBytes Eq t) :
    (s.record call).Related Item.SameBytes Eq (t.record call) :=
  { h with calls := congrArg (· ++ [call]) h.calls }

theorem lockTime_sameBytes (ctx : Context) (op : Opcode) (h : s.Related Item.SameBytes Eq t) :
    (lockTime ctx op s).Matches (State.Related Item.SameBytes Eq) (lockTime ctx op t) := by
  have hstack := h.stack
  unfold lockTime
  split
  · exact upgradableNop_matches ctx.flags op h
  · generalize s.stack = a at hstack ⊢
    generalize t.stack = b at hstack ⊢
    cases hstack with
    | nil => exact .fail _ h
    | cons hx hrest =>
        dsimp only
        rw [hx.toInt_eq]
        split
        · exact .fail _ h
        · split
          · exact .fail _ h
          · split
            · exact .next (record_sameBytes s t _ h)
            · exact .fail _ (record_sameBytes s t _ h)

/-! ### Signatures -/

theorem withoutSignatures_sameBytes (code : Bytes) {sigs sigs' : List Item}
    (h : List.Forall₂ Item.SameBytes sigs sigs') :
    withoutSignatures code sigs = withoutSignatures code sigs' := by
  unfold withoutSignatures
  induction h generalizing code with
  | nil => rfl
  | cons hsig hsigs ih =>
      rw [List.foldl_cons, List.foldl_cons, hsig]
      exact ih _

theorem checkSig_sameBytes (ctx : Context) (required : Bool)
    (h : s.Related Item.SameBytes Eq t) :
    (checkSig ctx required s).Matches (State.Related Item.SameBytes Eq)
      (checkSig ctx required t) := by
  have hstack := h.stack
  unfold checkSig
  rw [h.scriptCode_eq]
  generalize s.stack = a at hstack ⊢
  generalize t.stack = b at hstack ⊢
  rcases hstack with _ | ⟨hkey, _ | ⟨hsig, hrest⟩⟩
  · exact .fail _ h
  · exact .fail _ h
  · dsimp only
    rw [withoutSignatures_sameBytes _ (.cons hsig .nil)]
    obtain ⟨answer, u, v, hs, ht, huv⟩ :=
      checkPair_matches ctx _ record_sameBytes hsig hkey h
    rw [hs, ht]
    cases answer with
    | error reason => exact .fail _ huv
    | ok valid =>
        exact conclude_matches { huv with stack := hrest } { huv with stack := .cons rfl hrest }

theorem countAt_sameBytes (flags : Flags) (i bound : Nat) (e : MultiSigError) {a b : Stack}
    (h : List.Forall₂ Item.SameBytes a b) :
    countAt flags i bound e a = countAt flags i bound e b := by
  unfold countAt
  rcases forall₂_getElem? h i with ⟨ha, hb⟩ | ⟨x, y, ha, hb, hxy⟩
  · rw [ha, hb]
  · rw [ha, hb]
    simp only [hxy.number_eq]

theorem checkCounted_sameBytes (ctx : Context) (required : Bool) (keyCount : Nat)
    (h : s.Related Item.SameBytes Eq t) :
    (checkCounted ctx required keyCount s).Matches (State.Related Item.SameBytes Eq)
      (checkCounted ctx required keyCount t) := by
  unfold checkCounted
  rw [← h.opCount, ← h.scriptCode_eq, ← countAt_sameBytes ctx.flags _ _ _ h.stack]
  split
  · exact .fail _ h
  · split
    · exact .fail _ h
    · rename_i sigCount hsigs
      rcases forall₂_getElem? h.stack (keyCount + sigCount + 2) with
        ⟨hs, ht⟩ | ⟨dummy, dummy', hs, ht, hdummy⟩
      · rw [hs, ht]
        exact .fail _ h
      · rw [hs, ht]
        dsimp only
        have hkeys := List.forall₂_take keyCount (List.forall₂_drop 1 h.stack)
        have hsigs := List.forall₂_take sigCount (List.forall₂_drop (keyCount + 2) h.stack)
        rw [← withoutSignatures_sameBytes _ hsigs, hdummy.size_eq]
        obtain ⟨answer, u, v, hs, ht, huv⟩ :=
          matchKeys_matches ctx _ record_sameBytes hsigs hkeys h
        rw [hs, ht]
        cases answer with
        | error reason => exact .fail _ huv
        | ok valid =>
            dsimp only
            have hrest := List.forall₂_drop (keyCount + sigCount + 3) h.stack
            split
            · exact .fail _ huv
            · exact conclude_matches { huv with stack := hrest }
                { huv with stack := .cons rfl hrest }

theorem checkMultiSig_sameBytes (ctx : Context) (required : Bool)
    (h : s.Related Item.SameBytes Eq t) :
    (checkMultiSig ctx required s).Matches (State.Related Item.SameBytes Eq)
      (checkMultiSig ctx required t) := by
  rw [checkMultiSig_eq, checkMultiSig_eq, countAt_sameBytes ctx.flags 0 _ _ h.stack]
  cases countAt ctx.flags 0 ctx.limits.multiSigKeys .keyCount t.stack with
  | error reason => exact .fail _ h
  | ok keyCount =>
      refine checkCounted_sameBytes ctx required keyCount ?_
      exact { h with opCount := congrArg (· + keyCount) h.opCount }

/-- Every operation does the same on stacks with pairwise the same bytes. -/
theorem perform_sameBytes (ctx : Context) (c : Chunk) (h : s.Related Item.SameBytes Eq t) :
    (perform ctx c s).Matches (State.Related Item.SameBytes Eq) (perform ctx c t) := by
  unfold perform
  cases c.opcode.operation with
  | bad => exact .fail _ h
  | smallInt n => exact .next (h.push rfl)
  | nop => exact .next h
  | upgradableNop => exact upgradableNop_matches ctx.flags c.opcode h
  | lockTime => exact lockTime_sameBytes ctx c.opcode h
  | openBranch negated => exact openBranch_sameBytes negated h
  | turnBranch => exact turnBranch_matches h
  | closeBranch => exact closeBranch_matches h
  | verify => exact withStack_matches h (verify_sameBytes c.opcode h.stack)
  | exit => exact exit_matches ctx.flags h
  | toAlt => exact toAlt_matches h
  | fromAlt => exact fromAlt_matches h
  | stack op => exact withStack_matches h (moved_paired op h.stack)
  | dupIfTrue => exact withStack_matches h (dupIfTrue_sameBytes h.stack)
  | depth => exact .next { h with stack := depth_sameBytes h.stack }
  | fetch takeOut => exact withStack_matches h (fetch_sameBytes ctx.flags takeOut h.stack)
  | cat => exact withStack_matches h (cat_sameBytes ctx.limits h.stack)
  | split => exact withStack_matches h (split_sameBytes ctx.flags h.stack)
  | numToBin => exact withStack_matches h (numToBin_sameBytes ctx.flags h.altStack h.stack)
  | binToNum => exact withStack_matches h (binToNum_sameBytes ctx.limits h.stack)
  | size => exact withStack_matches h (size_sameBytes h.stack)
  | invert => exact withStack_matches h (invert_sameBytes h.stack)
  | bitwise op => exact withStack_matches h (bitwise_sameBytes op h.stack)
  | equal => exact withStack_matches h (equal_sameBytes h.stack)
  | equalVerify => exact withStack_matches h (equalVerify_sameBytes h.stack)
  | shift d => exact shift_sameBytes ctx.flags d h
  | unary op => exact withStack_matches h (unary_sameBytes ctx.flags op h.stack)
  | binary op => exact withStack_matches h (binary_sameBytes ctx.flags op h.stack)
  | numEqualVerify => exact withStack_matches h (numEqualVerify_sameBytes ctx.flags h.stack)
  | within => exact withStack_matches h (within_sameBytes ctx.flags h.stack)
  | hash op => exact withStack_matches h (hash_sameBytes op h.stack)
  | codeSeparator => exact .next { h with codeStart := rfl }
  | checkSig required => exact checkSig_sameBytes ctx required h
  | checkMultiSig required => exact checkMultiSig_sameBytes ctx required h

end Operations

/-! ## Runs -/

theorem checkBound_sameBytes (ctx : Context) (s t : State) (h : s.Related Item.SameBytes Eq t) :
    checkBound ctx s = checkBound ctx t := by
  unfold checkBound State.memory
  rw [h.stack.length_eq, h.altStack.length_eq, Stack.memory_eq_of_sameBytes h.stack,
    Stack.memory_eq_of_sameBytes h.altStack]

theorem step_sameBytes (ctx : Context) (c : Chunk) (s t : State)
    (h : s.Related Item.SameBytes Eq t) :
    (step ctx c s).Matches (State.Related Item.SameBytes Eq) (step ctx c t) := by
  have hcounted := h.counted c
  refine step_matches (checkBound_sameBytes ctx) h hcounted h.opCount ?_
  exact execute_matches hcounted hcounted.executing (fun data => hcounted.push rfl)
    (perform_sameBytes ctx c hcounted)

theorem run_sameBytes (ctx : Context) (cs : List Chunk) {s t : State}
    (h : s.Related Item.SameBytes Eq t) :
    (run ctx cs s).failure = (run ctx cs t).failure ∧
      (run ctx cs s).state.Related Item.SameBytes Eq (run ctx cs t).state :=
  run_matches (fun _ _ h => h.branches) (fun c _ => step_sameBytes ctx c) h

end Machine

/-! ## Evaluations -/

/-- The failures agree in all but the marks of the items left. -/
structure Failure.SameBytes (f g : Failure) : Prop where
  reason : f.reason = g.reason
  location : f.location = g.location
  stack : List.Forall₂ Item.SameBytes f.stack g.stack
  altStack : List.Forall₂ Item.SameBytes f.altStack g.altStack
  opCount : f.opCount = g.opCount

/-- Both are the same answer, or both are failures that agree in all but marks. -/
inductive SameAnswer : Except Failure Bool → Except Failure Bool → Prop
  | ok (b : Bool) : SameAnswer (.ok b) (.ok b)
  | error {f g : Failure} (h : f.SameBytes g) : SameAnswer (.error f) (.error g)

/-- The evaluations agree in all but the marks of the items left. -/
structure Evaluation.SameBytes (e f : Evaluation) : Prop where
  outcome : SameAnswer e.outcome f.outcome
  stack : List.Forall₂ Item.SameBytes e.stack f.stack
  calls : e.calls = f.calls

theorem topIsTrue_sameBytes {s t : Stack} (h : List.Forall₂ Item.SameBytes s t) :
    topIsTrue s = topIsTrue t := by
  cases h with
  | nil => rfl
  | cons hx hrest => exact hx.isTrue_eq

theorem Evaluation.ofResult_sameBytes {r r' : Machine.Result} (hfailure : r.failure = r'.failure)
    (h : r.state.Related Item.SameBytes Eq r'.state) :
    (ofResult r).SameBytes (ofResult r') where
  outcome := by
    cases hr : r.failure with
    | none =>
        rw [ofResult_of_none hr, ofResult_of_none (hfailure ▸ hr), topIsTrue_sameBytes h.stack]
        exact .ok _
    | some failure =>
        rw [ofResult_of_some hr, ofResult_of_some (hfailure ▸ hr)]
        exact .error ⟨rfl, rfl, h.stack, h.altStack, h.opCount⟩
  stack := h.stack
  calls := h.calls

/-- A program with the rules and the checker to evaluate it under. -/
structure Job where
  checker : Checker
  flags : Flags
  program : Program

namespace Job

/-- The evaluation of the program on a stack. -/
def evaluate (j : Job) (stack : Stack) : Evaluation :=
  BitcoinScript.evaluate j.checker j.flags j.program stack

/-- The state in which the run of the program ends. -/
def final (j : Job) (stack : Stack) : Machine.State :=
  (Machine.run ⟨j.flags, j.checker, j.program.bytes⟩ j.program.chunks { stack := stack }).state

/-- The stack that is left after some jobs, one after the other, whether they fail or not. -/
def stackAfter (jobs : List Job) (stack : Stack) : Stack :=
  jobs.foldl (fun s j => (j.evaluate s).stack) stack

theorem evaluate_sameBytes (j : Job) {s t : Stack} (h : List.Forall₂ Item.SameBytes s t) :
    (j.evaluate s).SameBytes (j.evaluate t) ∧
      List.Forall₂ Item.SameBytes (j.final s).altStack (j.final t).altStack := by
  have hstart : Machine.State.Related Item.SameBytes Eq { stack := s } { stack := t } :=
    ⟨h, .nil, rfl, rfl, rfl, rfl⟩
  obtain ⟨hfailure, hstate⟩ := Machine.run_sameBytes ⟨j.flags, j.checker, j.program.bytes⟩
    j.program.chunks hstart
  refine ⟨?_, hstate.altStack⟩
  unfold evaluate BitcoinScript.evaluate
  split
  · exact ⟨.error ⟨rfl, rfl, .nil, .nil, rfl⟩, h, rfl⟩
  · exact Evaluation.ofResult_sameBytes hfailure hstate

theorem stackAfter_sameBytes (jobs : List Job) {s t : Stack}
    (h : List.Forall₂ Item.SameBytes s t) :
    List.Forall₂ Item.SameBytes (stackAfter jobs s) (stackAfter jobs t) := by
  induction jobs generalizing s t with
  | nil => exact h
  | cons j jobs ih => exact ih (j.evaluate_sameBytes h).1.stack

end Job

/-- **The marks of items never matter.** On two stacks with pairwise the same bytes, every
evaluation asks the same, and gives the same answer or fails for the same reason at the same place;
the stacks left have pairwise the same bytes again. It makes no difference how many evaluations went
before on the two stacks. -/
theorem marks_never_matter {stack stack' : Stack} (h : List.Forall₂ Item.SameBytes stack stack')
    (before : List Job) (j : Job) :
    (j.evaluate (Job.stackAfter before stack)).SameBytes
        (j.evaluate (Job.stackAfter before stack')) ∧
      List.Forall₂ Item.SameBytes (j.final (Job.stackAfter before stack)).altStack
        (j.final (Job.stackAfter before stack')).altStack := by
  have hbefore := Job.stackAfter_sameBytes before h
  exact j.evaluate_sameBytes hbefore

/-- Tests two items for equality of their bytes. -/
def equalJob : Job := ⟨.absent, {}, ⟨[⟨.equal, none, 0⟩], [0x87]⟩⟩

/-- A derived number and a constant with the same byte are equal to the same items, and leave the
same answer to a second test. -/
theorem marks_never_matter_to_equal :
    List.Forall₂ Item.SameBytes [.ofInt 5 .derived, .literal [5], .literal [1]]
        [.literal [5], .ofInt 5 .derived, .ofBool true .derived] ∧
      (equalJob.evaluate (Job.stackAfter [equalJob]
          [.ofInt 5 .derived, .literal [5], .literal [1]])).SameBytes
        (equalJob.evaluate (Job.stackAfter [equalJob]
          [.literal [5], .ofInt 5 .derived, .ofBool true .derived])) := by
  have hsame : List.Forall₂ Item.SameBytes [.ofInt 5 .derived, .literal [5], .literal [1]]
      [.literal [5], .ofInt 5 .derived, .ofBool true .derived] :=
    .cons rfl (.cons rfl (.cons rfl .nil))
  exact ⟨hsame, (marks_never_matter hsame [equalJob] equalJob).1⟩

end BitcoinScript
