import BitcoinScript.Proofs.Machine.Admission
import BitcoinScript.Proofs.Machine.Lockstep
import BitcoinScript.Proofs.Machine.Operands
import BitcoinScript.Proofs.Machine.Reframe

/-!
# A return is final

What follows an executed `OP_RETURN` does not matter, and neither do the branches that are open
there: the script ends with the stack as it is once the limits are lifted, and fails before
(`evaluate_of_exit`).

The signed part of a script does reach past the return. So two scripts that agree up to there are
told apart by the questions they ask, and by nothing else if the checker does not look at the script
code (`Checker.IgnoresCode`): their machines stay `Alike` (`step_alike`), and so the scripts end in
the same way (`exit_is_final`).

The stacks are bounded after the return as after every operation. This can fail only if they were
too large from the start: every operation before has found them small enough, and the return leaves
them as they are.
-/

namespace BitcoinScript

/-- The checker answers for a signature and a key whatever script they sign. -/
def Checker.IgnoresCode (checker : Checker) : Prop :=
  ∀ sig key code code' flags,
    checker.checkSignature sig key code flags = checker.checkSignature sig key code' flags

namespace Machine

/-- The same machine on another script. -/
def Context.on (ctx : Context) (script : Bytes) : Context := { ctx with script := script }

@[simp] theorem Context.on_flags (ctx : Context) (script : Bytes) :
    (ctx.on script).flags = ctx.flags := rfl

@[simp] theorem Context.on_checker (ctx : Context) (script : Bytes) :
    (ctx.on script).checker = ctx.checker := rfl

@[simp] theorem Context.on_limits (ctx : Context) (script : Bytes) :
    (ctx.on script).limits = ctx.limits := rfl

/-! ## Two scripts in lockstep -/

section Lockstep

variable {ctx : Context} {s t u : State}

namespace Alike

theorem stack_eq (h : Alike s t) : t.stack = s.stack := by
  obtain ⟨calls, rfl⟩ := h
  rfl

theorem opCount_eq (h : Alike s t) : t.opCount = s.opCount := by
  obtain ⟨calls, rfl⟩ := h
  rfl

theorem executing_eq (h : Alike s t) : t.executing = s.executing := by
  obtain ⟨calls, rfl⟩ := h
  rfl

/-- The stack may be replaced in both. -/
theorem withStack (h : Alike s t) (stack : Stack) :
    Alike { s with stack := stack } { t with stack := stack } := by
  obtain ⟨calls, rfl⟩ := h
  exact ⟨calls, rfl⟩

theorem counted (h : Alike s t) (c : Chunk) :
    Alike (Machine.counted c s) (Machine.counted c t) := by
  obtain ⟨calls, rfl⟩ := h
  unfold Machine.counted
  split
  · exact ⟨calls, rfl⟩
  · exact ⟨calls, rfl⟩

end Alike

theorem checkBound_alike (h : Alike s t) (script : Bytes) :
    checkBound (ctx.on script) t = checkBound ctx s := by
  obtain ⟨calls, rfl⟩ := h
  rfl

theorem withStack_alike (h : Alike s t) (r : Except Reason Stack) :
    (s.withStack r).Matches Alike (t.withStack r) := by
  cases r with
  | error reason => exact .fail reason h
  | ok stack => exact .next (h.withStack stack)

theorem checkPair_onScript (hchecker : ctx.checker.IgnoresCode) (script code code' : Bytes)
    (sig key : Item) (h : Alike s t) :
    ∃ answer u v, checkPair ctx code sig key s = (answer, u) ∧
      checkPair (ctx.on script) code' sig key t = (answer, v) ∧ Alike u v := by
  have hanswer := hchecker sig.bytes key.bytes code' code ctx.flags
  simp only [checkPair, Context.on_flags, Context.on_checker, hanswer]
  split
  · exact ⟨_, s, t, rfl, rfl, h⟩
  · split
    · exact ⟨_, s, t, rfl, rfl, h⟩
    · split
      · exact ⟨_, s, t, rfl, rfl, h⟩
      · split
        · exact ⟨_, _, _, rfl, rfl, h.record _ _⟩
        · exact ⟨_, _, _, rfl, rfl, h.record _ _⟩

theorem matchKeys_onScript (hchecker : ctx.checker.IgnoresCode) (script code code' : Bytes)
    (sigs keys : List Item) (h : Alike s t) :
    ∃ answer u v, matchKeys ctx code sigs keys s = (answer, u) ∧
      matchKeys (ctx.on script) code' sigs keys t = (answer, v) ∧ Alike u v := by
  induction keys generalizing sigs s t with
  | nil => cases sigs <;> exact ⟨_, s, t, rfl, rfl, h⟩
  | cons key keys ih =>
      cases sigs with
      | nil => exact ⟨_, s, t, rfl, rfl, h⟩
      | cons sig sigs =>
          obtain ⟨answer, u, v, hs, ht, huv⟩ :=
            checkPair_onScript hchecker script code code' sig key h
          simp only [matchKeys, hs, ht]
          cases answer with
          | error reason => exact ⟨_, u, v, rfl, rfl, huv⟩
          | ok valid =>
              dsimp only
              generalize (if valid = true then sigs else sig :: sigs) = left
              split
              · exact ⟨_, u, v, rfl, rfl, huv⟩
              · exact ih left huv

theorem conclude_alike {op : Opcode} {required valid : Bool} {p : Provenance} {rest : Stack}
    (h : Alike s t) :
    (conclude op required valid p rest s).Matches Alike
      (conclude op required valid p rest t) :=
  conclude_matches (h.withStack _) (h.withStack _)

theorem checkSig_onScript (hchecker : ctx.checker.IgnoresCode) (script : Bytes) (required : Bool)
    (h : Alike s t) :
    (checkSig ctx required s).Matches Alike (checkSig (ctx.on script) required t) := by
  unfold checkSig
  rw [h.stack_eq]
  split
  · rename_i key sig rest hs
    obtain ⟨answer, u, v, hu, hv, huv⟩ := checkPair_onScript hchecker script
      (withoutSignatures (scriptCode ctx s) [sig])
      (withoutSignatures (scriptCode (ctx.on script) t) [sig]) sig key h
    rw [hu, hv]
    cases answer with
    | error reason => exact .fail reason huv
    | ok valid => exact conclude_alike huv
  · exact .fail _ h

theorem checkCounted_onScript (hchecker : ctx.checker.IgnoresCode) (script : Bytes)
    (required : Bool) (keyCount : Nat) (h : Alike s t) :
    (checkCounted ctx required keyCount s).Matches Alike
      (checkCounted (ctx.on script) required keyCount t) := by
  unfold checkCounted
  rw [h.stack_eq, h.opCount_eq, ctx.on_flags, ctx.on_limits]
  split
  · exact .fail _ h
  · split
    · exact .fail _ h
    · rename_i sigCount hsigs
      split
      · exact .fail _ h
      · rename_i dummy hdummy
        generalize (s.stack.drop (keyCount + 2)).take sigCount = sigs
        obtain ⟨answer, u, v, hu, hv, huv⟩ := matchKeys_onScript hchecker script
          (withoutSignatures (scriptCode ctx s) sigs)
          (withoutSignatures (scriptCode (ctx.on script) t) sigs) sigs
          ((s.stack.drop 1).take keyCount) h
        dsimp only
        rw [hu, hv]
        cases answer with
        | error reason => exact .fail reason huv
        | ok valid =>
            dsimp only
            split
            · exact .fail _ huv
            · exact conclude_alike huv

theorem checkMultiSig_onScript (hchecker : ctx.checker.IgnoresCode) (script : Bytes)
    (required : Bool) (h : Alike s t) :
    (checkMultiSig ctx required s).Matches Alike (checkMultiSig (ctx.on script) required t) := by
  have hcount : ∀ n, Alike (s.reframe s.branches n) (t.reframe t.branches n) := by
    obtain ⟨calls, rfl⟩ := h
    exact fun n => ⟨calls, rfl⟩
  rw [checkMultiSig_eq, checkMultiSig_eq, h.stack_eq, ctx.on_flags, ctx.on_limits]
  split
  · exact .fail _ h
  · rename_i keyCount hkeys
    exact checkCounted_onScript hchecker script required keyCount (hcount keyCount)

theorem upgradableNop_alike (flags : Flags) (op : Opcode) (h : Alike s t) :
    (upgradableNop flags op s).Matches Alike (upgradableNop flags op t) := by
  unfold upgradableNop
  split
  · exact .fail _ h
  · exact .next h

theorem lockTime_onScript (script : Bytes) (op : Opcode) (h : Alike s t) :
    (lockTime ctx op s).Matches Alike (lockTime (ctx.on script) op t) := by
  unfold lockTime
  rw [h.stack_eq, ctx.on_flags, ctx.on_checker]
  split
  · exact upgradableNop_alike ctx.flags op h
  · split
    · exact .fail _ h
    · split
      · exact .fail _ h
      · split
        · exact .fail _ h
        · dsimp only
          split
          · exact .next (h.record _ _)
          · exact .fail _ (h.record _ _)

theorem openBranch_alike (negated : Bool) (h : Alike s t) :
    (openBranch negated s).Matches Alike (openBranch negated t) := by
  unfold openBranch
  rw [h.stack_eq, h.executing_eq]
  obtain ⟨calls, rfl⟩ := h
  split
  · split
    · exact .fail _ ⟨calls, rfl⟩
    · exact .next ⟨calls, rfl⟩
  · exact .next ⟨calls, rfl⟩

theorem shift_alike (flags : Flags) (d : Direction) (h : Alike s t) :
    (shift flags d s).Matches Alike (shift flags d t) := by
  rw [shift_eq, shift_eq, h.stack_eq]
  split
  · exact .next (h.withStack _)
  · split
    · exact .fail _ (h.withStack _)
    · exact .fail _ h

theorem perform_alike (hchecker : ctx.checker.IgnoresCode) (script : Bytes) (c : Chunk)
    (h : Alike s t) : (perform ctx c s).Matches Alike (perform (ctx.on script) c t) := by
  have hsame := h
  obtain ⟨calls, rfl⟩ := h
  unfold perform
  cases c.opcode.operation with
  | bad => exact .fail _ hsame
  | smallInt n => exact .next ⟨calls, rfl⟩
  | nop => exact .next hsame
  | depth => exact .next ⟨calls, rfl⟩
  | codeSeparator => exact .next ⟨calls, rfl⟩
  | checkSig required => exact checkSig_onScript hchecker script required hsame
  | upgradableNop => exact upgradableNop_alike ctx.flags c.opcode hsame
  | lockTime => exact lockTime_onScript script c.opcode hsame
  | openBranch negated => exact openBranch_alike negated hsame
  | turnBranch =>
      dsimp only [turnBranch]
      split
      · exact .fail _ hsame
      · exact .next ⟨calls, rfl⟩
  | closeBranch =>
      dsimp only [closeBranch]
      split
      · exact .fail _ hsame
      · exact .next ⟨calls, rfl⟩
  | exit =>
      dsimp only [exit, Context.on_flags]
      split
      · exact .done hsame
      · exact .fail _ hsame
  | toAlt =>
      dsimp only [toAlt]
      split
      · exact .fail _ hsame
      · exact .next ⟨calls, rfl⟩
  | fromAlt =>
      dsimp only [fromAlt]
      split
      · exact .fail _ hsame
      · exact .next ⟨calls, rfl⟩
  | shift d => exact shift_alike ctx.flags d hsame
  | checkMultiSig required => exact checkMultiSig_onScript hchecker script required hsame
  | _ => exact withStack_alike hsame _

theorem execute_alike (hchecker : ctx.checker.IgnoresCode) (script : Bytes) (c : Chunk)
    (h : Alike s t) : (execute ctx c s).Matches Alike (execute (ctx.on script) c t) := by
  unfold execute isPerformed
  rw [h.executing_eq, h.stack_eq, ctx.on_flags]
  split
  · split
    · split
      · exact .fail _ h
      · exact .next (h.withStack _)
    · exact .next h
  · split
    · exact perform_alike hchecker script c h
    · exact .next h

/-- A step that lets one script go on lets the other one go on, to a state that is again alike. -/
theorem step_alike (hchecker : ctx.checker.IgnoresCode) (script : Bytes) {c : Chunk}
    (h : Alike s t) (hnext : step ctx c s = .next u) :
    ∃ v, step (ctx.on script) c t = .next v ∧ Alike u v := by
  obtain ⟨hlong, hdisabled, hcount, hexecute, hbound⟩ := step_eq_next_iff.mp hnext
  have hmatches := execute_alike hchecker script c (h.counted c)
  rw [hexecute] at hmatches
  generalize hother : execute (ctx.on script) c (Machine.counted c t) = o at hmatches
  cases hmatches with
  | @next _ v huv =>
      refine ⟨v, step_eq_next_iff.mpr ⟨hlong, hdisabled, ?_, hother, ?_⟩, huv⟩
      · rw [h.opCount_eq]
        exact hcount
      · rw [checkBound_alike huv]
        exact hbound

theorem after?_alike (hchecker : ctx.checker.IgnoresCode) (script : Bytes) {cs : List Chunk}
    (h : Alike s t) (hcs : after? ctx cs s = some u) :
    ∃ v, after? (ctx.on script) cs t = some v ∧ Alike u v := by
  induction cs generalizing s t with
  | nil =>
      cases hcs
      exact ⟨t, rfl, h⟩
  | cons c rest ih =>
      obtain ⟨w, hw, hrest⟩ := exists_next_of_after?_cons hcs
      obtain ⟨w', hw', hww'⟩ := step_alike hchecker script h hw
      rw [after?_cons hw']
      exact ih hww' hrest

/-- What one script executes, another one executes that agrees with it up to there. -/
theorem executes_alike (hchecker : ctx.checker.IgnoresCode) (script : Bytes)
    {cs cs' : List Chunk} {start : State} {n : Nat} {c : Chunk}
    (hagree : cs'.take (n + 1) = cs.take (n + 1)) (h : Executes ctx cs start n c s) :
    ∃ t, Executes (ctx.on script) cs' start n c t ∧ Alike s t := by
  obtain ⟨⟨hc, hs⟩, hpayload, hexecuting, haccepted⟩ := h
  obtain ⟨t, ht, hst⟩ := after?_alike hchecker script (.refl start) hs
  obtain ⟨hlong, hdisabled, hcount, -⟩ := accept_eq_ok_iff.mp haccepted
  have hc' : cs'[n]? = some c := by
    rw [← hc, ← List.getElem?_take_of_lt (Nat.lt_succ_self n), hagree,
      List.getElem?_take_of_lt (Nat.lt_succ_self n)]
  have htake : cs'.take n = cs.take n := by
    have hcut := congrArg (List.take n) hagree
    rwa [List.take_take, List.take_take, Nat.min_eq_left (Nat.le_succ n)] at hcut
  refine ⟨t, ⟨⟨hc', htake ▸ ht⟩, hpayload, hst.executing_eq.trans hexecuting, ?_⟩, hst⟩
  refine accept_eq_ok_iff.mpr ⟨hlong, hdisabled, ?_, rfl⟩
  rw [hst.opCount_eq]
  exact hcount

end Lockstep

/-! ## The return -/

section Exit

variable {ctx : Context} {cs : List Chunk} {start s : State} {n : Nat} {c : Chunk}

theorem counted_memory (c : Chunk) (s : State) : (Machine.counted c s).memory = s.memory := by
  rw [State.memory, State.memory, counted_stack, counted_altStack]

theorem checkBound_of_genesis (hg : ctx.flags.genesis = true) (s : State) :
    checkBound ctx s = if s.memory > 100000000 then .error .stackMemory else .ok () := by
  unfold checkBound Context.limits Flags.limits
  simp only [hg, if_true, Limits.lifted]

/-- An executed return leaves the stacks as they are, whatever it comes to. -/
theorem step_of_exit (h : Executes ctx cs start n c s) (hc : c.opcode = .exit) :
    step ctx c s =
      if ctx.flags.genesis then
        if s.memory > 100000000 then .fail .stackMemory (counted c s) else .done (counted c s)
      else .fail .opReturn (counted c s) := by
  have hoperation : c.opcode.operation = .exit := by
    rw [hc]
    rfl
  have hperformed : isPerformed c (counted c s) = true := by
    rw [isPerformed, counted_executing, h.executing, Bool.true_or]
  simp only [step, h.accepted, execute, h.payload, hperformed, if_true, perform, hoperation, exit]
  cases hg : ctx.flags.genesis with
  | false => rfl
  | true =>
      simp only [if_true, bounded, checkBound_of_genesis hg, counted_memory]
      by_cases hmemory : s.memory > 100000000
      · simp only [if_pos hmemory]
      · simp only [if_neg hmemory]

/-- The stacks are within their memory after every operation. -/
theorem memory_le_of_reaches (hg : ctx.flags.genesis = true) (h : Reaches ctx cs start n c s)
    (hn : n ≠ 0) : s.memory ≤ 100000000 := by
  obtain ⟨m, rfl⟩ := Nat.exists_eq_succ_of_ne_zero hn
  obtain ⟨hc, hs⟩ := h
  have hlt : m < cs.length := by
    have hbound := (List.getElem?_eq_some_iff.mp hc).1
    omega
  obtain ⟨t, -, hnext⟩ := exists_step_of_after?_take (List.getElem?_eq_getElem hlt) hs
  exact memory_le_of_checkBound hg (step_eq_next_iff.mp hnext).2.2.2.2

end Exit

end Machine

open Machine

/-- What a script comes to whose return `c` is executed in the state `s`. -/
def outcomeAtExit (flags : Flags) (c : Chunk) (s : State) : Except Failure Bool :=
  if flags.genesis then
    if s.memory > 100000000 then
      .error ⟨.stackMemory, some (c.opcode, c.offset), s.stack, s.altStack, s.opCount + 1⟩
    else .ok (topIsTrue s.stack)
  else .error ⟨.opReturn, some (c.opcode, c.offset), s.stack, s.altStack, s.opCount + 1⟩

section Programs

variable {checker : Checker} {flags : Flags} {p : Program} {stack : Stack} {n : Nat} {c : Chunk}
  {s : State}

/-- A script ends with its first executed return, and leaves the stack as it is there. -/
theorem evaluate_of_exit (hsize : p.size ≤ flags.limits.scriptSize)
    (h : Executes ⟨flags, checker, p.bytes⟩ p.chunks { stack := stack } n c s)
    (hc : c.opcode = .exit) :
    (evaluate checker flags p stack).outcome = outcomeAtExit flags c s ∧
      (evaluate checker flags p stack).stack = s.stack := by
  obtain ⟨rest, hrun⟩ := exists_run_of_reaches h.reaches
  have hstep := step_of_exit h hc
  have hcounted : Machine.counted c s = { s with opCount := s.opCount + 1 } := by
    unfold Machine.counted
    rw [hc]
    rfl
  rw [hcounted] at hstep
  rw [evaluate_eq hsize, hrun]
  unfold outcomeAtExit
  cases hg : flags.genesis with
  | false =>
      simp only [hg, Bool.false_eq_true, if_false] at hstep
      rw [run_cons_fail hstep]
      exact ⟨rfl, rfl⟩
  | true =>
      simp only [hg, if_true] at hstep
      by_cases hmemory : s.memory > 100000000
      · rw [if_pos hmemory] at hstep
        rw [run_cons_fail hstep, if_pos rfl, if_pos hmemory]
        exact ⟨rfl, rfl⟩
      · rw [if_neg hmemory] at hstep
        simp only [run, hstep, if_true, if_neg hmemory]
        exact ⟨rfl, rfl⟩

/-- **A return is final.** Let a return be executed in a script. Every script that agrees with it up
to there comes to the same and leaves the same stack, which is that at the return, whatever follows
and whatever branches are open. Once the limits are lifted, this is a success, unless the return is
the first operation and the stack exceeded its memory from the start. Before, it is the failure of
the return. -/
theorem exit_is_final (hchecker : checker.IgnoresCode) {p' : Program}
    (hsize : p.size ≤ flags.limits.scriptSize) (hsize' : p'.size ≤ flags.limits.scriptSize)
    (hagree : p'.chunks.take (n + 1) = p.chunks.take (n + 1))
    (h : Executes ⟨flags, checker, p.bytes⟩ p.chunks { stack := stack } n c s)
    (hc : c.opcode = .exit) :
    (evaluate checker flags p' stack).outcome = (evaluate checker flags p stack).outcome ∧
      (evaluate checker flags p' stack).stack = (evaluate checker flags p stack).stack ∧
      (evaluate checker flags p stack).stack = s.stack ∧
      (flags.genesis = true → n ≠ 0 ∨ Stack.memory stack ≤ 100000000 →
        (evaluate checker flags p stack).outcome = .ok (topIsTrue s.stack)) ∧
      (flags.genesis = true → n = 0 → 100000000 < Stack.memory stack →
        ∃ f, (evaluate checker flags p stack).outcome = .error f ∧ f.reason = .stackMemory ∧
          f.location = some (.exit, c.offset)) ∧
      (flags.genesis = false →
        ∃ f, (evaluate checker flags p stack).outcome = .error f ∧ f.reason = .opReturn ∧
          f.location = some (.exit, c.offset)) := by
  obtain ⟨t, ht, hst⟩ := executes_alike hchecker p'.bytes hagree h
  obtain ⟨houtcome, hstack⟩ := evaluate_of_exit hsize h hc
  obtain ⟨houtcome', hstack'⟩ := evaluate_of_exit (p := p') hsize' ht hc
  have hsame : outcomeAtExit flags c t = outcomeAtExit flags c s := by
    obtain ⟨calls, rfl⟩ := hst
    rfl
  have hstart : n = 0 → s.memory = Stack.memory stack := by
    rintro rfl
    cases h.reaches.2
    rfl
  rw [houtcome, houtcome', hsame, hstack, hstack', hst.stack_eq]
  refine ⟨rfl, rfl, rfl, ?_, ?_, ?_⟩
  · intro hg hroom
    have hmemory : ¬ s.memory > 100000000 := by
      by_cases hn : n = 0
      · rw [hstart hn]
        omega
      · exact Nat.not_lt.mpr (memory_le_of_reaches hg h.reaches hn)
    rw [outcomeAtExit, hg, if_pos rfl, if_neg hmemory]
  · intro hg hn hover
    have hmemory : s.memory > 100000000 := by
      rw [hstart hn]
      exact hover
    rw [outcomeAtExit, hg, if_pos rfl, if_pos hmemory]
    exact ⟨_, rfl, rfl, by rw [hc]⟩
  · intro hg
    rw [outcomeAtExit, hg, if_neg Bool.false_ne_true]
    exact ⟨_, rfl, rfl, by rw [hc]⟩

end Programs

/-- The program `1 IF RETURN ENDIF`. -/
def closedExit : Program where
  chunks := [⟨.one, none, 0⟩, ⟨.ifTrue, none, 1⟩, ⟨.exit, none, 2⟩, ⟨.endIf, none, 3⟩]
  bytes := [0x51, 0x63, 0x6a, 0x68]

/-- The program `1 IF RETURN 2MUL`. -/
def openExit : Program where
  chunks := [⟨.one, none, 0⟩, ⟨.ifTrue, none, 1⟩, ⟨.exit, none, 2⟩, ⟨⟨0x8d⟩, none, 3⟩]
  bytes := [0x51, 0x63, 0x6a, 0x8d]

/-- Inside a branch, a return before an operation that no rules allow is as good as one before the
end of the branch. -/
theorem exit_is_final_in_branch :
    Checker.absent.IgnoresCode ∧
      Executes ⟨{ genesis := true }, .absent, closedExit.bytes⟩ closedExit.chunks
        { stack := [.literal [1]] } 2 ⟨.exit, none, 2⟩
        { stack := [.literal [1]], branches := [true], opCount := 1 } ∧
      (evaluate .absent { genesis := true } openExit [.literal [1]]).outcome =
        (evaluate .absent { genesis := true } closedExit [.literal [1]]).outcome := by
  have hchecker : Checker.absent.IgnoresCode := fun _ _ _ _ _ => rfl
  have hexecutes : Executes ⟨{ genesis := true }, .absent, closedExit.bytes⟩ closedExit.chunks
      { stack := [.literal [1]] } 2 ⟨.exit, none, 2⟩
      { stack := [.literal [1]], branches := [true], opCount := 1 } :=
    ⟨⟨rfl, rfl⟩, rfl, rfl, rfl⟩
  have hsize : closedExit.size ≤ ({ genesis := true } : Flags).limits.scriptSize := by decide
  have hsize' : openExit.size ≤ ({ genesis := true } : Flags).limits.scriptSize := by decide
  exact ⟨hchecker, hexecutes, (exit_is_final hchecker hsize hsize' rfl hexecutes rfl).1⟩

/-- The program `RETURN`. -/
def loneExit : Program where
  chunks := [⟨.exit, none, 0⟩]
  bytes := [0x6a]

/-- On a stack that exceeds its memory from the start, a return is executed and no success. -/
theorem loneExit_over_budget {stack : Stack} (h : 100000000 < Stack.memory stack) :
    Executes ⟨{ genesis := true }, .absent, loneExit.bytes⟩ loneExit.chunks { stack := stack } 0
        ⟨.exit, none, 0⟩ { stack := stack } ∧
      ¬ ∃ b, (evaluate .absent { genesis := true } loneExit stack).outcome = .ok b := by
  have hsize : loneExit.size ≤ ({ genesis := true } : Flags).limits.scriptSize := by decide
  have hroom : 0 < Limits.wordMax := by decide
  have hexecutes : Executes ⟨{ genesis := true }, .absent, loneExit.bytes⟩ loneExit.chunks
      { stack := stack } 0 ⟨.exit, none, 0⟩ { stack := stack } :=
    ⟨⟨rfl, rfl⟩, rfl, rfl, accept_eq_ok_iff.mpr ⟨rfl, rfl, fun _ => hroom, rfl⟩⟩
  refine ⟨hexecutes, ?_⟩
  rintro ⟨b, hb⟩
  have hover : ({ stack := stack } : State).memory > 100000000 := h
  rw [(evaluate_of_exit hsize hexecutes rfl).1, outcomeAtExit, if_pos rfl, if_pos hover] at hb
  cases hb

/-- A number of zero bytes. -/
def zeroBytes (n : Nat) : Item := ⟨.zeros n, .int, .literal⟩

theorem cost_zeroBytes (n : Nat) : Stack.cost (zeroBytes n) = 32 + n := by
  have hsize : (Packed.zeros n).size = n := by
    rw [← Packed.length_bytes, Packed.bytes_zeros, List.length_replicate]
  exact congrArg (32 + ·) hsize

/-- A stack that exceeds its memory by 33 bytes. -/
def overBudget : Stack := [.ofInt 1 .literal, zeroBytes 99999968]

theorem memory_overBudget : Stack.memory overBudget = 100000033 := by
  rw [overBudget, Stack.memory_cons, Stack.memory_cons, cost_zeroBytes]
  rfl

/-- On this stack the script `RETURN` executes its return, and does not succeed: the stacks are
checked after every operation, and after a return too. -/
theorem exit_over_budget :
    Checker.absent.IgnoresCode ∧
      Executes ⟨{ genesis := true }, .absent, loneExit.bytes⟩ loneExit.chunks
        { stack := overBudget } 0 ⟨.exit, none, 0⟩ { stack := overBudget } ∧
      ¬ ∃ b, (evaluate .absent { genesis := true } loneExit overBudget).outcome = .ok b := by
  have hover : 100000000 < Stack.memory overBudget := by
    rw [memory_overBudget]
    decide
  exact ⟨fun _ _ _ _ _ => rfl, loneExit_over_budget hover⟩

end BitcoinScript
