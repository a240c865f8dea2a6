import BitcoinScript.Proofs.Machine.Branches
import BitcoinScript.Proofs.Machine.Limits
import BitcoinScript.Proofs.Program.Framing

/-!
# What success says about the script

The machine checks a script chunk by chunk while it runs, in skipped code as well. A run that comes
to the end has therefore checked the text of the script, whatever branches the data has picked
(`admissible_of_success`): all pushes are short enough, all opcodes are enabled and few enough, and
the conditionals are nested.

The nesting is read off the open branches. In every state of a run, the number of them is the
nesting of the chunks passed so far (`after?_nesting`), hence the number of conditionals opened and
not closed.
-/

namespace BitcoinScript

/-- Ends the script, or makes it fail: `OP_RETURN`. -/
def Opcode.exit : Opcode := ⟨0x6a⟩

/-- The number of chunks that open a branch. -/
def openers (cs : List Chunk) : Nat :=
  cs.countP fun c => c.opcode == .ifTrue || c.opcode == .ifFalse

/-- The number of chunks that close a branch. -/
def closers (cs : List Chunk) : Nat := cs.countP fun c => c.opcode == .endIf

theorem openers_append (a b : List Chunk) : openers (a ++ b) = openers a + openers b :=
  List.countP_append

theorem closers_append (a b : List Chunk) : closers (a ++ b) = closers a + closers b :=
  List.countP_append

/-- A well-formed chunk is the bracket that its opcode is. -/
theorem Chunk.bracket_eq {c : Chunk} (hc : c.WellFormed) : c.bracket = c.opcode.bracket := by
  unfold bracket
  split
  · rename_i data hpayload
    have hpush : c.opcode.isPush = true := by
      simp only [WellFormed, hpayload] at hc
      exact hc.1
    rcases c.opcode.bracket_cases with hop | hop | hop | hop | hplain
    · rw [hop] at hpush
      cases hpush
    · rw [hop] at hpush
      cases hpush
    · rw [hop] at hpush
      cases hpush
    · rw [hop] at hpush
      cases hpush
    · exact hplain.symm
  · rfl

/-- A chunk deepens the nesting by the branches it opens, less those it closes. -/
theorem Chunk.nest_counts {c : Chunk} (hc : c.WellFormed) {d e : Nat} (h : c.nest d = some e) :
    e + closers [c] = d + openers [c] := by
  obtain ⟨opcode, payload, offset⟩ := c
  rcases opcode.bracket_cases with rfl | rfl | rfl | rfl | hplain
  · obtain rfl : payload = none := payload_eq_none hc rfl
    cases h
    rfl
  · obtain rfl : payload = none := payload_eq_none hc rfl
    cases h
    rfl
  · obtain rfl : payload = none := payload_eq_none hc rfl
    cases d with
    | zero => cases h
    | succ d =>
        cases h
        rfl
  · obtain rfl : payload = none := payload_eq_none hc rfl
    cases d with
    | zero => cases h
    | succ d =>
        cases h
        rfl
  · have hne : ∀ op : Opcode, op.bracket ≠ .plain → (opcode == op) = false := by
      intro op hop
      refine beq_eq_false_iff_ne.mpr ?_
      rintro rfl
      exact hop hplain
    have hnest : nest ⟨opcode, payload, offset⟩ d = some d := by
      simp only [nest, bracket_eq hc, hplain]
    rw [hnest, Option.some.injEq] at h
    rw [closers, openers, List.countP_singleton, List.countP_singleton,
      hne .ifTrue Bracket.noConfusion, hne .ifFalse Bracket.noConfusion,
      hne .endIf Bracket.noConfusion, h]
    rfl

theorem nesting_counts {cs : List Chunk} (hcs : ∀ c ∈ cs, c.WellFormed) {d e : Nat}
    (h : nesting cs d = some e) : e + closers cs = d + openers cs := by
  induction cs generalizing d with
  | nil =>
      cases h
      rfl
  | cons c rest ih =>
      obtain ⟨n, hn, hrest⟩ := exists_nest_of_nesting_cons h
      have hfirst := Chunk.nest_counts (hcs c List.mem_cons_self) hn
      have hothers := ih (fun x hx => hcs x (List.mem_cons_of_mem c hx)) hrest
      have hclosers : closers (c :: rest) = closers [c] + closers rest := closers_append [c] rest
      have hopeners : openers (c :: rest) = openers [c] + openers rest := openers_append [c] rest
      omega

namespace Machine

variable {ctx : Context} {c : Chunk} {s t : State} {cs : List Chunk}

/-! ## Open branches are the nesting -/

theorem perform_branches (hplain : isBranching c.opcode.operation = false) :
    (perform ctx c s).Ensures fun t => t.branches = s.branches := by
  -- the branches around the operation are a frame of its state
  rcases perform_reframe s.branches 0 ctx s hplain with hself | ⟨u, hfail⟩
  · rw [State.reframe_self] at hself
    cases hperform : perform ctx c s with
    | next u =>
        rw [hperform, Outcome.map, Outcome.next.injEq] at hself
        show u.branches = s.branches
        rw [hself, State.reframe_branches]
    | done u =>
        rw [hperform, Outcome.map, Outcome.done.injEq] at hself
        show u.branches = s.branches
        rw [hself, State.reframe_branches]
    | fail reason u => trivial
  · rw [State.reframe_self] at hfail
    rw [hfail]
    trivial

theorem execute_plain_branches (hplain : c.bracket = .plain) :
    (execute ctx c s).Ensures fun t => t.branches = s.branches := by
  rcases execute_cases ctx c s with ⟨hpayload, -, hsame⟩ | ⟨stack, hnext⟩ | ⟨reason, hfail⟩
  · simp only [Chunk.bracket, hpayload] at hplain
    rw [hsame]
    exact perform_branches (Opcode.isBranching_of_plain hplain)
  · rw [hnext]
    rfl
  · rw [hfail]
    trivial

/-- A chunk that does not fail nests. -/
theorem execute_nest (ctx : Context) (c : Chunk) (s : State) :
    (execute ctx c s).Ensures fun t => c.nest s.branches.length = some t.branches.length := by
  cases hb : c.bracket with
  | plain =>
      refine (execute_plain_branches hb).mono ?_
      intro t ht
      simp only [Chunk.nest, hb, ht]
  | opens negated =>
      rw [execute_of_bracket hb rfl]
      simp only [Chunk.nest, hb]
      unfold openBranch
      split
      · split
        · trivial
        · rfl
      · rfl
  | turns =>
      rw [execute_of_bracket hb rfl]
      unfold turnBranch
      split
      · trivial
      · rename_i b rest hbranches
        simp only [Outcome.Ensures, Chunk.nest, hb, hbranches, List.length_cons]
  | closes =>
      rw [execute_of_bracket hb rfl]
      unfold closeBranch
      split
      · trivial
      · rename_i b rest hbranches
        simp only [Outcome.Ensures, Chunk.nest, hb, hbranches, List.length_cons]

theorem step_nest (ctx : Context) (c : Chunk) (s : State) :
    (step ctx c s).Ensures fun t => c.nest s.branches.length = some t.branches.length := by
  refine step_ensures ?_ (fun t ht _ => ht)
  intro t ht
  obtain ⟨-, -, -, rfl⟩ := accept_eq_ok_iff.mp ht
  have hnest := execute_nest ctx c (counted c s)
  rw [counted_branches] at hnest
  exact hnest

/-- In every state of a run, the open branches are as many as the nesting of the chunks passed. -/
theorem after?_nesting (h : after? ctx cs s = some t) :
    nesting cs s.branches.length = some t.branches.length := by
  induction cs generalizing s with
  | nil =>
      cases h
      rfl
  | cons c rest ih =>
      obtain ⟨u, hu, hrest⟩ := exists_next_of_after?_cons h
      have hnest := step_nest ctx c s
      rw [hu] at hnest
      rw [nesting, show c.nest s.branches.length = some u.branches.length from hnest]
      exact ih hrest

/-! ## Chunks that let the script go on -/

/-- What every chunk of a script that comes to its end satisfies. -/
structure Admits (flags : Flags) (c : Chunk) : Prop where
  payload_le : ∀ data, c.payload = some data → data.length ≤ flags.limits.elementSize
  enabled : c.opcode.isDisabled flags = false
  ne_verIf : c.opcode ≠ .verIf
  ne_verNotIf : c.opcode ≠ .verNotIf

/-- Conditionals without a meaning are performed, and fail, in skipped code as well. -/
theorem execute_of_bad_conditional (hpayload : c.payload = none)
    (hconditional : c.opcode.isConditional = true) (hbad : c.opcode.operation = .bad) :
    execute ctx c s = .fail (.badOpcode c.opcode) s := by
  rw [execute_of_conditional hpayload hconditional, perform, hbad]

theorem step_admits (hc : c.WellFormed) (h : step ctx c s = .next t) : Admits ctx.flags c := by
  obtain ⟨hlong, hdisabled, -, hexecute, -⟩ := step_eq_next_iff.mp h
  have hgood : c.opcode.isConditional = true → c.opcode.isPush = false →
      c.opcode.operation ≠ .bad := by
    intro hconditional hpush hbad
    rw [execute_of_bad_conditional (Chunk.payload_eq_none hc hpush) hconditional hbad] at hexecute
    cases hexecute
  refine ⟨?_, hdisabled, ?_, ?_⟩
  · intro data hdata
    simp only [isTooLong, hdata, decide_eq_false_iff_not] at hlong
    exact Nat.not_lt.mp hlong
  · intro hop
    rw [hop] at hgood
    exact hgood rfl rfl rfl
  · intro hop
    rw [hop] at hgood
    exact hgood rfl rfl rfl

theorem opCount_le_execute (ctx : Context) (c : Chunk) (s : State) :
    s.opCount ≤ (execute ctx c s).state.opCount := by
  rcases execute_cases ctx c s with ⟨-, -, hsame⟩ | ⟨stack, hnext⟩ | ⟨reason, hfail⟩
  · rw [hsame]
    exact opCount_le_perform ctx c s
  · rw [hnext]
    exact Nat.le_refl _
  · rw [hfail]
    exact Nat.le_refl _

theorem step_charged (h : step ctx c s = .next t) : s.opCount + charged [c] ≤ t.opCount := by
  obtain ⟨-, -, -, hexecute, -⟩ := step_eq_next_iff.mp h
  have hle := opCount_le_execute ctx c (counted c s)
  rw [hexecute, Outcome.state_next, counted_eq_reframe, State.reframe_opCount] at hle
  rw [charged, List.countP_singleton]
  exact hle

/-- The chunks of a run that goes on to their end are admitted, and charged for. -/
theorem after?_admits (hcs : ∀ c ∈ cs, c.WellFormed) (h : after? ctx cs s = some t) :
    (∀ c ∈ cs, Admits ctx.flags c) ∧ s.opCount + charged cs ≤ t.opCount := by
  induction cs generalizing s with
  | nil =>
      cases h
      refine ⟨?_, Nat.le_refl _⟩
      intro c hc
      cases hc
  | cons c rest ih =>
      obtain ⟨u, hu, hrest⟩ := exists_next_of_after?_cons h
      have hfirst := step_admits (hcs c List.mem_cons_self) hu
      have hcharged := step_charged hu
      obtain ⟨hothers, hsum⟩ := ih (fun x hx => hcs x (List.mem_cons_of_mem c hx)) hrest
      have hcons : charged (c :: rest) = charged [c] + charged rest := charged_append [c] rest
      exact ⟨List.forall_mem_cons.mpr ⟨hfirst, hothers⟩, by omega⟩

/-! ## Ends of a run -/

theorem shift_ne_done (flags : Flags) (d : Direction) (s t : State) :
    shift flags d s ≠ .done t := by
  unfold shift
  split
  · exact Outcome.noConfusion
  · split
    · exact Outcome.noConfusion
    · split
      · exact Outcome.noConfusion
      · split <;> exact Outcome.noConfusion

theorem conclude_ne_done (op : Opcode) (required valid : Bool) (p : Provenance) (rest : Stack)
    (s t : State) : conclude op required valid p rest s ≠ .done t := by
  unfold conclude
  split
  · split <;> exact Outcome.noConfusion
  · exact Outcome.noConfusion

theorem checkSig_ne_done (ctx : Context) (required : Bool) (s t : State) :
    checkSig ctx required s ≠ .done t := by
  unfold checkSig
  split
  · split
    · exact Outcome.noConfusion
    · exact conclude_ne_done _ _ _ _ _ _ t
  · exact Outcome.noConfusion

theorem checkMultiSig_ne_done (ctx : Context) (required : Bool) (s t : State) :
    checkMultiSig ctx required s ≠ .done t := by
  unfold checkMultiSig
  split
  · exact Outcome.noConfusion
  · dsimp only
    split
    · exact Outcome.noConfusion
    · split
      · exact Outcome.noConfusion
      · split
        · exact Outcome.noConfusion
        · split
          · exact Outcome.noConfusion
          · split
            · exact Outcome.noConfusion
            · exact conclude_ne_done _ _ _ _ _ _ t

/-- Only one operation ends a script, and only once the limits are lifted. -/
theorem perform_done (h : perform ctx c s = .done t) :
    c.opcode.operation = .exit ∧ ctx.flags.genesis = true := by
  by_cases hshift : ∃ d, c.opcode.operation = .shift d
  · obtain ⟨d, hop⟩ := hshift
    rw [perform, hop] at h
    exact absurd h (shift_ne_done ctx.flags d s t)
  cases hlocal : isLocal c.opcode.operation with
  | true =>
      rcases perform_local_cases ctx s hlocal (fun d hd => hshift ⟨d, hd⟩) with
        ⟨u, hnext⟩ | ⟨e, hfail⟩ | ⟨hop, hg, -⟩
      · rw [h] at hnext
        cases hnext
      · rw [h] at hfail
        cases hfail
      · exact ⟨hop, hg⟩
  | false =>
      unfold perform at h
      cases hop : c.opcode.operation with
      | lockTime =>
          rw [hop] at h
          exact absurd h (lockTime_ne_done ctx c.opcode s t)
      | codeSeparator => rw [hop] at h; cases h
      | checkSig required =>
          rw [hop] at h
          exact absurd h (checkSig_ne_done ctx required s t)
      | checkMultiSig required =>
          rw [hop] at h
          exact absurd h (checkMultiSig_ne_done ctx required s t)
      | _ => rw [hop] at hlocal; cases hlocal

theorem execute_done (h : execute ctx c s = .done t) :
    c.opcode = .exit ∧ s.executing = true ∧ ctx.flags.genesis = true := by
  rcases execute_cases ctx c s with ⟨-, hperformed, hsame⟩ | ⟨stack, hnext⟩ | ⟨reason, hfail⟩
  · rw [hsame] at h
    obtain ⟨hop, hg⟩ := perform_done h
    have hexit : c.opcode = .exit :=
      Opcode.of_operation (P := fun op => op = .exit) hop rfl (by decide)
    refine ⟨hexit, ?_, hg⟩
    -- it is no conditional, so it is not looked at in skipped code
    rw [isPerformed, hexit] at hperformed
    exact (Bool.or_eq_true_iff.mp hperformed).resolve_right Bool.false_ne_true
  · rw [h] at hnext
    cases hnext
  · rw [h] at hfail
    cases hfail

theorem step_done (h : step ctx c s = .done t) :
    c.opcode = .exit ∧ s.executing = true ∧ ctx.flags.genesis = true := by
  unfold step at h
  split at h
  · cases h
  · rename_i u hu
    obtain ⟨-, -, -, rfl⟩ := accept_eq_ok_iff.mp hu
    cases hexecute : execute ctx c (counted c s) with
    | fail reason u =>
        rw [hexecute] at h
        cases h
    | next u =>
        rw [hexecute, bounded] at h
        split at h <;> cases h
    | done u =>
        have hdone := execute_done hexecute
        rw [counted_executing] at hdone
        exact hdone

/-- The run from `start` comes to an operation that ends the script, outside of skipped code. -/
def ExitExecuted (ctx : Context) (cs : List Chunk) (start : State) : Prop :=
  ∃ n c s, Reaches ctx cs start n c s ∧ c.opcode = .exit ∧ s.executing = true

/-- A run that does not fail goes on through all chunks and closes all branches, or it is ended by
an operation. -/
theorem run_success (h : (run ctx cs s).failure = none) :
    (∃ t, after? ctx cs s = some t ∧ t.branches = []) ∨
      ctx.flags.genesis = true ∧ ExitExecuted ctx cs s := by
  induction cs generalizing s with
  | nil =>
      simp only [run] at h
      split at h
      · rename_i hempty
        exact Or.inl ⟨s, rfl, List.isEmpty_iff.mp hempty⟩
      · cases h
  | cons c rest ih =>
      simp only [run] at h
      split at h
      · rename_i t ht
        rcases ih h with ⟨u, hu, hclosed⟩ | ⟨hg, n, d, u, ⟨hd, hu⟩, hexit⟩
        · exact Or.inl ⟨u, by rw [after?_cons ht, hu], hclosed⟩
        · refine Or.inr ⟨hg, n + 1, d, u, ⟨hd, ?_⟩, hexit⟩
          rw [List.take_succ_cons, after?_cons ht, hu]
      · rename_i t ht
        obtain ⟨hop, hexecuting, hg⟩ := step_done ht
        exact Or.inr ⟨hg, 0, c, s, ⟨rfl, rfl⟩, hop, hexecuting⟩
      · cases h

end Machine

open Machine

/-! ## Programs -/

/-- What can be said of a program without running it: it and its pushes are short enough, no opcode
is disabled or fails wherever it stands, few enough are counted, and the conditionals are nested. -/
structure Program.Admissible (flags : Flags) (p : Program) : Prop where
  size_le : p.size ≤ flags.limits.scriptSize
  chunks_admitted : ∀ c ∈ p.chunks, Admits flags c
  charged_le : charged p.chunks ≤ flags.limits.operations
  balanced : Balanced p.chunks

theorem admissible_of_after? {script : Bytes} {p : Program} (hp : Program.parse script = .ok p)
    {checker : Checker} {flags : Flags} {stack : Stack} {t : State}
    (hsize : p.size ≤ flags.limits.scriptSize)
    (h : after? ⟨flags, checker, p.bytes⟩ p.chunks { stack := stack } = some t)
    (hclosed : t.branches = []) : p.Admissible flags := by
  obtain ⟨hadmits, hcharged⟩ := after?_admits (Program.wellFormed_of_parse hp) h
  have hcount : t.opCount ≤ flags.limits.operations :=
    after?_invariant (P := fun s => s.opCount ≤ flags.limits.operations)
      (fun c _ s hs => step_opCount c hs) (Nat.zero_le _) h
  have hnesting := after?_nesting h
  rw [hclosed] at hnesting
  refine ⟨hsize, hadmits, ?_, hnesting⟩
  dsimp only at hcharged
  omega

/-- **Success implies admissibility.** A program that is evaluated without failure, and not ended by
an executed `OP_RETURN`, is admissible: branches never taken are checked as well. In every run, the
open branches after some chunks are as many as conditionals were opened there and not closed. -/
theorem admissible_of_success {script : Bytes} {p : Program} (hp : Program.parse script = .ok p)
    (checker : Checker) (flags : Flags) (stack : Stack) :
    (∀ b, (evaluate checker flags p stack).outcome = .ok b →
      (flags.genesis = true →
        ¬ ExitExecuted ⟨flags, checker, p.bytes⟩ p.chunks { stack := stack }) →
      p.Admissible flags) ∧
    ∀ n s, after? ⟨flags, checker, p.bytes⟩ (p.chunks.take n) { stack := stack } = some s →
      s.branches.length + closers (p.chunks.take n) = openers (p.chunks.take n) ∧
        ∀ c, p.chunks[n]? = some c → (step ⟨flags, checker, p.bytes⟩ c s).Ensures fun t =>
          t.branches.length + closers (p.chunks.take (n + 1)) =
            openers (p.chunks.take (n + 1)) := by
  constructor
  · intro b hb hexit
    obtain ⟨hsize, r, rfl, hnone, -⟩ := evaluate_eq_ok_iff.mp hb
    rcases run_success hnone with ⟨t, ht, hclosed⟩ | ⟨hg, hexecuted⟩
    · exact admissible_of_after? hp hsize ht hclosed
    · exact absurd hexecuted (hexit hg)
  · intro n s hs
    have hwf := Program.wellFormed_of_parse hp
    have hcounts := nesting_counts (fun c hc => hwf c (List.mem_of_mem_take hc)) (after?_nesting hs)
    rw [List.length_nil, Nat.zero_add] at hcounts
    refine ⟨hcounts, ?_⟩
    intro c hc
    refine (step_nest _ c s).mono ?_
    intro t ht
    have hlast := Chunk.nest_counts (hwf c (List.mem_of_getElem? hc)) ht
    rw [List.take_add_one, hc, Option.toList_some, closers_append, openers_append]
    omega

/-- The program `1 IF 2 ELSE RETURN ENDIF`. -/
def guardedExit : Program where
  chunks := [⟨.one, none, 0⟩, ⟨.ifTrue, none, 1⟩, ⟨⟨0x52⟩, none, 2⟩, ⟨.otherwise, none, 3⟩,
    ⟨.exit, none, 4⟩, ⟨.endIf, none, 5⟩]
  bytes := [0x51, 0x63, 0x52, 0x67, 0x6a, 0x68]

theorem parse_guardedExit : Program.parse guardedExit.bytes = .ok guardedExit := by
  refine Program.parse_eq_ok_iff.mpr ⟨rfl, Program.chunksFrom_eq_ok_iff.mpr ⟨?_, ?_, rfl⟩⟩
  · intro c hc
    have hpush : ∀ c ∈ guardedExit.chunks, c.payload = none ∧ c.opcode.isPush = false := by decide
    obtain ⟨hpayload, hno⟩ := hpush c hc
    simp only [Chunk.WellFormed, hpayload, hno]
  · exact ⟨rfl, rfl, rfl, rfl, rfl, rfl, trivial⟩

/-- Also with the limits lifted, a program that returns only in a branch never taken is checked as a
whole. -/
theorem admissible_of_guardedExit :
    (evaluate .absent { genesis := true } guardedExit []).outcome = .ok true ∧
      guardedExit.Admissible { genesis := true } := by
  have htrue : (evaluate .absent { genesis := true } guardedExit []).outcome = .ok true := rfl
  refine ⟨htrue, (admissible_of_success parse_guardedExit .absent { genesis := true } []).1 true
    htrue ?_⟩
  rintro - ⟨n, c, s, ⟨hc, hs⟩, hop, hexecuting⟩
  -- the operation has index four, and is reached on the side that is skipped
  have hindex : ∀ i : Fin 6, (guardedExit.chunks.get i).opcode = .exit → i = 4 := by decide
  obtain ⟨hlt, rfl⟩ := List.getElem?_eq_some_iff.mp hc
  obtain rfl : n = 4 := congrArg Fin.val (hindex ⟨n, hlt⟩ hop)
  have hskipped : after? ⟨{ genesis := true }, .absent, guardedExit.bytes⟩
      (guardedExit.chunks.take 4) { stack := [] } =
      some { stack := [.ofInt 2 .literal], branches := [false], opCount := 2 } := rfl
  rw [hskipped, Option.some.injEq] at hs
  rw [← hs] at hexecuting
  cases hexecuting

end BitcoinScript
