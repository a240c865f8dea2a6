import BitcoinScript.Proofs.Machine.Frame
import BitcoinScript.Proofs.Machine.Reframe

/-!
# Branches are blocks

The machine keeps a flat list of the branches that are open, and every `otherwise` turns the
innermost of them, in skipped code as well. For code in which the conditionals are nested this is
structured execution: a block executes its sides of even index or those of odd index, as the
condition says, and skips the others (`block_executes_sides`).

Nesting is counted (`nesting`). A side of a block is followed with the list of branches cut at the
branch of the block: those inside it are as many as the count says, those outside do not change
(`Inside` for a side that is executed, `Skipping` for one that is not).
-/

namespace BitcoinScript

namespace Opcode

/-- Opens a branch that is executed if the top item is true. -/
def ifTrue : Opcode := ⟨0x63⟩

/-- Opens a branch that is executed if the top item is false. -/
def ifFalse : Opcode := ⟨0x64⟩

/-- A conditional without a meaning, `OP_VERIF`. -/
def verIf : Opcode := ⟨0x65⟩

/-- A conditional without a meaning, `OP_VERNOTIF`. -/
def verNotIf : Opcode := ⟨0x66⟩

/-- Turns to the other side of a branch. -/
def otherwise : Opcode := ⟨0x67⟩

/-- Closes a branch. -/
def endIf : Opcode := ⟨0x68⟩

end Opcode

/-! ## Nesting -/

/-- The part that a chunk takes in the nesting of branches. -/
inductive Bracket where
  | opens (negated : Bool)
  | turns
  | closes
  | plain
deriving DecidableEq, Repr

def Opcode.bracket (op : Opcode) : Bracket :=
  if op = ifTrue then .opens false
  else if op = ifFalse then .opens true
  else if op = otherwise then .turns
  else if op = endIf then .closes
  else .plain

namespace Chunk

/-- Data is no bracket, whatever its opcode. -/
def bracket (c : Chunk) : Bracket :=
  match c.payload with
  | some _ => .plain
  | none => c.opcode.bracket

/-- The number of open branches after a chunk, if it closes and turns no branch where none is
open. -/
def nest (c : Chunk) (depth : Nat) : Option Nat :=
  match c.bracket, depth with
  | .plain, depth => some depth
  | .opens _, depth => some (depth + 1)
  | .turns, 0 => none
  | .turns, depth + 1 => some (depth + 1)
  | .closes, 0 => none
  | .closes, depth + 1 => some depth

end Chunk

/-- The number of open branches after some chunks. -/
def nesting : List Chunk → Nat → Option Nat
  | [], depth => some depth
  | c :: rest, depth =>
      match c.nest depth with
      | some depth => nesting rest depth
      | none => none

/-- The conditionals of the chunks match like parentheses, and every `otherwise` stands between the
two of a pair. -/
def Balanced (cs : List Chunk) : Prop := nesting cs 0 = some 0

instance (cs : List Chunk) : Decidable (Balanced cs) := inferInstanceAs (Decidable (_ = _))

/-- What a chunk may be at some depth, and what becomes of the depth. -/
theorem Chunk.nest_cases {c : Chunk} {d e : Nat} (h : c.nest d = some e) :
    c.bracket = .plain ∧ e = d ∨ (∃ negated, c.bracket = .opens negated ∧ e = d + 1) ∨
      (c.bracket = .turns ∧ d ≠ 0 ∧ e = d) ∨ (c.bracket = .closes ∧ d = e + 1) := by
  unfold nest at h
  split at h
  · rename_i depth hplain
    cases h
    exact Or.inl ⟨hplain, rfl⟩
  · rename_i depth negated hopens
    cases h
    exact Or.inr (Or.inl ⟨negated, hopens, rfl⟩)
  · cases h
  · rename_i depth hturns
    cases h
    exact Or.inr (Or.inr (Or.inl ⟨hturns, Nat.succ_ne_zero depth, rfl⟩))
  · cases h
  · rename_i depth hcloses
    cases h
    exact Or.inr (Or.inr (Or.inr ⟨hcloses, rfl⟩))

theorem exists_nest_of_nesting_cons {c : Chunk} {rest : List Chunk} {d e : Nat}
    (h : nesting (c :: rest) d = some e) : ∃ n, c.nest d = some n ∧ nesting rest n = some e := by
  simp only [nesting] at h
  split at h
  · rename_i n hn
    exact ⟨n, hn, h⟩
  · cases h

theorem exists_nesting_of_append {a b : List Chunk} {d e : Nat}
    (h : nesting (a ++ b) d = some e) : ∃ n, nesting a d = some n ∧ nesting b n = some e := by
  induction a generalizing d with
  | nil => exact ⟨d, rfl, h⟩
  | cons c rest ih =>
      obtain ⟨n, hn, hrest⟩ := exists_nest_of_nesting_cons h
      obtain ⟨m, hm, hb⟩ := ih hrest
      refine ⟨m, ?_, hb⟩
      rw [nesting, hn]
      exact hm

/-! ## What the brackets do -/

namespace Opcode

theorem bracket_cases (op : Opcode) :
    op = ifTrue ∨ op = ifFalse ∨ op = otherwise ∨ op = endIf ∨ op.bracket = .plain := by
  by_cases h₁ : op = ifTrue
  · exact Or.inl h₁
  by_cases h₂ : op = ifFalse
  · exact Or.inr (Or.inl h₂)
  by_cases h₃ : op = otherwise
  · exact Or.inr (Or.inr (Or.inl h₃))
  by_cases h₄ : op = endIf
  · exact Or.inr (Or.inr (Or.inr (Or.inl h₄)))
  · refine Or.inr (Or.inr (Or.inr (Or.inr ?_)))
    simp only [bracket, h₁, h₂, h₃, h₄, if_false]

theorem isCounted_of_bracket {op : Opcode} (h : op.bracket ≠ .plain) : op.isCounted = true := by
  rcases bracket_cases op with rfl | rfl | rfl | rfl | hplain
  · rfl
  · rfl
  · rfl
  · rfl
  · exact absurd hplain h

theorem isBranching_of_plain {op : Opcode} (h : op.bracket = .plain) :
    Machine.isBranching op.operation = false := by
  rcases operation_cases op with ⟨n, -, hop⟩ | hop | hmem
  · rw [hop]
    rfl
  · rw [hop]
    rfl
  · have htable : ∀ entry ∈ operations, (⟨entry.1⟩ : Opcode).bracket = .plain →
        Machine.isBranching entry.2 = false := by decide
    exact htable _ hmem h

/-- The conditionals that are no brackets. -/
theorem eq_of_plain_conditional {op : Opcode} (hplain : op.bracket = .plain)
    (h : op.isConditional = true) : op = verIf ∨ op = verNotIf := by
  obtain ⟨byte⟩ := op
  simp only [isConditional, Bool.and_eq_true, decide_eq_true_eq, UInt8.le_iff_toNat_le] at h
  have hvalues : byte.toNat = 0x63 ∨ byte.toNat = 0x64 ∨ byte.toNat = 0x65 ∨ byte.toNat = 0x66 ∨
      byte.toNat = 0x67 ∨ byte.toNat = 0x68 := by
    have hlow : 0x63 ≤ byte.toNat := h.1
    have hhigh : byte.toNat ≤ 0x68 := h.2
    omega
  have heq : ∀ n, byte.toNat = n → byte = UInt8.ofNat n := by
    intro n hbyte
    rw [← hbyte, UInt8.ofNat_toNat]
  rcases hvalues with h | h | h | h | h | h
  · rw [heq _ h] at hplain
    cases hplain
  · rw [heq _ h] at hplain
    cases hplain
  · exact Or.inl (by rw [heq _ h]; rfl)
  · exact Or.inr (by rw [heq _ h]; rfl)
  · rw [heq _ h] at hplain
    cases hplain
  · rw [heq _ h] at hplain
    cases hplain

end Opcode

/-- What the machine does at a bracket. -/
def Bracket.act? : Bracket → Option (Machine.State → Machine.Outcome)
  | .opens negated => some (Machine.openBranch negated)
  | .turns => some Machine.turnBranch
  | .closes => some Machine.closeBranch
  | .plain => none

namespace Machine

variable {ctx : Context} {c : Chunk}

theorem execute_of_conditional (hp : c.payload = none) (hc : c.opcode.isConditional = true)
    (s : State) : execute ctx c s = perform ctx c s := by
  unfold execute isPerformed
  rw [hp, hc, Bool.or_true]
  rfl

/-- Brackets are performed in skipped code as well. -/
theorem execute_of_bracket {b : Bracket} {f : State → Outcome} (hb : c.bracket = b)
    (hf : b.act? = some f) (s : State) : execute ctx c s = f s := by
  subst hb
  obtain ⟨opcode, payload, offset⟩ := c
  cases payload with
  | some data => cases hf
  | none =>
      simp only [Chunk.bracket] at hf
      rcases Opcode.bracket_cases opcode with rfl | rfl | rfl | rfl | hplain
      · cases hf
        rw [execute_of_conditional rfl rfl]
        rfl
      · cases hf
        rw [execute_of_conditional rfl rfl]
        rfl
      · cases hf
        rw [execute_of_conditional rfl rfl]
        rfl
      · cases hf
        rw [execute_of_conditional rfl rfl]
        rfl
      · rw [hplain] at hf
        cases hf

/-! ## A side that is executed -/

/-- `t` is `s` with `extra` operations more and inside one more branch, whose current side is
executed: it stands below the innermost `d` and above the `outer` ones. -/
def Inside (outer : List Bool) (extra d : Nat) (s t : State) : Prop :=
  ∃ inner, inner.length = d ∧ s.branches = inner ++ outer ∧
    t = s.reframe (inner ++ true :: outer) extra

variable {outer : List Bool} {extra d e : Nat} {s t u : State}

theorem Inside.executing_eq (h : Inside outer extra d s t) : t.executing = s.executing := by
  obtain ⟨inner, -, hbranches, rfl⟩ := h
  simp [State.executing, hbranches]

theorem execute_plain_inside (hplain : c.bracket = .plain) (h : Inside outer extra d s t)
    (hnext : execute ctx c t = .next u) :
    ∃ v, execute ctx c s = .next v ∧ Inside outer extra d v u := by
  have hexecuting := h.executing_eq
  obtain ⟨inner, hlength, hbranches, rfl⟩ := h
  cases hpayload : c.payload with
  | some data =>
      simp only [execute, hpayload, hexecuting] at hnext ⊢
      split at hnext
      · rename_i hexec
        split at hnext
        · cases hnext
        · rename_i hminimal
          cases hnext
          rw [if_pos hexec, if_neg hminimal]
          exact ⟨_, rfl, inner, hlength, hbranches, rfl⟩
      · rename_i hexec
        cases hnext
        rw [if_neg hexec]
        exact ⟨s, rfl, inner, hlength, hbranches, rfl⟩
  | none =>
      simp only [Chunk.bracket, hpayload] at hplain
      have hperformed_eq : isPerformed c (s.reframe (inner ++ true :: outer) extra) =
          isPerformed c s := by
        rw [isPerformed, isPerformed, hexecuting]
      simp only [execute, hpayload, hperformed_eq] at hnext ⊢
      split at hnext
      · rename_i hperformed
        obtain ⟨v, hv, hkept, rfl⟩ :=
          perform_of_reframed (Opcode.isBranching_of_plain hplain) hnext
        rw [if_pos hperformed]
        exact ⟨v, hv, inner, hlength, by rw [hkept, hbranches], rfl⟩
      · rename_i hperformed
        cases hnext
        rw [if_neg hperformed]
        exact ⟨s, rfl, inner, hlength, hbranches, rfl⟩

/-- What a chunk does inside an executed side, it does without the branch around it. -/
theorem execute_inside (h : Inside outer extra d s t) (hnest : c.nest d = some e)
    (hnext : execute ctx c t = .next u) :
    ∃ v, execute ctx c s = .next v ∧ Inside outer extra e v u := by
  have hexecuting := h.executing_eq
  rcases Chunk.nest_cases hnest with
    ⟨hplain, rfl⟩ | ⟨negated, hopens, rfl⟩ | ⟨hturns, hdeep, rfl⟩ | ⟨hcloses, rfl⟩
  · exact execute_plain_inside hplain h hnext
  · obtain ⟨inner, rfl, hbranches, rfl⟩ := h
    rw [execute_of_bracket hopens rfl, openBranch, hexecuting, State.reframe_stack] at hnext
    rw [execute_of_bracket hopens rfl, openBranch]
    split at hnext
    · rename_i hexec
      rw [if_pos hexec]
      cases hstack : s.stack with
      | nil =>
          rw [hstack] at hnext
          cases hnext
      | cons x rest =>
          rw [hstack] at hnext
          cases hnext
          exact ⟨_, rfl, (x.isTrue != negated) :: inner, rfl, by rw [hbranches]; rfl, rfl⟩
    · rename_i hexec
      cases hnext
      rw [if_neg hexec]
      exact ⟨_, rfl, false :: inner, rfl, by rw [hbranches]; rfl, rfl⟩
  · obtain ⟨inner, rfl, hbranches, rfl⟩ := h
    rw [execute_of_bracket hturns rfl, turnBranch] at hnext
    rw [execute_of_bracket hturns rfl, turnBranch, hbranches]
    -- the depth is not zero, so the branch that turns is not that of the side
    cases inner with
    | nil => exact absurd rfl hdeep
    | cons b inner =>
        cases hnext
        exact ⟨_, rfl, (!b) :: inner, rfl, rfl, rfl⟩
  · obtain ⟨inner, hlength, hbranches, rfl⟩ := h
    rw [execute_of_bracket hcloses rfl, closeBranch] at hnext
    rw [execute_of_bracket hcloses rfl, closeBranch, hbranches]
    cases inner with
    | nil => cases hlength
    | cons b inner =>
        cases hnext
        exact ⟨_, rfl, inner, Nat.succ.inj hlength, rfl, rfl⟩

theorem counted_eq_reframe (c : Chunk) (s : State) :
    counted c s = s.reframe s.branches (if c.opcode.isCounted then 1 else 0) := by
  unfold counted
  split <;> rfl

theorem counted_reframe (c : Chunk) (branches : List Bool) (extra : Nat) (s : State) :
    counted c (s.reframe branches extra) = (counted c s).reframe branches extra := by
  simp only [counted_eq_reframe, State.reframe_reframe, State.reframe_branches, Nat.add_comm]

theorem step_inside (h : Inside outer extra d s t) (hnest : c.nest d = some e)
    (hnext : step ctx c t = .next u) : ∃ v, step ctx c s = .next v ∧ Inside outer extra e v u := by
  obtain ⟨hlong, hdisabled, hcount, hexecute, hbound⟩ := step_eq_next_iff.mp hnext
  have hcounted : Inside outer extra d (counted c s) (counted c t) := by
    obtain ⟨inner, hlength, hbranches, rfl⟩ := h
    exact ⟨inner, hlength, by rw [counted_branches, hbranches], counted_reframe c _ extra s⟩
  have hcount' : c.opcode.isCounted = true → s.opCount < ctx.limits.operations := by
    intro hcounts
    have hlt := hcount hcounts
    obtain ⟨inner, -, -, rfl⟩ := h
    rw [State.reframe_opCount] at hlt
    omega
  obtain ⟨v, hv, hinside⟩ := execute_inside hcounted hnest hexecute
  have hbound' : checkBound ctx v = .ok () := by
    obtain ⟨inner, -, -, rfl⟩ := hinside
    exact hbound
  exact ⟨v, step_eq_next_iff.mpr ⟨hlong, hdisabled, hcount', hv, hbound'⟩, hinside⟩

theorem after?_inside {cs : List Chunk} (h : Inside outer extra d s t)
    (hnest : nesting cs d = some e) (hrun : after? ctx cs t = some u) :
    ∃ v, after? ctx cs s = some v ∧ Inside outer extra e v u := by
  induction cs generalizing d s t with
  | nil =>
      cases hnest
      cases hrun
      exact ⟨s, rfl, h⟩
  | cons c rest ih =>
      obtain ⟨n, hn, hrest⟩ := exists_nest_of_nesting_cons hnest
      obtain ⟨t', hstep, hrun'⟩ := exists_next_of_after?_cons hrun
      obtain ⟨s', hs', hinside⟩ := step_inside h hn hstep
      rw [after?_cons hs']
      exact ih hinside hrest hrun'

/-! ## A side that is skipped -/

/-- The machine is inside a branch whose current side is not executed, and inside `d` more. -/
def Skipping (outer : List Bool) (d : Nat) (s : State) : Prop :=
  ∃ inner, inner.length = d ∧ s.branches = inner ++ false :: outer

theorem Skipping.executing_eq (h : Skipping outer d s) : s.executing = false := by
  obtain ⟨inner, -, hbranches⟩ := h
  simp [State.executing, hbranches]

theorem execute_of_not_executing (hexec : s.executing = false)
    (h : c.opcode.isConditional = false) : execute ctx c s = .next s := by
  cases hpayload : c.payload with
  | some data => simp [execute, hpayload, hexec]
  | none => simp [execute, isPerformed, hpayload, hexec, h]

theorem execute_plain_skipping (hplain : c.bracket = .plain) (h : Skipping outer d s) :
    execute ctx c s = .next s ∨
      execute ctx c s = .fail (.badOpcode c.opcode) s ∧
        (c.opcode = .verIf ∨ c.opcode = .verNotIf) := by
  have hexecuting := h.executing_eq
  cases hpayload : c.payload with
  | some data =>
      left
      simp [execute, hpayload, hexecuting]
  | none =>
      simp only [Chunk.bracket, hpayload] at hplain
      cases hconditional : c.opcode.isConditional with
      | false =>
          exact Or.inl (execute_of_not_executing hexecuting hconditional)
      | true =>
          right
          have hop := Opcode.eq_of_plain_conditional hplain hconditional
          refine ⟨?_, hop⟩
          have hbad : c.opcode.operation = .bad := by
            rcases hop with hop | hop
            · rw [hop]
              rfl
            · rw [hop]
              rfl
          rw [execute_of_conditional hpayload hconditional, perform, hbad]

/-- In skipped code a chunk changes the branches at most, and those inside only. -/
theorem execute_skipping (ctx : Context) (h : Skipping outer d s) (hnest : c.nest d = some e) :
    (∃ branches, execute ctx c s = .next (s.reframe branches 0) ∧
        Skipping outer e (s.reframe branches 0)) ∨
      execute ctx c s = .fail (.badOpcode c.opcode) s ∧
        (c.opcode = .verIf ∨ c.opcode = .verNotIf) := by
  have hexecuting := h.executing_eq
  rcases Chunk.nest_cases hnest with
    ⟨hplain, rfl⟩ | ⟨negated, hopens, rfl⟩ | ⟨hturns, hdeep, rfl⟩ | ⟨hcloses, rfl⟩
  · exact (execute_plain_skipping hplain h).imp_left fun hnext => ⟨s.branches, hnext, h⟩
  · obtain ⟨inner, rfl, hbranches⟩ := h
    -- a branch opened in skipped code starts on a side that is not executed; that a nested
    -- `otherwise` turns it does not matter, since the `false` below it stays
    refine Or.inl ⟨false :: s.branches, ?_, false :: inner, rfl, by rw [hbranches]; rfl⟩
    rw [execute_of_bracket hopens rfl, openBranch, hexecuting]
    rfl
  · obtain ⟨inner, rfl, hbranches⟩ := h
    cases inner with
    | nil => exact absurd rfl hdeep
    | cons b inner =>
        refine Or.inl ⟨(!b) :: inner ++ false :: outer, ?_, (!b) :: inner, rfl, rfl⟩
        rw [execute_of_bracket hturns rfl, turnBranch, hbranches]
        rfl
  · obtain ⟨inner, hlength, hbranches⟩ := h
    cases inner with
    | nil => cases hlength
    | cons b inner =>
        refine Or.inl ⟨inner ++ false :: outer, ?_, inner, Nat.succ.inj hlength, rfl⟩
        rw [execute_of_bracket hcloses rfl, closeBranch, hbranches]
        rfl

/-- The number of chunks that count as operations. -/
def charged (cs : List Chunk) : Nat := cs.countP fun c => c.opcode.isCounted

theorem charged_append (a b : List Chunk) : charged (a ++ b) = charged a + charged b :=
  List.countP_append

theorem Skipping.counted (h : Skipping outer d s) (c : Chunk) : Skipping outer d (counted c s) := by
  obtain ⟨inner, hlength, hbranches⟩ := h
  exact ⟨inner, hlength, by rw [counted_branches, hbranches]⟩

/-- Skipped chunks are counted, and nothing else comes of them outside their side. -/
theorem after?_skipping {cs : List Chunk} (h : Skipping outer d s) (hnest : nesting cs d = some e)
    (hrun : after? ctx cs s = some t) :
    Skipping outer e t ∧
      ∃ branches, t = s.reframe branches (charged cs) := by
  induction cs generalizing d s with
  | nil =>
      cases hnest
      cases hrun
      exact ⟨h, t.branches, rfl⟩
  | cons c rest ih =>
      obtain ⟨n, hn, hrest⟩ := exists_nest_of_nesting_cons hnest
      obtain ⟨u, hstep, hrun'⟩ := exists_next_of_after?_cons hrun
      obtain ⟨-, -, -, hexecute, -⟩ := step_eq_next_iff.mp hstep
      rcases execute_skipping ctx (h.counted c) hn with ⟨branches, hnext, hskip⟩ | ⟨hfail, -⟩
      · rw [hnext, Outcome.next.injEq] at hexecute
        subst hexecute
        obtain ⟨hend, b, rfl⟩ := ih hskip hrest hrun'
        refine ⟨hend, b, ?_⟩
        rw [counted_eq_reframe, State.reframe_reframe, State.reframe_reframe, charged, charged,
          List.countP_cons, Nat.zero_add, Nat.add_comm]
      · rw [hfail] at hexecute
        cases hexecute

/-- The failures of a chunk that is skipped. -/
inductive SkipFailure (c : Chunk) : Reason → Prop
  | pushSize : SkipFailure c .pushSize
  | opCount : SkipFailure c .opCount
  | disabledOpcode : SkipFailure c (.disabledOpcode c.opcode)
  | badOpcode (h : c.opcode = .verIf ∨ c.opcode = .verNotIf) :
      SkipFailure c (.badOpcode c.opcode)

/-- The chunk is skipped: only a conditional is performed, the stacks and the start of the signed
part stay, nothing is asked, and there are few ways to fail. -/
structure Skips (ctx : Context) (c : Chunk) (s : State) : Prop where
  isPerformed_eq : isPerformed c s = c.opcode.isConditional
  idle : c.opcode.isConditional = false → execute ctx c (counted c s) = .next (counted c s)
  stack_eq : (step ctx c s).state.stack = s.stack
  altStack_eq : (step ctx c s).state.altStack = s.altStack
  codeStart_eq : (step ctx c s).state.codeStart = s.codeStart
  calls_eq : (step ctx c s).state.calls = s.calls
  outcome : (∃ t, step ctx c s = .next t) ∨
    ∃ reason t, step ctx c s = .fail reason t ∧ SkipFailure c reason

/-- How the step of a chunk ends in skipped code, and in which state. -/
theorem step_skipping (h : Skipping outer d s) (hbound : checkBound ctx s = .ok ())
    (hnest : c.nest d = some e) :
    ∃ branches n, step ctx c s = .next (s.reframe branches n) ∨
      ∃ reason, step ctx c s = .fail reason (s.reframe branches n) ∧ SkipFailure c reason := by
  cases haccept : accept ctx c s with
  | error failure =>
      obtain ⟨reason, t⟩ := failure
      have hfail : step ctx c s = .fail reason t := by rw [step, haccept]
      rcases accept_eq_error haccept with ⟨rfl, rfl⟩ | ⟨hreason, rfl⟩
      · exact ⟨_, 0, Or.inr ⟨_, hfail, .pushSize⟩⟩
      · rw [counted_eq_reframe] at hfail
        refine ⟨_, _, Or.inr ⟨reason, hfail, ?_⟩⟩
        rcases hreason with rfl | rfl
        · exact .opCount
        · exact .disabledOpcode
  | ok u =>
      obtain ⟨hlong, hdisabled, hcount, rfl⟩ := accept_eq_ok_iff.mp haccept
      have hexecute := execute_skipping ctx (h.counted c) hnest
      rw [counted_eq_reframe] at hexecute
      rw [step_of_accepted hlong hdisabled hcount, counted_eq_reframe]
      rcases hexecute with ⟨branches, hnext, -⟩ | ⟨hfail, hop⟩
      · rw [State.reframe_reframe] at hnext
        exact ⟨_, _, Or.inl (bounded_eq_next_iff.mpr ⟨hnext, hbound⟩)⟩
      · rw [hfail]
        exact ⟨_, _, Or.inr ⟨_, rfl, .badOpcode hop⟩⟩

theorem skips_of_skipping (h : Skipping outer d s) (hbound : checkBound ctx s = .ok ())
    (hnest : c.nest d = some e) : Skips ctx c s := by
  have hexec := h.executing_eq
  obtain ⟨branches, n, hstep⟩ := step_skipping h hbound hnest
  have hstate : (step ctx c s).state = s.reframe branches n := by
    rcases hstep with hnext | ⟨reason, hfail, -⟩
    · rw [hnext, Outcome.state_next]
    · rw [hfail, Outcome.state_fail]
  refine ⟨?_, ?_, ?_, ?_, ?_, ?_, ?_⟩
  · rw [isPerformed, hexec, Bool.false_or]
  · exact execute_of_not_executing (by rw [counted_executing, hexec])
  · rw [hstate, State.reframe_stack]
  · rw [hstate, State.reframe_altStack]
  · rw [hstate, State.reframe]
  · rw [hstate, State.reframe]
  · rcases hstep with hnext | ⟨reason, hfail, hreason⟩
    · exact Or.inl ⟨_, hnext⟩
    · exact Or.inr ⟨reason, _, hfail, hreason⟩

end Machine

/-! ## Blocks -/

/-- A block: a conditional opens it, each `otherwise` starts another side, and its end closes it. -/
structure Block where
  negated : Bool
  opener : Chunk
  first : List Chunk
  /-- The other sides, each with the chunk that turns to it. -/
  others : List (Chunk × List Chunk)
  closer : Chunk
  opener_opens : opener.bracket = .opens negated
  others_turn : ∀ part ∈ others, part.1.bracket = .turns
  closer_closes : closer.bracket = .closes
  first_balanced : Balanced first
  others_balanced : ∀ part ∈ others, Balanced part.2

/-- Whether a block executes its side of index `i`: those of even index if the condition holds,
those of odd index if not. -/
def takes (holds : Bool) (i : Nat) : Bool := (i % 2 == 0) == holds

/-- The chunks of the sides that are executed. -/
def taken (holds : Bool) (sides : List (List Chunk)) : List Chunk :=
  ((sides.zipIdx.filter fun side => takes holds side.2).map Prod.fst).flatten

/-- The chunks of some parts of a block, in order. -/
def joined (parts : List (Chunk × List Chunk)) : List Chunk :=
  parts.flatMap fun part => part.1 :: part.2

namespace Block

variable (b : Block)

/-- The sides, each with the chunk that it starts after. -/
def parts : List (Chunk × List Chunk) := (b.opener, b.first) :: b.others

def sides : List (List Chunk) := b.parts.map Prod.snd

def chunks : List Chunk := joined b.parts ++ [b.closer]

/-- Whether the condition holds for an item. -/
def holds (x : Item) : Bool := x.isTrue != b.negated

/-- The chunks that are executed where the top item is `x`. -/
def executed (x : Item) : List Chunk := taken (b.holds x) b.sides

/-- The chunks that are skipped where the top item is `x`. -/
def skipped (x : Item) : List Chunk := taken (!b.holds x) b.sides

end Block

theorem takes_zero (holds : Bool) : takes holds 0 = holds := by
  cases holds <;> rfl

theorem takes_not (holds : Bool) (i : Nat) : takes (!holds) i = !takes holds i := by
  unfold takes
  cases (i % 2 == 0) <;> cases holds <;> rfl

theorem takes_succ (holds : Bool) (i : Nat) : takes holds (i + 1) = !takes holds i := by
  have hparity : ((i + 1) % 2 == 0) = !(i % 2 == 0) := by
    rcases Nat.mod_two_eq_zero_or_one i with h | h
    · have hsucc : (i + 1) % 2 = 1 := by omega
      rw [h, hsucc]
      rfl
    · have hsucc : (i + 1) % 2 = 0 := by omega
      rw [h, hsucc]
      rfl
  unfold takes
  rw [hparity]
  cases (i % 2 == 0) <;> cases holds <;> rfl

theorem taken_nil (holds : Bool) : taken holds [] = [] := rfl

theorem taken_cons (holds : Bool) (side : List Chunk) (sides : List (List Chunk)) :
    taken holds (side :: sides) = (if holds then side else []) ++ taken (!holds) sides := by
  have hrest : ((sides.zipIdx 1).filter fun side => takes holds side.2).map Prod.fst =
      (sides.zipIdx.filter fun side => takes (!holds) side.2).map Prod.fst := by
    rw [List.zipIdx_succ, List.filter_map, List.map_map]
    simp only [Function.comp_def, takes_succ, takes_not]
  unfold taken
  rw [List.zipIdx_cons, List.filter_cons, takes_zero, Nat.zero_add]
  cases holds with
  | true => simp only [if_true, List.map_cons, List.flatten_cons, hrest]
  | false => simp only [Bool.false_eq_true, if_false, List.nil_append, hrest]

namespace Machine

/-- `t` is `s` with `extra` operations more and inside one more branch, the innermost. -/
def Beside (outer : List Bool) (current : Bool) (extra : Nat) (s t : State) : Prop :=
  s.branches = outer ∧ t = s.reframe (current :: outer) extra

variable {current : Bool}

theorem after?_side {side : List Chunk} (hbalanced : Balanced side)
    (h : Beside outer current extra s t) (hrun : after? ctx side t = some u) :
    ∃ v, after? ctx (if current then side else []) s = some v ∧
      Beside outer current (extra + charged (if current then [] else side)) v u := by
  obtain ⟨hbranches, rfl⟩ := h
  cases current with
  | true =>
      have hinside : Inside outer extra 0 s (s.reframe (true :: outer) extra) :=
        ⟨[], rfl, hbranches, rfl⟩
      obtain ⟨v, hv, inner, hlength, hbranches', rfl⟩ := after?_inside hinside hbalanced hrun
      cases List.eq_nil_of_length_eq_zero hlength
      exact ⟨v, hv, hbranches', rfl⟩
  | false =>
      have hskipping : Skipping outer 0 (s.reframe (false :: outer) extra) := ⟨[], rfl, rfl⟩
      obtain ⟨⟨inner, hlength, hbranches'⟩, branches, rfl⟩ :=
        after?_skipping hskipping hbalanced hrun
      cases List.eq_nil_of_length_eq_zero hlength
      rw [State.reframe_branches] at hbranches'
      refine ⟨s, rfl, hbranches, ?_⟩
      rw [hbranches', State.reframe_reframe]
      rfl

theorem counted_of_bracket (h : c.bracket ≠ .plain) (s : State) :
    counted c s = s.reframe s.branches 1 := by
  have hcounts : c.opcode.isCounted = true := by
    unfold Chunk.bracket at h
    split at h
    · exact absurd rfl h
    · exact Opcode.isCounted_of_bracket h
  rw [counted_eq_reframe, hcounts]
  rfl

/-- A bracket is counted, does its own, and leaves the stacks within their bound. -/
theorem step_of_bracket {b : Bracket} {f : State → Outcome} (hb : c.bracket = b)
    (hf : b.act? = some f) (hstep : step ctx c s = .next t) :
    f (s.reframe s.branches 1) = .next t ∧ checkBound ctx t = .ok () := by
  obtain ⟨-, -, -, hexecute, hbound⟩ := step_eq_next_iff.mp hstep
  have hbracket : c.bracket ≠ .plain := by
    intro hplain
    rw [← hb, hplain] at hf
    cases hf
  rw [execute_of_bracket hb hf, counted_of_bracket hbracket] at hexecute
  exact ⟨hexecute, hbound⟩

theorem step_opens {negated : Bool} {x : Item} {rest : Stack} (hc : c.bracket = .opens negated)
    (hexec : s.executing = true) (hstack : s.stack = x :: rest)
    (hstep : step ctx c s = .next t) :
    Beside s.branches (x.isTrue != negated) 1 { s with stack := rest } t ∧
      checkBound ctx t = .ok () := by
  obtain ⟨hopen, hbound⟩ := step_of_bracket hc rfl hstep
  have hexec' : (s.reframe s.branches 1).executing = true := hexec
  rw [openBranch, if_pos hexec', State.reframe_stack, hstack] at hopen
  cases hopen
  exact ⟨⟨rfl, rfl⟩, hbound⟩

theorem step_turns (hc : c.bracket = .turns) (h : Beside outer current extra s t)
    (hstep : step ctx c t = .next u) :
    Beside outer (!current) (extra + 1) s u ∧ checkBound ctx u = .ok () := by
  obtain ⟨hturn, hbound⟩ := step_of_bracket hc rfl hstep
  obtain ⟨hbranches, rfl⟩ := h
  cases hturn
  exact ⟨⟨hbranches, rfl⟩, hbound⟩

theorem step_closes (hc : c.bracket = .closes) (h : Beside outer current extra s t)
    (hstep : step ctx c t = .next u) : u = s.reframe s.branches (extra + 1) := by
  obtain ⟨hclose, -⟩ := step_of_bracket hc rfl hstep
  obtain ⟨hbranches, rfl⟩ := h
  cases hclose
  rw [hbranches]
  rfl

/-- The sides after the first: each one turns the branch, is executed or skipped as a whole, and
leaves the branch open. -/
theorem after?_others {others : List (Chunk × List Chunk)}
    (hturn : ∀ part ∈ others, part.1.bracket = .turns)
    (hbalanced : ∀ part ∈ others, Balanced part.2) (h : Beside outer current extra s t)
    (hrun : after? ctx (joined others) t = some u) :
    ∃ v, after? ctx (taken (!current) (others.map Prod.snd)) s = some v ∧
      Beside outer (takes current others.length)
        (extra + (others.length + charged (taken current (others.map Prod.snd)))) v u := by
  induction others generalizing current extra s t with
  | nil =>
      cases hrun
      rw [List.map_nil, taken_nil, taken_nil, List.length_nil, takes_zero]
      exact ⟨s, rfl, h⟩
  | cons part others ih =>
      obtain ⟨head, side⟩ := part
      obtain ⟨t₁, hhead, hrun₁⟩ := exists_next_of_after?_cons hrun
      obtain ⟨t₂, hside, hrun₂⟩ := exists_after?_of_append hrun₁
      obtain ⟨hbeside, -⟩ := step_turns (hturn _ List.mem_cons_self) h hhead
      obtain ⟨s₁, hs₁, hbeside₁⟩ := after?_side (hbalanced _ List.mem_cons_self) hbeside hside
      obtain ⟨v, hv, hbeside₂⟩ := ih (fun part hpart => hturn part (List.mem_cons_of_mem _ hpart))
        (fun part hpart => hbalanced part (List.mem_cons_of_mem _ hpart)) hbeside₁ hrun₂
      refine ⟨v, ?_, ?_⟩
      · rw [List.map_cons, taken_cons, after?_append hs₁, hv]
      · have hextra : extra + 1 + charged (if !current then [] else side) +
              (others.length + charged (taken (!current) (others.map Prod.snd))) =
            extra + (others.length + 1 + charged ((if current then side else []) ++
              taken (!current) (others.map Prod.snd))) := by
          have hside : (if !current then [] else side) = if current then side else [] := by
            cases current <;> rfl
          rw [hside, charged_append]
          omega
        rw [List.length_cons, takes_succ, ← takes_not, List.map_cons, taken_cons, ← hextra]
        exact hbeside₂

variable {b : Block} {x : Item} {rest : Stack}

/-- The first sides of a block, with the branch still open. -/
theorem after?_sides {prior : List (Chunk × List Chunk)} (hprior : ∀ part ∈ prior, part ∈ b.others)
    (hexec : s.executing = true) (hstack : s.stack = x :: rest)
    (hrun : after? ctx (joined ((b.opener, b.first) :: prior)) s = some t) :
    ∃ u, after? ctx (taken (b.holds x) (b.first :: prior.map Prod.snd)) { s with stack := rest } =
        some u ∧
      Beside s.branches (takes (b.holds x) prior.length)
        (prior.length + 1 + charged (taken (!b.holds x) (b.first :: prior.map Prod.snd))) u t := by
  obtain ⟨t₁, hopen, hrun₁⟩ := exists_next_of_after?_cons hrun
  obtain ⟨t₂, hfirst, hrun₂⟩ := exists_after?_of_append hrun₁
  obtain ⟨hopened, -⟩ := step_opens b.opener_opens hexec hstack hopen
  rw [← Block.holds] at hopened
  obtain ⟨s₂, hs₂, hbeside⟩ := after?_side b.first_balanced hopened hfirst
  obtain ⟨u, hu, hbeside'⟩ := after?_others
    (fun part hpart => b.others_turn part (hprior part hpart))
    (fun part hpart => b.others_balanced part (hprior part hpart)) hbeside hrun₂
  refine ⟨u, ?_, ?_⟩
  · rw [taken_cons, after?_append hs₂, hu]
  · have hextra : 1 + charged (if b.holds x then [] else b.first) +
          (prior.length + charged (taken (b.holds x) (prior.map Prod.snd))) =
        prior.length + 1 + charged (taken (!b.holds x) (b.first :: prior.map Prod.snd)) := by
      have hskipped : (if !b.holds x then b.first else []) = if b.holds x then [] else b.first := by
        cases b.holds x <;> rfl
      rw [taken_cons, Bool.not_not, hskipped, charged_append]
      omega
    rw [← hextra]
    exact hbeside'

/-- Where the machine stands when it comes to a side of a block. -/
theorem after?_head {prior later : List (Chunk × List Chunk)} {head : Chunk} {side : List Chunk}
    (hparts : b.parts = prior ++ (head, side) :: later) (hexec : s.executing = true)
    (hstack : s.stack = x :: rest) (hrun : after? ctx (joined prior ++ [head]) s = some t) :
    ∃ extra u, Beside s.branches (takes (b.holds x) prior.length) extra u t ∧
      checkBound ctx t = .ok () := by
  obtain ⟨t', hprior, hlast⟩ := exists_after?_of_append hrun
  obtain ⟨t'', hhead, hend⟩ := exists_next_of_after?_cons hlast
  cases hend
  cases prior with
  | nil =>
      cases hparts
      cases hprior
      rw [List.length_nil, takes_zero]
      exact ⟨1, _, step_opens b.opener_opens hexec hstack hhead⟩
  | cons part prior =>
      obtain ⟨hfirst, hothers⟩ := List.cons.inj hparts
      subst hfirst
      have hmem : ∀ part ∈ prior, part ∈ b.others := by
        intro part hpart
        rw [hothers]
        exact List.mem_append_left _ hpart
      have hturns : head.bracket = .turns := by
        refine b.others_turn (head, side) ?_
        rw [hothers]
        exact List.mem_append_right _ List.mem_cons_self
      obtain ⟨u, -, hbeside⟩ := after?_sides hmem hexec hstack hprior
      obtain ⟨hturned, hbound⟩ := step_turns hturns hbeside hhead
      rw [List.length_cons, takes_succ]
      exact ⟨_, u, hturned, hbound⟩

theorem balanced_of_mem_parts {part : Chunk × List Chunk} (h : part ∈ b.parts) :
    Balanced part.2 := by
  rcases List.mem_cons.mp h with rfl | hother
  · exact b.first_balanced
  · exact b.others_balanced part hother

end Machine

open Machine in
/-- **Branch selection is structured execution.** From a state that executes and has a top item
`x`, a run through a block is, the item taken off, a run through the sides that the condition
selects. It counts the opcodes of the block and those of the other sides on top, and skips these
sides. -/
theorem block_executes_sides (ctx : Context) (b : Block) {s : State} {x : Item} {rest : Stack}
    (hexec : s.executing = true) (hstack : s.stack = x :: rest) :
    (∀ t, after? ctx b.chunks s = some t →
      ∃ u, after? ctx (b.executed x) { s with stack := rest } = some u ∧
        t = { u with opCount := u.opCount + (b.others.length + 2 + charged (b.skipped x)) }) ∧
    ∀ prior head before c after later t,
      b.parts = prior ++ (head, before ++ c :: after) :: later →
      takes (b.holds x) prior.length = false →
      after? ctx (joined prior ++ head :: before) s = some t → Skips ctx c t := by
  constructor
  · intro t hrun
    obtain ⟨t', hsides, hlast⟩ := exists_after?_of_append hrun
    obtain ⟨t'', hclose, hend⟩ := exists_next_of_after?_cons hlast
    cases hend
    obtain ⟨u, hu, hbeside⟩ := after?_sides (fun part hpart => hpart) hexec hstack hsides
    refine ⟨u, hu, ?_⟩
    rw [step_closes b.closer_closes hbeside hclose, Nat.add_right_comm]
    rfl
  · intro prior head before c after later t hparts hskipped hrun
    have hmem : (head, before ++ c :: after) ∈ b.parts := by
      rw [hparts]
      exact List.mem_append_right _ List.mem_cons_self
    -- the side is balanced, so it does not leave its branch before the chunk `c`
    obtain ⟨d, hbefore, hafter⟩ := exists_nesting_of_append (balanced_of_mem_parts hmem)
    obtain ⟨e, hnest, -⟩ := exists_nest_of_nesting_cons hafter
    rw [List.append_cons] at hrun
    obtain ⟨t', hhead, hside⟩ := exists_after?_of_append hrun
    obtain ⟨extra, u, ⟨hbranches, rfl⟩, hbound⟩ := after?_head hparts hexec hstack hhead
    rw [hskipped] at hside hbound
    have hstart : Skipping s.branches 0 (u.reframe (false :: s.branches) extra) := ⟨[], rfl, rfl⟩
    obtain ⟨hskipping, branches, rfl⟩ := after?_skipping hstart hbefore hside
    exact skips_of_skipping hskipping hbound hnest

/-- The block `IF 2 ELSE IF ELSE VERIFY ENDIF ELSE 4 ENDIF`. -/
def nestedBlock : Block where
  negated := false
  opener := ⟨.ifTrue, none, 0⟩
  first := [⟨⟨0x52⟩, none, 1⟩]
  others := [
    (⟨.otherwise, none, 2⟩,
      [⟨.ifTrue, none, 3⟩, ⟨.otherwise, none, 4⟩, ⟨⟨0x69⟩, none, 5⟩, ⟨.endIf, none, 6⟩]),
    (⟨.otherwise, none, 7⟩, [⟨⟨0x54⟩, none, 8⟩])]
  closer := ⟨.endIf, none, 9⟩
  opener_opens := rfl
  others_turn := by decide
  closer_closes := rfl
  first_balanced := rfl
  others_balanced := by decide

open Machine in
/-- On a true item the block pushes `2` and `4` and counts eight operations. The `VERIFY` inside is
skipped, though the branch around it has been turned. -/
theorem nestedBlock_executes_sides :
    (∃ u, after? ⟨{}, .absent, []⟩ [⟨⟨0x52⟩, none, 1⟩, ⟨⟨0x54⟩, none, 8⟩] { stack := [] } =
        some u ∧
      after? ⟨{}, .absent, []⟩ nestedBlock.chunks { stack := [.literal [0x01]] } =
        some { u with opCount := u.opCount + 8 }) ∧
    Skips ⟨{}, .absent, []⟩ ⟨⟨0x69⟩, none, 5⟩
      { stack := [.ofInt 2 .literal], branches := [true, false], opCount := 4 } := by
  have htrue : (Item.literal [0x01]).isTrue = true := by
    rw [Item.isTrue_eq, Item.bytes_literal]
    rfl
  have hholds : nestedBlock.holds (.literal [0x01]) = true := by
    rw [Block.holds, htrue]
    rfl
  have hopen : step ⟨{}, .absent, []⟩ ⟨.ifTrue, none, 0⟩ { stack := [.literal [0x01]] } =
      .next { stack := [], branches := [true], opCount := 1 } := by
    refine step_eq_next_iff.mpr ⟨rfl, rfl, by decide, ?_, rfl⟩
    have hopened : openBranch false { stack := [.literal [0x01]], opCount := 1 } =
        .next { stack := [], branches := [true], opCount := 1 } := by
      simp [openBranch, State.executing, htrue]
    rw [execute_of_bracket (b := .opens false) rfl rfl]
    exact hopened
  have hchunks : after? ⟨{}, .absent, []⟩ nestedBlock.chunks { stack := [.literal [0x01]] } =
      some { stack := [.ofInt 4 .literal, .ofInt 2 .literal], opCount := 8 } :=
    after?_cons hopen _
  obtain ⟨hruns, hskips⟩ := block_executes_sides ⟨{}, .absent, []⟩ nestedBlock
    (s := { stack := [.literal [0x01]] }) (x := .literal [0x01]) rfl rfl
  constructor
  · obtain ⟨u, hu, ht⟩ := hruns _ hchunks
    rw [Block.executed, hholds] at hu
    rw [Block.skipped, hholds] at ht
    exact ⟨u, hu, by rw [hchunks, ht]; rfl⟩
  · refine hskips [(⟨.ifTrue, none, 0⟩, [⟨⟨0x52⟩, none, 1⟩])] ⟨.otherwise, none, 2⟩
      [⟨.ifTrue, none, 3⟩, ⟨.otherwise, none, 4⟩] _ [⟨.endIf, none, 6⟩] _ _ rfl ?_ ?_
    · rw [hholds]
      rfl
    · exact after?_cons hopen _

end BitcoinScript
