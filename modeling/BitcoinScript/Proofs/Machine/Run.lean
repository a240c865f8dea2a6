import BitcoinScript.Evaluation

/-!
# Runs and the states on their way

`after?` gives the state that a machine reaches by some chunks, if all of them let the script go on.
Invariants are carried along it (`after?_invariant`) and on to the end of a run that does not fail
(`run_ensures`). `Outcome.Ensures` is the postcondition of a step that does not fail.
-/

namespace BitcoinScript

namespace Machine

namespace Outcome

/-- The state in which an operation leaves the machine, however it ends. -/
def state : Outcome → State
  | .next s => s
  | .done s => s
  | .fail _ s => s

/-- The state satisfies `P` unless the operation fails. -/
def Ensures (o : Outcome) (P : State → Prop) : Prop :=
  match o with
  | .next s => P s
  | .done s => P s
  | .fail _ _ => True

theorem Ensures.mono {o : Outcome} {P Q : State → Prop} (h : o.Ensures P)
    (hPQ : ∀ s, P s → Q s) : o.Ensures Q := by
  cases o with
  | next s => exact hPQ s h
  | done s => exact hPQ s h
  | fail reason s => trivial

theorem Ensures.and {o : Outcome} {P Q : State → Prop} (hP : o.Ensures P) (hQ : o.Ensures Q) :
    o.Ensures fun s => P s ∧ Q s := by
  cases o with
  | next s => exact ⟨hP, hQ⟩
  | done s => exact ⟨hP, hQ⟩
  | fail reason s => trivial

theorem ensures_of_state {o : Outcome} {P : State → Prop} (h : P o.state) : o.Ensures P := by
  cases o with
  | next s => exact h
  | done s => exact h
  | fail reason s => trivial

@[simp] theorem state_next (s : State) : (next s).state = s := rfl

@[simp] theorem state_done (s : State) : (done s).state = s := rfl

@[simp] theorem state_fail (reason : Reason) (s : State) : (fail reason s).state = s := rfl

end Outcome

/-- Operations on the stack alone ensure what follows for every new stack. -/
theorem withStack_ensures {s : State} {r : Except Reason Stack} {P : State → Prop}
    (h : ∀ stack, r = .ok stack → P { s with stack := stack }) : (s.withStack r).Ensures P := by
  cases r with
  | error reason => trivial
  | ok stack => exact h stack rfl

/-- The state once a chunk has been counted. -/
def counted (c : Chunk) (s : State) : State :=
  if c.opcode.isCounted then { s with opCount := s.opCount + 1 } else s

section Counted

variable (c : Chunk) (s : State)

@[simp] theorem counted_stack : (counted c s).stack = s.stack := by
  unfold counted
  split <;> rfl

@[simp] theorem counted_altStack : (counted c s).altStack = s.altStack := by
  unfold counted
  split <;> rfl

@[simp] theorem counted_executing : (counted c s).executing = s.executing := by
  unfold counted
  split <;> rfl

@[simp] theorem counted_branches : (counted c s).branches = s.branches := by
  unfold counted
  split <;> rfl

@[simp] theorem counted_codeStart : (counted c s).codeStart = s.codeStart := by
  unfold counted
  split <;> rfl

@[simp] theorem counted_calls : (counted c s).calls = s.calls := by
  unfold counted
  split <;> rfl

end Counted

/-- What it takes for a chunk to be accepted. -/
theorem accept_eq_ok_iff {ctx : Context} {c : Chunk} {s t : State} :
    accept ctx c s = .ok t ↔
      isTooLong ctx.limits c = false ∧ c.opcode.isDisabled ctx.flags = false ∧
        (c.opcode.isCounted = true → s.opCount < ctx.limits.operations) ∧ t = counted c s := by
  unfold accept counted
  cases isTooLong ctx.limits c with
  | true => simp
  | false =>
      cases c.opcode.isCounted with
      | true =>
          by_cases hcount : s.opCount + 1 > ctx.limits.operations
          · have hnot : ¬ s.opCount < ctx.limits.operations := by omega
            simp [hcount, hnot]
          · have hlt : s.opCount < ctx.limits.operations := by omega
            simp only [Bool.false_eq_true, if_false, if_true, Bool.true_and, decide_eq_true_eq,
              hcount, hlt]
            cases c.opcode.isDisabled ctx.flags with
            | true => simp
            | false => simp [eq_comm]
      | false =>
          cases c.opcode.isDisabled ctx.flags with
          | true => simp
          | false => simp [eq_comm]

theorem accept_eq (ctx : Context) (c : Chunk) (s : State) : accept ctx c s =
    if isTooLong ctx.limits c then .error (.pushSize, s)
    else if c.opcode.isCounted && (counted c s).opCount > ctx.limits.operations then
      .error (.opCount, counted c s)
    else if c.opcode.isDisabled ctx.flags then .error (.disabledOpcode c.opcode, counted c s)
    else .ok (counted c s) := rfl

/-- Why a chunk is not accepted, and in which state that leaves the machine. -/
theorem accept_eq_error {ctx : Context} {c : Chunk} {s t : State} {reason : Reason}
    (h : accept ctx c s = .error (reason, t)) :
    reason = .pushSize ∧ t = s ∨
      (reason = .opCount ∨ reason = .disabledOpcode c.opcode) ∧ t = counted c s := by
  rw [accept_eq] at h
  split at h
  · cases h
    exact Or.inl ⟨rfl, rfl⟩
  · split at h
    · cases h
      exact Or.inr ⟨Or.inl rfl, rfl⟩
    · split at h
      · cases h
        exact Or.inr ⟨Or.inr rfl, rfl⟩
      · cases h

/-- A chunk that is not accepted changes no more than the count. -/
theorem state_of_accept_error {ctx : Context} {c : Chunk} {s t : State} {reason : Reason}
    (h : accept ctx c s = .error (reason, t)) : t = s ∨ t = counted c s := by
  rcases accept_eq_error h with ⟨-, hstate⟩ | ⟨-, hstate⟩
  · exact Or.inl hstate
  · exact Or.inr hstate

/-- What becomes of an accepted chunk: its operation is performed, or its data is pushed or skipped,
or a push that is not minimal fails. -/
theorem execute_cases (ctx : Context) (c : Chunk) (s : State) :
    (c.payload = none ∧ isPerformed c s = true ∧ execute ctx c s = perform ctx c s) ∨
      (∃ stack, execute ctx c s = .next { s with stack := stack }) ∨
      ∃ reason, execute ctx c s = .fail reason s := by
  unfold execute
  split
  · split
    · split
      · exact Or.inr (Or.inr ⟨_, rfl⟩)
      · exact Or.inr (Or.inl ⟨_, rfl⟩)
    · exact Or.inr (Or.inl ⟨s.stack, rfl⟩)
  · rename_i hpayload
    split
    · rename_i hperformed
      exact Or.inl ⟨hpayload, hperformed, rfl⟩
    · exact Or.inr (Or.inl ⟨s.stack, rfl⟩)

/-- Checking the bounds changes no state. -/
@[simp] theorem bounded_state (ctx : Context) (o : Outcome) : (bounded ctx o).state = o.state := by
  cases o with
  | fail reason s => rfl
  | next s =>
      simp only [bounded]
      split <;> rfl
  | done s =>
      simp only [bounded]
      split <;> rfl

/-- What a step without failure went through: the chunk was accepted, and the bounds hold. -/
theorem step_ensures {ctx : Context} {c : Chunk} {s : State} {P Q : State → Prop}
    (haccept : ∀ t, accept ctx c s = .ok t → (execute ctx c t).Ensures Q)
    (hbound : ∀ t, Q t → checkBound ctx t = .ok () → P t) : (step ctx c s).Ensures P := by
  unfold step
  split
  · trivial
  · rename_i t ht
    have hQ := haccept t ht
    cases hx : execute ctx c t with
    | fail reason u => trivial
    | next u =>
        rw [hx] at hQ
        simp only [bounded]
        split
        · rename_i hok
          exact hbound u hQ hok
        · trivial
    | done u =>
        rw [hx] at hQ
        simp only [bounded]
        split
        · rename_i hok
          exact hbound u hQ hok
        · trivial

/-- A step of a chunk that is accepted. -/
theorem step_of_accepted {ctx : Context} {c : Chunk} {s : State}
    (hlong : isTooLong ctx.limits c = false) (hdisabled : c.opcode.isDisabled ctx.flags = false)
    (hcount : c.opcode.isCounted = true → s.opCount < ctx.limits.operations) :
    step ctx c s = bounded ctx (execute ctx c (counted c s)) := by
  have haccept := accept_eq_ok_iff.mpr ⟨hlong, hdisabled, hcount, rfl⟩
  simp only [step, haccept]

theorem bounded_eq_next_iff {ctx : Context} {o : Outcome} {t : State} :
    bounded ctx o = .next t ↔ o = .next t ∧ checkBound ctx t = .ok () := by
  cases o with
  | fail reason u => simp [bounded]
  | done u =>
      simp only [bounded]
      split <;> simp
  | next u =>
      simp only [bounded]
      cases hbound : checkBound ctx u with
      | ok done =>
          simp only [Outcome.next.injEq]
          constructor
          · rintro rfl
            exact ⟨rfl, hbound⟩
          · exact fun h => h.1
      | error e =>
          simp only [reduceCtorEq, Outcome.next.injEq, false_iff, not_and]
          rintro rfl hok
          rw [hbound] at hok
          cases hok

/-- What a step after which the script goes on went through. -/
theorem step_eq_next_iff {ctx : Context} {c : Chunk} {s t : State} :
    step ctx c s = .next t ↔
      isTooLong ctx.limits c = false ∧ c.opcode.isDisabled ctx.flags = false ∧
        (c.opcode.isCounted = true → s.opCount < ctx.limits.operations) ∧
        execute ctx c (counted c s) = .next t ∧ checkBound ctx t = .ok () := by
  constructor
  · intro h
    cases haccept : accept ctx c s with
    | error failure => simp [step, haccept] at h
    | ok u =>
        obtain ⟨hlong, hdisabled, hcount, rfl⟩ := accept_eq_ok_iff.mp haccept
        rw [step_of_accepted hlong hdisabled hcount, bounded_eq_next_iff] at h
        exact ⟨hlong, hdisabled, hcount, h⟩
  · rintro ⟨hlong, hdisabled, hcount, h⟩
    rw [step_of_accepted hlong hdisabled hcount, bounded_eq_next_iff]
    exact h

/-! ## The states on the way -/

/-- The state after some chunks, if all of them let the script go on. -/
def after? (ctx : Context) : List Chunk → State → Option State
  | [], s => some s
  | c :: rest, s =>
      match step ctx c s with
      | .next t => after? ctx rest t
      | _ => none

theorem after?_cons {ctx : Context} {c : Chunk} {s t : State} (h : step ctx c s = .next t)
    (rest : List Chunk) : after? ctx (c :: rest) s = after? ctx rest t := by
  simp only [after?, h]

theorem exists_next_of_after?_cons {ctx : Context} {c : Chunk} {rest : List Chunk} {s u : State}
    (h : after? ctx (c :: rest) s = some u) :
    ∃ t, step ctx c s = .next t ∧ after? ctx rest t = some u := by
  simp only [after?] at h
  split at h
  · rename_i t ht
    exact ⟨t, ht, h⟩
  · cases h

theorem after?_append {ctx : Context} {a : List Chunk} {s t : State} (h : after? ctx a s = some t)
    (b : List Chunk) : after? ctx (a ++ b) s = after? ctx b t := by
  induction a generalizing s with
  | nil =>
      cases h
      rfl
  | cons c rest ih =>
      obtain ⟨u, hu, hrest⟩ := exists_next_of_after?_cons h
      rw [List.cons_append, after?_cons hu]
      exact ih hrest

/-- A state reached by a list of chunks is reached by every shorter part of it first. -/
theorem exists_after?_of_append {ctx : Context} {a b : List Chunk} {s u : State}
    (h : after? ctx (a ++ b) s = some u) :
    ∃ t, after? ctx a s = some t ∧ after? ctx b t = some u := by
  induction a generalizing s with
  | nil => exact ⟨s, rfl, h⟩
  | cons c rest ih =>
      obtain ⟨t, ht, hrest⟩ := exists_next_of_after?_cons h
      obtain ⟨v, hv, hb⟩ := ih hrest
      exact ⟨v, by rw [after?_cons ht, hv], hb⟩

/-- The last step on the way to a state. -/
theorem exists_step_of_after?_take {ctx : Context} {cs : List Chunk} {s u : State} {n : Nat}
    {c : Chunk} (hc : cs[n]? = some c) (h : after? ctx (cs.take (n + 1)) s = some u) :
    ∃ t, after? ctx (cs.take n) s = some t ∧ step ctx c t = .next u := by
  rw [List.take_add_one, hc, Option.toList_some] at h
  obtain ⟨t, ht, hlast⟩ := exists_after?_of_append h
  obtain ⟨v, hv, hend⟩ := exists_next_of_after?_cons hlast
  cases hend
  exact ⟨t, ht, hv⟩

/-- A run from `start` comes to the chunk `c` of index `n` in the state `s`. -/
def Reaches (ctx : Context) (cs : List Chunk) (start : State) (n : Nat) (c : Chunk) (s : State) :
    Prop :=
  cs[n]? = some c ∧ after? ctx (cs.take n) start = some s

/-- A run from `start` comes to the operation `c` of index `n` in the state `s`, accepts it, and
executes it: all open branches are on a side that is executed. -/
structure Executes (ctx : Context) (cs : List Chunk) (start : State) (n : Nat) (c : Chunk)
    (s : State) : Prop where
  reaches : Reaches ctx cs start n c s
  payload : c.payload = none
  executing : s.executing = true
  accepted : accept ctx c s = .ok (counted c s)

/-- What the steps of the chunks reached keep, every state on the way has. -/
theorem after?_invariant_of_reaches {ctx : Context} {P : State → Prop} {cs : List Chunk}
    {start : State} (hstart : P start)
    (hstep : ∀ n c s, Reaches ctx cs start n c s → P s → (step ctx c s).Ensures P) {n : Nat}
    {s : State} (h : after? ctx (cs.take n) start = some s) : P s := by
  induction n generalizing s with
  | zero =>
      cases h
      exact hstart
  | succ n ih =>
      cases hc : cs[n]? with
      | none =>
          rw [List.take_add_one, hc, Option.toList_none, List.append_nil] at h
          exact ih h
      | some c =>
          obtain ⟨t, ht, hnext⟩ := exists_step_of_after?_take hc h
          have hkept := hstep n c t ⟨hc, ht⟩ (ih ht)
          rw [hnext] at hkept
          exact hkept

/-- What every step keeps, every state on the way has. -/
theorem after?_invariant {ctx : Context} {P : State → Prop} {cs : List Chunk}
    (hstep : ∀ c ∈ cs, ∀ s, P s → (step ctx c s).Ensures P) {s t : State} (hs : P s)
    (h : after? ctx cs s = some t) : P t := by
  induction cs generalizing s with
  | nil =>
      cases h
      exact hs
  | cons c rest ih =>
      obtain ⟨u, hu, hrest⟩ := exists_next_of_after?_cons h
      have hP := hstep c List.mem_cons_self s hs
      rw [hu] at hP
      exact ih (fun d hd => hstep d (List.mem_cons_of_mem c hd)) hP hrest

/-! ## Whole runs -/

theorem run_cons_next {ctx : Context} {c : Chunk} {s t : State} (h : step ctx c s = .next t)
    (rest : List Chunk) : run ctx (c :: rest) s = run ctx rest t := by
  simp only [run, h]

theorem run_cons_fail {ctx : Context} {c : Chunk} {s t : State} {reason : Reason}
    (h : step ctx c s = .fail reason t) (rest : List Chunk) :
    run ctx (c :: rest) s = ⟨t, some (reason, some (c.opcode, c.offset))⟩ := by
  simp only [run, h]

/-- A run goes on from every chunk that it reaches. -/
theorem exists_run_of_reaches {ctx : Context} {cs : List Chunk} {start s : State} {n : Nat}
    {c : Chunk} (h : Reaches ctx cs start n c s) :
    ∃ rest, run ctx cs start = run ctx (c :: rest) s := by
  obtain ⟨hc, hs⟩ := h
  induction cs generalizing start n with
  | nil => cases hc
  | cons d rest ih =>
      cases n with
      | zero =>
          cases hc
          cases hs
          exact ⟨rest, rfl⟩
      | succ n =>
          rw [List.take_succ_cons] at hs
          obtain ⟨t, ht, hrest⟩ := exists_next_of_after?_cons hs
          rw [run_cons_next ht]
          exact ih (by simpa using hc) hrest

/-- What every step keeps, a run that does not fail has in the end. -/
theorem run_ensures {ctx : Context} {P : State → Prop} {cs : List Chunk}
    (hstep : ∀ c ∈ cs, ∀ s, P s → (step ctx c s).Ensures P) {s : State} (hs : P s)
    (h : (run ctx cs s).failure = none) : P (run ctx cs s).state := by
  induction cs generalizing s with
  | nil =>
      simp only [run]
      split <;> exact hs
  | cons c rest ih =>
      have hP := hstep c List.mem_cons_self s hs
      simp only [run] at h ⊢
      split
      · rename_i t ht
        rw [ht] at h hP
        exact ih (fun d hd => hstep d (List.mem_cons_of_mem c hd)) hP h
      · rename_i t ht
        rw [ht] at hP
        exact hP
      · rename_i reason t ht
        rw [ht] at h
        cases h

/-- However a run ends, its last state has what every step leads to from the states on the way. -/
theorem run_state {ctx : Context} {P Q : State → Prop} {cs : List Chunk}
    (hPQ : ∀ s, P s → Q s)
    (hstep : ∀ c ∈ cs, ∀ s, P s → (step ctx c s).Ensures P ∧ Q (step ctx c s).state)
    {s : State} (hs : P s) : Q (run ctx cs s).state := by
  induction cs generalizing s with
  | nil =>
      simp only [run]
      split <;> exact hPQ s hs
  | cons c rest ih =>
      obtain ⟨hP, hQ⟩ := hstep c List.mem_cons_self s hs
      simp only [run]
      split
      · rename_i t ht
        rw [ht] at hP
        exact ih (fun d hd => hstep d (List.mem_cons_of_mem c hd)) hP
      · rename_i t ht
        rw [ht] at hQ
        exact hQ
      · rename_i reason t ht
        rw [ht] at hQ
        exact hQ

/-- A run ends after all its chunks, or with the step of one that it reaches. -/
theorem run_state_cases (ctx : Context) (cs : List Chunk) (start : State) :
    after? ctx cs start = some (run ctx cs start).state ∨
      ∃ n c s, Reaches ctx cs start n c s ∧ (run ctx cs start).state = (step ctx c s).state := by
  induction cs generalizing start with
  | nil =>
      simp only [run]
      split <;> exact Or.inl rfl
  | cons c rest ih =>
      simp only [run]
      split
      · rename_i t ht
        rcases ih t with hend | ⟨n, d, s, ⟨hd, hs⟩, hstate⟩
        · exact Or.inl (by rw [after?_cons ht, hend])
        · refine Or.inr ⟨n + 1, d, s, ⟨hd, ?_⟩, hstate⟩
          rw [List.take_succ_cons, after?_cons ht, hs]
      · rename_i t ht
        exact Or.inr ⟨0, c, start, ⟨rfl, rfl⟩, by rw [ht]; rfl⟩
      · rename_i reason t ht
        exact Or.inr ⟨0, c, start, ⟨rfl, rfl⟩, by rw [ht]; rfl⟩

end Machine

theorem Flags.limits_of_not_genesis {flags : Flags} (hg : flags.genesis = false) :
    flags.limits = .standard flags.magnetic := by
  simp [Flags.limits, hg]

theorem Flags.elementSize_of_not_genesis {flags : Flags} (hg : flags.genesis = false) :
    flags.limits.elementSize = 520 := by
  rw [flags.limits_of_not_genesis hg, Limits.standard]

theorem Flags.numberSize_of_not_genesis {flags : Flags} (hg : flags.genesis = false) :
    flags.limits.numberSize = 4 := by
  rw [flags.limits_of_not_genesis hg, Limits.standard, Number.standardSize]

theorem Flags.le_operations_of_not_genesis {flags : Flags} (hg : flags.genesis = false) :
    201 ≤ flags.limits.operations := by
  rw [flags.limits_of_not_genesis hg, Limits.standard]
  cases flags.magnetic <;> decide

section OfResult

variable {r : Machine.Result}

theorem Evaluation.ofResult_of_none (h : r.failure = none) :
    (ofResult r).outcome = .ok (topIsTrue r.state.stack) := by
  simp only [ofResult, h]

theorem Evaluation.ofResult_of_some {reason : Reason} {location : Option (Opcode × Nat)}
    (h : r.failure = some (reason, location)) : (ofResult r).outcome =
      .error ⟨reason, location, r.state.stack, r.state.altStack, r.state.opCount⟩ := by
  simp only [ofResult, h]

end OfResult

theorem evaluate_eq {checker : Checker} {flags : Flags} {p : Program}
    (h : p.size ≤ flags.limits.scriptSize) (stack : Stack) :
    evaluate checker flags p stack =
      .ofResult (Machine.run ⟨flags, checker, p.bytes⟩ p.chunks { stack := stack }) :=
  if_neg (Nat.not_lt.mpr h)

/-- An evaluation without failure is a run without failure. -/
theorem evaluate_eq_ok_iff {checker : Checker} {flags : Flags} {p : Program} {stack : Stack}
    {b : Bool} :
    (evaluate checker flags p stack).outcome = .ok b ↔
      p.size ≤ flags.limits.scriptSize ∧
        ∃ r, Machine.run ⟨flags, checker, p.bytes⟩ p.chunks { stack := stack } = r ∧
          r.failure = none ∧ topIsTrue r.state.stack = b := by
  unfold evaluate
  split
  · rename_i hsize
    constructor
    · intro h
      cases h
    · rintro ⟨hle, -⟩
      omega
  · rename_i hsize
    generalize Machine.run ⟨flags, checker, p.bytes⟩ p.chunks { stack := stack } = r
    simp only [Evaluation.ofResult]
    cases hf : r.failure with
    | none => simp [Nat.le_of_not_gt hsize, hf]
    | some failure => simp [hf]

theorem evaluate_stack {checker : Checker} {flags : Flags} {p : Program} {stack : Stack}
    (h : p.size ≤ flags.limits.scriptSize) :
    (evaluate checker flags p stack).stack =
      (Machine.run ⟨flags, checker, p.bytes⟩ p.chunks { stack := stack }).state.stack := by
  rw [evaluate_eq h]
  rfl

end BitcoinScript
