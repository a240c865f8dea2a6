import BitcoinScript.Proofs.Machine.Frame
import BitcoinScript.Proofs.Machine.ItemSize
import BitcoinScript.Proofs.Verification.Verdict

/-!
# Resource limits in every reachable state

After every step that does not fail, the operations counted, the number and length of the items or
the memory they are charged for are within the limits (`WithinLimits`). The step itself checks
the number of items, the memory and most of the count; that items do not get too long, and that the
keys of a signature check are counted within the limit, is the work of the operations.

What a step relies on is less: that the count and the items were within their limits before
(`Admissible`). The stack on which a script starts may be deeper than the limit; only if it is still
too deep after a step does that step fail.
-/

namespace BitcoinScript

open Stack

namespace Machine

/-- The bounds on what the two stacks hold. -/
def StacksWithin (flags : Flags) (stack altStack : Stack) : Prop :=
  (flags.genesis = false → stack.length + altStack.length ≤ 1000 ∧
    ∀ x ∈ stack ++ altStack, x.size ≤ 520) ∧
  (flags.genesis = true → Stack.memory stack + Stack.memory altStack ≤ 100000000)

/-- A state within all limits. -/
structure WithinLimits (flags : Flags) (s : State) : Prop where
  opCount_le : s.opCount ≤ flags.limits.operations
  held : StacksWithin flags s.stack s.altStack

/-- A state in which steps keep the limits. -/
structure Admissible (flags : Flags) (s : State) : Prop where
  opCount_le : s.opCount ≤ flags.limits.operations
  fits : flags.genesis = false → Fits 520 s.stack ∧ Fits 520 s.altStack

theorem WithinLimits.admissible {flags : Flags} {s : State} (h : WithinLimits flags s) :
    Admissible flags s := by
  refine ⟨h.opCount_le, ?_⟩
  intro hg
  have hitems := (h.held.1 hg).2
  constructor
  · intro x hx
    exact hitems x (List.mem_append_left _ hx)
  · intro x hx
    exact hitems x (List.mem_append_right _ hx)

theorem StacksWithin.main {flags : Flags} {stack altStack : Stack}
    (h : StacksWithin flags stack altStack) : StacksWithin flags stack [] := by
  constructor
  · intro hg
    obtain ⟨hlength, hitems⟩ := h.1 hg
    refine ⟨by rw [List.length_nil]; omega, ?_⟩
    intro x hx
    rw [List.append_nil] at hx
    exact hitems x (List.mem_append_left _ hx)
  · intro hg
    have hmemory := h.2 hg
    rw [memory_nil]
    omega

/-- Without its top item, a stack is within the bounds as well. -/
theorem StacksWithin.tail {flags : Flags} {x : Item} {stack : Stack}
    (h : StacksWithin flags (x :: stack) []) : StacksWithin flags stack [] := by
  constructor
  · intro hg
    obtain ⟨hlength, hitems⟩ := h.1 hg
    rw [List.length_cons] at hlength
    refine ⟨by omega, ?_⟩
    intro y hy
    exact hitems y (List.mem_cons_of_mem x hy)
  · intro hg
    have hmemory := h.2 hg
    rw [memory_cons] at hmemory
    omega

/-! ## The count of operations -/

theorem perform_opCount {ctx : Context} {c : Chunk} {s : State}
    (hs : s.opCount ≤ ctx.limits.operations) :
    (perform ctx c s).Ensures fun t => t.opCount ≤ ctx.limits.operations := by
  cases hlocal : isLocal c.opcode.operation with
  | true =>
      obtain ⟨stack, altStack, branches, hstate⟩ := perform_of_local ctx s hlocal
      exact Outcome.ensures_of_state (by rw [hstate]; exact hs)
  | false =>
      unfold perform
      cases hop : c.opcode.operation with
      | lockTime =>
          obtain ⟨calls, hstate⟩ := lockTime_alike ctx c.opcode s
          exact Outcome.ensures_of_state (by dsimp only; rw [hstate]; exact hs)
      | codeSeparator => exact hs
      | checkSig required => exact checkSig_ensures fun _ _ _ _ _ _ _ => hs
      | checkMultiSig required => exact checkMultiSig_ensures fun _ _ _ _ _ hcount _ => hcount
      | _ => rw [hop] at hlocal; cases hlocal

/-! ## The length of items -/

theorem natAbs_le_of_smallInt {op : Opcode} {n : Int} (h : op.operation = .smallInt n) :
    n.natAbs ≤ 16 := by
  have htable : ∀ e ∈ Opcode.operations,
      (match e.2 with | .smallInt _ => false | _ => true) = true := by decide
  rcases op.operation_cases with ⟨m, hm, hop⟩ | hbad | hmem
  · rw [h] at hop
    cases hop
    unfold Opcode.smallInt? at hm
    split at hm
    · cases hm
      decide
    · split at hm
      · rename_i hrange
        cases hm
        have hle : 0x51 ≤ op.byte.toNat := UInt8.le_iff_toNat_le.mp hrange.1
        have hle' : op.byte.toNat ≤ 0x60 := UInt8.le_iff_toNat_le.mp hrange.2
        omega
      · cases hm
  · rw [h] at hbad
    cases hbad
  · have hno := htable _ hmem
    rw [h] at hno
    cases hno

theorem Answered.fits {k : Nat} (hk : 520 ≤ k) {rest stack : Stack} (h : Answered rest stack)
    (hrest : Fits k rest) : Fits k stack := by
  rcases h with rfl | ⟨valid, p, rfl⟩
  · exact hrest
  · exact ofBool_fits hk hrest

/-- No item on the two stacks is longer than `k`, unless the stack is too deep anyway. -/
def KeepsFit (k : Nat) (t : State) : Prop :=
  t.stack.length ≤ 1000 → Fits k t.stack ∧ Fits k t.altStack

section Items

variable {ctx : Context} {k : Nat} {s : State}

theorem withStack_fits (ha : Fits k s.altStack) {r : Except Reason Stack}
    (h : ∀ stack, r = .ok stack → Fits k stack) : (s.withStack r).Ensures (KeepsFit k) :=
  withStack_ensures fun stack hstack _ => ⟨h stack hstack, ha⟩

theorem shift_fits {d : Direction} (hs : Fits k s.stack) (ha : Fits k s.altStack) :
    (shift ctx.flags d s).Ensures (KeepsFit k) := by
  unfold shift
  split
  · trivial
  · rename_i count rest hstack
    rw [hstack] at hs
    split
    · trivial
    · split
      · trivial
      · split
        · trivial
        · rename_i n hn hneg x below
          refine fun _ => ⟨Fits.push ?_ hs.tail.tail, ha⟩
          rw [Item.size_merge, size_withBytes, Bytes.length_shift, Item.length_bytes]
          exact (fits_cons.mp hs.tail).1

theorem openBranch_fits {negated : Bool} (hs : Fits k s.stack) (ha : Fits k s.altStack) :
    (openBranch negated s).Ensures (KeepsFit k) := by
  unfold openBranch
  split
  · split
    · trivial
    · rename_i x rest hstack
      rw [hstack] at hs
      exact fun _ => ⟨hs.tail, ha⟩
  · exact fun _ => ⟨hs, ha⟩

theorem perform_fits (hk : 520 ≤ k) (hg : ctx.flags.genesis = false) (c : Chunk)
    (hs : Fits k s.stack) (ha : Fits k s.altStack) : (perform ctx c s).Ensures (KeepsFit k) := by
  unfold perform
  cases hop : c.opcode.operation with
  | bad => trivial
  | smallInt n =>
      have hnumber : n.natAbs < Number.signWeight 1 :=
        Nat.lt_of_le_of_lt (natAbs_le_of_smallInt hop) (by decide)
      refine fun _ => ⟨hs.push ?_, ha⟩
      exact Nat.le_trans (Item.size_ofInt_le (by omega) hnumber) (by omega)
  | nop => exact fun _ => ⟨hs, ha⟩
  | upgradableNop =>
      refine Outcome.ensures_of_state ?_
      dsimp only
      rw [upgradableNop_state]
      exact fun _ => ⟨hs, ha⟩
  | lockTime =>
      obtain ⟨calls, hstate⟩ := lockTime_alike ctx c.opcode s
      refine Outcome.ensures_of_state ?_
      dsimp only
      rw [hstate]
      exact fun _ => ⟨hs, ha⟩
  | openBranch negated => exact openBranch_fits hs ha
  | turnBranch =>
      dsimp only [turnBranch]
      split
      · trivial
      · exact fun _ => ⟨hs, ha⟩
  | closeBranch =>
      dsimp only [closeBranch]
      split
      · trivial
      · exact fun _ => ⟨hs, ha⟩
  | verify => exact withStack_fits ha fun _ => verify_fits hs
  | exit =>
      dsimp only [exit]
      rw [hg]
      trivial
  | toAlt =>
      dsimp only [toAlt]
      split
      · trivial
      · rename_i x rest hstack
        rw [hstack] at hs
        exact fun _ => ⟨hs.tail, ha.push (fits_cons.mp hs).1⟩
  | fromAlt =>
      dsimp only [fromAlt]
      split
      · trivial
      · rename_i x rest hstack
        rw [hstack] at ha
        exact fun _ => ⟨hs.push (fits_cons.mp ha).1, ha.tail⟩
  | stack op => exact withStack_fits ha fun _ => moved_fits hs
  | dupIfTrue => exact withStack_fits ha fun _ => dupIfTrue_fits hs
  | depth =>
      intro hlength
      simp only [depth, List.length_cons] at hlength
      exact ⟨depth_fits hk hs (by omega), ha⟩
  | fetch takeOut => exact withStack_fits ha fun _ => fetch_fits hs
  | cat => exact withStack_fits ha fun _ => cat_fits hk hg hs
  | split => exact withStack_fits ha fun _ => split_fits hs
  | numToBin => exact withStack_fits ha fun _ => numToBin_fits hk hg hs
  | binToNum => exact withStack_fits ha fun _ => binToNum_fits hk hg hs
  | size => exact withStack_fits ha fun _ => size_fits hk hs
  | invert => exact withStack_fits ha fun _ => invert_fits hs
  | bitwise op => exact withStack_fits ha fun _ => bitwise_fits hs
  | equal => exact withStack_fits ha fun _ => equal_fits hk hs
  | equalVerify => exact withStack_fits ha fun _ => equalVerify_fits hs
  | shift d => exact shift_fits hs ha
  | unary op => exact withStack_fits ha fun _ => unary_fits hk hg hs
  | binary op => exact withStack_fits ha fun _ => binary_fits hk hg hs
  | numEqualVerify => exact withStack_fits ha fun _ => numEqualVerify_fits hs
  | within => exact withStack_fits ha fun _ => within_fits hk hs
  | hash op => exact withStack_fits ha fun _ => hash_fits hk hs
  | codeSeparator => exact fun _ => ⟨hs, ha⟩
  | checkSig required =>
      refine checkSig_ensures fun key sig rest stack calls hstack hanswer _ => ?_
      rw [hstack] at hs
      exact ⟨hanswer.fits hk hs.tail.tail, ha⟩
  | checkMultiSig required =>
      refine checkMultiSig_ensures fun keyCount operands stack calls _ _ hanswer _ => ?_
      exact ⟨hanswer.fits hk (hs.subset (List.drop_subset operands s.stack)), ha⟩

theorem execute_fits (hk : 520 ≤ k) (hg : ctx.flags.genesis = false) {c : Chunk}
    (hlong : isTooLong ctx.limits c = false) (hs : Fits k s.stack) (ha : Fits k s.altStack) :
    (execute ctx c s).Ensures (KeepsFit k) := by
  unfold execute
  split
  · rename_i data hpayload
    split
    · split
      · trivial
      · refine fun _ => ⟨hs.push ?_, ha⟩
        simp only [isTooLong, hpayload, decide_eq_false_iff_not, Context.limits,
          Flags.elementSize_of_not_genesis hg] at hlong
        rw [Item.size_literal]
        omega
    · exact fun _ => ⟨hs, ha⟩
  · split
    · exact perform_fits hk hg c hs ha
    · exact fun _ => ⟨hs, ha⟩

end Items

/-! ## Steps -/

theorem execute_opCount {ctx : Context} {c : Chunk} {s : State}
    (hs : s.opCount ≤ ctx.limits.operations) :
    (execute ctx c s).Ensures fun t => t.opCount ≤ ctx.limits.operations := by
  rcases execute_cases ctx c s with ⟨-, -, hsame⟩ | ⟨stack, hnext⟩ | ⟨reason, hfail⟩
  · rw [hsame]
    exact perform_opCount hs
  · rw [hnext]
    exact hs
  · rw [hfail]
    trivial

theorem counted_opCount_le {ctx : Context} {c : Chunk} {s : State}
    (hs : s.opCount ≤ ctx.limits.operations)
    (hcount : c.opcode.isCounted = true → s.opCount < ctx.limits.operations) :
    (counted c s).opCount ≤ ctx.limits.operations := by
  unfold counted
  split
  · rename_i hcounted
    exact hcount hcounted
  · exact hs

theorem step_opCount {ctx : Context} (c : Chunk) {s : State}
    (hs : s.opCount ≤ ctx.limits.operations) :
    (step ctx c s).Ensures fun t => t.opCount ≤ ctx.limits.operations := by
  refine step_ensures ?_ (fun t ht _ => ht)
  intro t ht
  obtain ⟨-, -, hcount, rfl⟩ := accept_eq_ok_iff.mp ht
  exact execute_opCount (counted_opCount_le hs hcount)

theorem length_le_of_checkBound {ctx : Context} (hg : ctx.flags.genesis = false) {t : State}
    (h : checkBound ctx t = .ok ()) : t.stack.length + t.altStack.length ≤ 1000 := by
  unfold checkBound Context.limits Flags.limits at h
  simp only [hg, Bool.false_eq_true, if_false, Limits.standard] at h
  split at h
  · cases h
  · rename_i hdepth
    exact Nat.not_lt.mp hdepth

theorem stack_limits_of_genesis {ctx : Context} (hg : ctx.flags.genesis = true) :
    ctx.limits.stack = .memory 100000000 := by
  unfold Context.limits Flags.limits
  rw [if_pos hg]
  rfl

theorem checkBound_eq_ok_iff_memory_le {ctx : Context} (hg : ctx.flags.genesis = true) {t : State} :
    checkBound ctx t = .ok () ↔ t.memory ≤ 100000000 := by
  unfold checkBound
  rw [stack_limits_of_genesis hg]
  simp only [ite_eq_right_iff, reduceCtorEq, imp_false]
  omega

theorem memory_le_of_checkBound {ctx : Context} (hg : ctx.flags.genesis = true) {t : State}
    (h : checkBound ctx t = .ok ()) : t.memory ≤ 100000000 :=
  (checkBound_eq_ok_iff_memory_le hg).mp h

theorem stacksWithin_of_checkBound {ctx : Context} {t : State} (h : checkBound ctx t = .ok ())
    (hfits : ctx.flags.genesis = false → KeepsFit 520 t) :
    StacksWithin ctx.flags t.stack t.altStack := by
  constructor
  · intro hg
    have hlength := length_le_of_checkBound hg h
    obtain ⟨hstack, halt⟩ := hfits hg (by omega)
    refine ⟨hlength, ?_⟩
    intro x hx
    rcases List.mem_append.mp hx with hx | hx
    · exact hstack x hx
    · exact halt x hx
  · intro hg
    exact memory_le_of_checkBound hg h

/-- One step keeps the limits. -/
theorem step_withinLimits {ctx : Context} (c : Chunk) {s : State} (hs : Admissible ctx.flags s) :
    (step ctx c s).Ensures (WithinLimits ctx.flags) := by
  refine step_ensures (Q := fun t => t.opCount ≤ ctx.limits.operations ∧
    (ctx.flags.genesis = false → KeepsFit 520 t)) ?_ ?_
  · intro t ht
    obtain ⟨hlong, -, hcount, rfl⟩ := accept_eq_ok_iff.mp ht
    refine (execute_opCount (counted_opCount_le hs.opCount_le hcount)).and ?_
    by_cases hg : ctx.flags.genesis = false
    · have hfits := hs.fits hg
      rw [← counted_stack c, ← counted_altStack c] at hfits
      exact (execute_fits (Nat.le_refl _) hg hlong hfits.1 hfits.2).mono fun t ht _ => ht
    · exact Outcome.ensures_of_state fun hno => absurd hno hg
  · rintro t ⟨hcount, hfits⟩ hbound
    exact ⟨hcount, stacksWithin_of_checkBound hbound hfits⟩

theorem admissible_of_reaches {ctx : Context} {cs : List Chunk} {start s : State} {n : Nat}
    {c : Chunk} (hstart : Admissible ctx.flags start) (h : Reaches ctx cs start n c s) :
    Admissible ctx.flags s :=
  after?_invariant (fun d _ _ ht => (step_withinLimits d ht).mono fun _ hu => hu.admissible)
    hstart h.2

end Machine

open Machine

/-! ## Evaluations and spends -/

variable {checker : Checker} {flags : Flags}

theorem stacksWithin_nil : StacksWithin flags [] [] := by
  constructor
  · intro _
    refine ⟨by simp, ?_⟩
    intro x hx
    cases hx
  · intro _
    simp

/-- An evaluation that succeeds leaves a stack within the bounds if it starts on one. -/
theorem evaluate_stacksWithin {p : Program} {stack : Stack} {b : Bool}
    (hstack : StacksWithin flags stack [])
    (h : (evaluate checker flags p stack).outcome = .ok b) :
    StacksWithin flags (evaluate checker flags p stack).stack [] := by
  obtain ⟨hsize, r, rfl, hnone, -⟩ := evaluate_eq_ok_iff.mp h
  have hrun := run_ensures (P := WithinLimits flags)
    (fun c _ s hs => step_withinLimits c hs.admissible) ⟨Nat.zero_le _, hstack⟩ hnone
  rw [evaluate_stack hsize]
  exact hrun.held.main

/-- **The limits hold in every reachable state.** After every step that does not fail, the count of
operations and the two stacks are within the limits, if no item is too long at the start. So are the
stacks that scripts leave and that spends hand from one script to the next. -/
theorem limits_hold (checker : Checker) (flags : Flags) :
    (∀ (p : Program) (stack : Stack), (∀ x ∈ stack, x.size ≤ flags.limits.elementSize) →
      ∀ n c s, Reaches ⟨flags, checker, p.bytes⟩ p.chunks { stack := stack } n c s →
        (step ⟨flags, checker, p.bytes⟩ c s).Ensures (WithinLimits flags)) ∧
    (∀ (script : Bytes) (e : Evaluation) (b : Bool), execute checker flags script = .ok e →
      e.outcome = .ok b → StacksWithin flags e.stack []) ∧
    ∀ unlocking locking : Bytes, ∀ stage ∈ (verifySpend checker flags unlocking locking).stages,
      StacksWithin flags stage.stack [] := by
  refine ⟨?_, ?_, ?_⟩
  · intro p stack hitems n c s hreach
    have hstart : Admissible flags { stack := stack } := by
      refine ⟨Nat.zero_le _, ?_⟩
      intro hg
      rw [Flags.elementSize_of_not_genesis hg] at hitems
      exact ⟨hitems, fits_nil⟩
    exact step_withinLimits c (admissible_of_reaches hstart hreach)
  · intro script e b hexecute hb
    unfold execute at hexecute
    split at hexecute
    · cases hexecute
    · cases hexecute
      exact evaluate_stacksWithin stacksWithin_nil hb
  · intro unlocking locking stage hstage
    rcases stack_of_mem_stages hstage with hempty | ⟨u, b, -, hb, hleft⟩
    · rw [hempty]
      exact stacksWithin_nil
    · have hwithin := evaluate_stacksWithin stacksWithin_nil hb
      rcases hleft with hsame | ⟨script, hbelow⟩
      · rw [hsame]
        exact hwithin
      · rw [hbelow] at hwithin
        exact hwithin.tail

/-- The script `DUP` on one item of one byte leaves two. -/
theorem limits_hold_dup :
    Reaches ⟨{}, .absent, [0x76]⟩ [⟨⟨0x76⟩, none, 0⟩] { stack := [.literal [0x01]] } 0
        ⟨⟨0x76⟩, none, 0⟩ { stack := [.literal [0x01]] } ∧
      WithinLimits {} { stack := [.literal [0x01], .literal [0x01]], opCount := 1 } := by
  have hstart : Reaches ⟨{}, .absent, [0x76]⟩ [⟨⟨0x76⟩, none, 0⟩] { stack := [.literal [0x01]] } 0
      ⟨⟨0x76⟩, none, 0⟩ { stack := [.literal [0x01]] } := ⟨rfl, rfl⟩
  have hitems : ∀ x ∈ [Item.literal [0x01]], x.size ≤ ({} : Flags).limits.elementSize := by decide
  exact ⟨hstart, (limits_hold .absent {}).1 ⟨[⟨⟨0x76⟩, none, 0⟩], [0x76]⟩ [.literal [0x01]] hitems
    0 _ _ hstart⟩

end BitcoinScript
