import BitcoinScript.Proofs.Machine.Limits
import BitcoinScript.Proofs.Verification.SignatureGate

/-!
# The work of checking signatures

Each question about a signature is paid for by an operation that has been counted before it is
asked: a single check by the count of its own opcode, and a check of several signatures by the
count of its keys, of which each is tried once at most. Before the limits are lifted this bounds the
questions of every script, however it ends (`signature_work_bounded`).

The bound is kept also between the updates of one step. `Moment` lists the states that the machine
passes through during a step, those in the middle of a check of several signatures included;
`Billed` says what may have changed since the start of the step.
-/

namespace BitcoinScript

/-- Whether a question is about a signature. -/
def Call.isSignature : Call → Bool
  | .signature .. => true
  | .lockTime .. => false

/-- The number of questions about signatures. -/
def signatureCalls (calls : List Call) : Nat := calls.countP Call.isSignature

theorem signatureCalls_append (a b : List Call) :
    signatureCalls (a ++ b) = signatureCalls a + signatureCalls b :=
  List.countP_append

namespace Machine

/-! ## Moments of a step -/

/-- The states that are passed through while signatures are matched with keys. -/
inductive Matching (ctx : Context) (code : Bytes) : List Item → List Item → State → State → Prop
  | start (sigs keys : List Item) (s : State) : Matching ctx code sigs keys s s
  | asked {sig key : Item} {sigs keys : List Item} {s asked : State} {r : Except Reason Bool}
      (hpair : checkPair ctx code sig key s = (r, asked)) :
      Matching ctx code (sig :: sigs) (key :: keys) s asked
  | later {sig key : Item} {sigs keys : List Item} {s asked u : State} {valid : Bool}
      (hpair : checkPair ctx code sig key s = (.ok valid, asked))
      (hleft : (if valid then sigs else sig :: sigs).length ≤ keys.length)
      (h : Matching ctx code (if valid then sigs else sig :: sigs) keys asked u) :
      Matching ctx code (sig :: sigs) (key :: keys) s u

/-- The states that are passed through once a check of several signatures has counted its keys. -/
inductive Checking (ctx : Context) (s : State) : State → Prop
  | keysCounted {keyCount : Nat}
      (hkeys : countAt ctx.flags 0 ctx.limits.multiSigKeys .keyCount s.stack = .ok keyCount) :
      Checking ctx s { s with opCount := s.opCount + keyCount }
  | matching {keyCount sigCount : Nat} {dummy : Item} {u : State}
      (hkeys : countAt ctx.flags 0 ctx.limits.multiSigKeys .keyCount s.stack = .ok keyCount)
      (hcount : s.opCount + keyCount ≤ ctx.limits.operations)
      (hsigs : countAt ctx.flags (keyCount + 1) keyCount .signatureCount s.stack = .ok sigCount)
      (hdummy : s.stack[keyCount + sigCount + 2]? = some dummy)
      (h : Matching ctx
        (withoutSignatures (scriptCode ctx s) ((s.stack.drop (keyCount + 2)).take sigCount))
        ((s.stack.drop (keyCount + 2)).take sigCount) ((s.stack.drop 1).take keyCount)
        { s with opCount := s.opCount + keyCount } u) :
      Checking ctx s u

/-- The states that are passed through during the step of a chunk, as far as they differ in the
count or in the questions asked. -/
inductive Moment (ctx : Context) (c : Chunk) (s : State) : State → Prop
  | start : Moment ctx c s s
  | accepted {t : State} (haccept : accept ctx c s = .ok t) : Moment ctx c s t
  | checking {t u : State} {required : Bool} (haccept : accept ctx c s = .ok t)
      (hpayload : c.payload = none) (hperformed : isPerformed c t = true)
      (hop : c.opcode.operation = .checkMultiSig required) (h : Checking ctx t u) :
      Moment ctx c s u
  | finish : Moment ctx c s (step ctx c s).state

/-- Matching ends in one of the states that it passes through. -/
theorem matching_matchKeys (ctx : Context) (code : Bytes) (sigs keys : List Item) (s : State) :
    Matching ctx code sigs keys s (matchKeys ctx code sigs keys s).2 := by
  induction keys generalizing sigs s with
  | nil => cases sigs <;> exact .start _ _ _
  | cons key keys ih =>
      cases sigs with
      | nil => exact .start _ _ _
      | cons sig sigs =>
          simp only [matchKeys]
          split
          · rename_i e asked hpair
            exact .asked hpair
          · rename_i valid asked hpair
            by_cases hleft : (if valid then sigs else sig :: sigs).length > keys.length
            · rw [if_pos hleft]
              exact .asked hpair
            · rw [if_neg hleft]
              exact .later hpair (Nat.not_lt.mp hleft) (ih _ asked)

/-! ## What a moment costs -/

theorem signatureCalls_record_le (s : State) (c : Call) :
    signatureCalls (s.record c).calls ≤ signatureCalls s.calls + 1 := by
  have hone : signatureCalls [c] ≤ 1 := List.countP_le_length
  rw [State.record, signatureCalls_append]
  omega

theorem checkPair_signatureCalls_le {ctx : Context} {code : Bytes} {sig key : Item} {s t : State}
    {r : Except Reason Bool} (h : checkPair ctx code sig key s = (r, t)) :
    signatureCalls t.calls ≤ signatureCalls s.calls + 1 := by
  unfold checkPair at h
  split at h
  · cases h
    exact Nat.le_succ _
  · split at h
    · cases h
      exact Nat.le_succ _
    · split at h
      · cases h
        exact Nat.le_succ _
      · dsimp only at h
        split at h
        · cases h
          exact signatureCalls_record_le s _
        · cases h
          exact signatureCalls_record_le s _

/-- Each key is tried once at most, and trying it counts nothing. -/
theorem Matching.cost {ctx : Context} {code : Bytes} {sigs keys : List Item} {s u : State}
    (h : Matching ctx code sigs keys s u) :
    u.opCount = s.opCount ∧ signatureCalls u.calls ≤ signatureCalls s.calls + keys.length := by
  induction h with
  | start sigs keys s => exact ⟨rfl, Nat.le_add_right _ _⟩
  | asked hpair =>
      obtain ⟨calls, rfl⟩ := checkPair_alike hpair
      have hone := checkPair_signatureCalls_le hpair
      refine ⟨rfl, ?_⟩
      rw [List.length_cons]
      omega
  | later hpair hleft h ih =>
      obtain ⟨calls, rfl⟩ := checkPair_alike hpair
      have hone := checkPair_signatureCalls_le hpair
      obtain ⟨hcount, hrest⟩ := ih
      refine ⟨hcount, ?_⟩
      rw [List.length_cons]
      omega

/-- On the way from `s` to `t` every question about a signature is paid for by an operation, and
none is asked once the count has exceeded the limit. -/
structure Billed (limit : Nat) (s t : State) : Prop where
  paid : signatureCalls t.calls + s.opCount ≤ signatureCalls s.calls + t.opCount
  within : signatureCalls t.calls = signatureCalls s.calls ∨ t.opCount ≤ limit

namespace Billed

variable {limit : Nat} {s t u : State}

theorem of_eq (hcalls : signatureCalls t.calls = signatureCalls s.calls)
    (hcount : s.opCount ≤ t.opCount) : Billed limit s t :=
  ⟨by omega, Or.inl hcalls⟩

theorem of_counted {c : Chunk} (h : Billed limit (counted c s) t) : Billed limit s t := by
  have hcount : s.opCount ≤ (counted c s).opCount := by
    unfold counted
    split
    · exact Nat.le_succ _
    · exact Nat.le_refl _
  obtain ⟨hpaid, hwithin⟩ := h
  rw [counted_calls] at hpaid hwithin
  exact ⟨by omega, hwithin⟩

end Billed

variable {ctx : Context} {c : Chunk} {s t : State}

/-- In a check of several signatures, the keys pay for the questions. -/
theorem Checking.billed (h : Checking ctx s t) : Billed ctx.limits.operations s t := by
  cases h with
  | keysCounted hkeys => exact .of_eq rfl (Nat.le_add_right _ _)
  | matching hkeys hcount hsigs hdummy h =>
      obtain ⟨hopCount, hcalls⟩ := h.cost
      rw [List.length_take] at hcalls
      dsimp only at hopCount hcalls
      exact ⟨by omega, Or.inr (by omega)⟩

theorem checkMultiSig_billed (required : Bool) :
    Billed ctx.limits.operations s (checkMultiSig ctx required s).state := by
  unfold checkMultiSig
  split
  · exact .of_eq rfl (Nat.le_refl _)
  · rename_i keyCount hkeys
    have hcounted := (Checking.keysCounted hkeys).billed
    dsimp only
    split
    · exact hcounted
    · rename_i hcount
      split
      · exact hcounted
      · rename_i sigCount hsigs
        split
        · exact hcounted
        · rename_i dummy hdummy
          have hmatched := (Checking.matching hkeys (Nat.not_lt.mp hcount) hsigs hdummy
            (matching_matchKeys ctx _ _ _ _)).billed
          rw [show scriptCode ctx { s with opCount := s.opCount + keyCount } = scriptCode ctx s
            from rfl]
          split
          · rename_i e asked hmatch
            rw [hmatch] at hmatched
            exact hmatched
          · rename_i valid asked hmatch
            rw [hmatch] at hmatched
            split
            · exact hmatched
            · obtain ⟨stack, hstate⟩ := conclude_state Opcode.checkMultiSigVerify required valid
                (Stack.provenance (s.stack.take (keyCount + sigCount + 3)))
                (s.stack.drop (keyCount + sigCount + 3)) asked
              rw [hstate]
              exact ⟨hmatched.paid, hmatched.within⟩

theorem checkSig_cost (ctx : Context) (required : Bool) (s : State) :
    (checkSig ctx required s).state.opCount = s.opCount ∧
      signatureCalls (checkSig ctx required s).state.calls ≤ signatureCalls s.calls + 1 := by
  obtain ⟨stack, calls, hstate⟩ := checkSig_state ctx required s
  refine ⟨by rw [hstate], ?_⟩
  unfold checkSig
  split
  · split
    · rename_i e asked hpair
      exact checkPair_signatureCalls_le hpair
    · rename_i valid asked hpair
      rw [conclude_calls]
      exact checkPair_signatureCalls_le hpair
  · exact Nat.le_succ _

theorem lockTime_signatureCalls (ctx : Context) (op : Opcode) (s : State) :
    signatureCalls (lockTime ctx op s).state.calls = signatureCalls s.calls := by
  obtain ⟨asked, hcalls, hasked⟩ := lockTime_asks ctx op [] s
  have hnone : signatureCalls asked = 0 := by
    refine List.countP_eq_zero.mpr ?_
    intro call hcall
    cases hasked call hcall with
    | lockTime time => exact Bool.false_ne_true
    | signature hsigs hsig hpair => cases hsigs
  rw [hcalls, signatureCalls_append, hnone, Nat.add_zero]

theorem isCounted_of_checkSig {op : Opcode} {required : Bool}
    (h : op.operation = .checkSig required) : op.isCounted = true := by
  refine Opcode.of_operation (P := fun op => op.isCounted = true) h rfl ?_
  cases required <;> decide

/-- An operation whose own opcode has been counted within the limit is paid for. -/
theorem perform_billed (hcount : c.opcode.isCounted = true → s.opCount < ctx.limits.operations) :
    Billed ctx.limits.operations s (perform ctx c (counted c s)).state := by
  have hle := opCount_le_perform ctx c (counted c s)
  cases hlocal : isLocal c.opcode.operation with
  | true =>
      obtain ⟨stack, altStack, branches, hstate⟩ := perform_of_local ctx (counted c s) hlocal
      refine .of_counted (.of_eq ?_ hle)
      rw [hstate]
  | false =>
      unfold perform at hle ⊢
      cases hop : c.opcode.operation with
      | lockTime =>
          rw [hop] at hle
          exact .of_counted (.of_eq (lockTime_signatureCalls ctx c.opcode _) hle)
      | codeSeparator => exact .of_counted (.of_eq rfl (Nat.le_refl _))
      | checkSig required =>
          have hcounted := isCounted_of_checkSig hop
          have hlt := hcount hcounted
          obtain ⟨hopCount, hcalls⟩ := checkSig_cost ctx required (counted c s)
          have hone : (counted c s).opCount = s.opCount + 1 := by
            rw [counted, if_pos hcounted]
          rw [hone] at hopCount
          rw [counted_calls] at hcalls
          dsimp only
          exact ⟨by omega, Or.inr (by omega)⟩
      | checkMultiSig required => exact .of_counted (checkMultiSig_billed required)
      | _ => rw [hop] at hlocal; cases hlocal

theorem step_billed (ctx : Context) (c : Chunk) (s : State) :
    Billed ctx.limits.operations s (step ctx c s).state := by
  have hcounted : Billed ctx.limits.operations s (counted c s) :=
    .of_counted (c := c) (.of_eq rfl (Nat.le_refl _))
  unfold step
  split
  · rename_i reason t ht
    rcases state_of_accept_error ht with rfl | rfl
    · exact .of_eq rfl (Nat.le_refl _)
    · exact hcounted
  · rename_i t ht
    obtain ⟨-, -, hcount, rfl⟩ := accept_eq_ok_iff.mp ht
    rw [bounded_state]
    rcases execute_cases ctx c (counted c s) with
      ⟨-, -, hsame⟩ | ⟨stack, hnext⟩ | ⟨reason, hfail⟩
    · rw [hsame]
      exact perform_billed hcount
    · rw [hnext]
      exact ⟨hcounted.paid, hcounted.within⟩
    · rw [hfail]
      exact hcounted

theorem Moment.billed (h : Moment ctx c s t) : Billed ctx.limits.operations s t := by
  cases h with
  | start => exact .of_eq rfl (Nat.le_refl _)
  | accepted haccept =>
      obtain ⟨-, -, -, rfl⟩ := accept_eq_ok_iff.mp haccept
      exact .of_counted (.of_eq rfl (Nat.le_refl _))
  | checking haccept hpayload hperformed hop h =>
      obtain ⟨-, -, -, rfl⟩ := accept_eq_ok_iff.mp haccept
      exact .of_counted h.billed
  | finish => exact step_billed ctx c s

/-! ## Runs -/

/-- Between two steps: the questions asked are paid for, and the count is within the limit. -/
structure Solvent (limit : Nat) (s : State) : Prop where
  calls_le : signatureCalls s.calls ≤ s.opCount
  opCount_le : s.opCount ≤ limit

/-- At a moment of a step that starts between two steps, the count may exceed the limit, but the
questions do not. -/
theorem Solvent.bounds {limit : Nat} (hs : Solvent limit s) (h : Billed limit s t) :
    signatureCalls t.calls ≤ t.opCount ∧ signatureCalls t.calls ≤ limit := by
  have hcalls := hs.calls_le
  have hcount := hs.opCount_le
  have hpaid := h.paid
  refine ⟨by omega, ?_⟩
  rcases h.within with hsame | hwithin
  · omega
  · omega

theorem step_solvent (c : Chunk) (hs : Solvent ctx.limits.operations s) :
    (step ctx c s).Ensures (Solvent ctx.limits.operations) := by
  have hbounds := hs.bounds (step_billed ctx c s)
  have hcalls : (step ctx c s).Ensures fun t => signatureCalls t.calls ≤ t.opCount :=
    Outcome.ensures_of_state hbounds.1
  exact (hcalls.and (step_opCount c hs.opCount_le)).mono fun t ht => ⟨ht.1, ht.2⟩

theorem solvent_of_reaches {cs : List Chunk} {start : State} {n : Nat}
    (hstart : Solvent ctx.limits.operations start) (h : Reaches ctx cs start n c s) :
    Solvent ctx.limits.operations s :=
  after?_invariant (fun d _ _ ht => step_solvent d ht) hstart h.2

theorem run_signatureCalls_le (ctx : Context) {cs : List Chunk} {s : State}
    (hs : Solvent ctx.limits.operations s) :
    signatureCalls (run ctx cs s).state.calls ≤ ctx.limits.operations := by
  refine run_state (P := Solvent ctx.limits.operations)
    (Q := fun t => signatureCalls t.calls ≤ ctx.limits.operations) ?_ ?_ hs
  · intro t ht
    exact Nat.le_trans ht.calls_le ht.opCount_le
  · intro d _ t ht
    exact ⟨step_solvent d ht, (ht.bounds (step_billed ctx d t)).2⟩

end Machine

open Machine

variable {checker : Checker} {flags : Flags}

theorem solvent_start (limit : Nat) (stack : Stack) : Solvent limit { stack := stack } :=
  ⟨Nat.zero_le _, Nat.zero_le _⟩

theorem evaluate_signatureCalls_le (p : Program) (stack : Stack) :
    signatureCalls (evaluate checker flags p stack).calls ≤ flags.limits.operations := by
  unfold evaluate
  split
  · exact Nat.zero_le _
  · exact run_signatureCalls_le ⟨flags, checker, p.bytes⟩ (solvent_start _ stack)

namespace Verification

theorem length_redeem_stages_le (pushed : Stack) (stages : List Stage) :
    (redeem checker flags pushed stages).stages.length ≤ stages.length + 1 := by
  unfold redeem
  split
  · exact Nat.le_succ _
  · split
    · exact Nat.le_succ _
    · have hlast : ∀ x : Stage, (stages ++ [x]).length ≤ stages.length + 1 := by
        intro x
        exact Nat.le_of_eq List.length_append
      dsimp only
      split
      · exact hlast _
      · exact hlast _
      · rw [finish_stages]
        exact hlast _

theorem length_ofPrograms_stages_le (unlocking locking : Program) :
    (ofPrograms checker flags unlocking locking).stages.length ≤ 3 := by
  unfold ofPrograms
  split
  · exact Nat.zero_le 3
  · dsimp only
    split
    · exact Nat.le_add_left 1 2
    · split
      · exact Nat.le_succ 2
      · exact Nat.le_succ 2
      · split
        · split
          · exact length_redeem_stages_le _ _
          · exact Nat.le_succ 2
        · rw [finish_stages]
          exact Nat.le_succ 2

end Verification

theorem length_stages_le (unlocking locking : Bytes) :
    (verifySpend checker flags unlocking locking).stages.length ≤ 3 := by
  unfold verifySpend
  split
  · exact Nat.zero_le 3
  · split
    · exact Nat.zero_le 3
    · exact Verification.length_ofPrograms_stages_le _ _

/-- Stages that ask `n` questions about signatures each ask `n` times their number in all. -/
theorem signatureCalls_flatMap_le {stages : List Stage} {n : Nat}
    (h : ∀ x ∈ stages, signatureCalls x.evaluation.calls ≤ n) :
    signatureCalls (stages.flatMap (·.evaluation.calls)) ≤ stages.length * n := by
  induction stages with
  | nil => exact Nat.zero_le _
  | cons x rest ih =>
      have hfirst := h x List.mem_cons_self
      have hrest := ih fun y hy => h y (List.mem_cons_of_mem x hy)
      rw [List.flatMap_cons, signatureCalls_append, List.length_cons, Nat.succ_mul]
      omega

theorem verifySpend_signatureCalls_le (unlocking locking : Bytes) :
    signatureCalls (verifySpend checker flags unlocking locking).calls ≤
      3 * flags.limits.operations := by
  have hstages : ∀ x ∈ (verifySpend checker flags unlocking locking).stages,
      signatureCalls x.evaluation.calls ≤ flags.limits.operations := by
    intro x hx
    rw [evaluation_of_mem_stages hx]
    exact evaluate_signatureCalls_le x.program x.stack
  exact Nat.le_trans (signatureCalls_flatMap_le hstages)
    (Nat.mul_le_mul_right _ (length_stages_le unlocking locking))

/-- **Bounded signature work.** Before the limits are lifted, one evaluation asks at most as many
questions about signatures as operations may be counted, however it ends. At every moment of every
step it has asked no more than have been counted. So a verification asks at most three times as
many. -/
theorem signature_work_bounded (checker : Checker) (flags : Flags) (hg : flags.genesis = false) :
    (∀ (p : Program) (stack : Stack),
      signatureCalls (evaluate checker flags p stack).calls ≤
          (if flags.magnetic then 500 else 201) ∧
        ∀ n c s t, Reaches ⟨flags, checker, p.bytes⟩ p.chunks { stack := stack } n c s →
          Moment ⟨flags, checker, p.bytes⟩ c s t →
            signatureCalls t.calls ≤ t.opCount ∧
              signatureCalls t.calls ≤ (if flags.magnetic then 500 else 201)) ∧
    ∀ unlocking locking : Bytes,
      signatureCalls (verifySpend checker flags unlocking locking).calls ≤
        3 * (if flags.magnetic then 500 else 201) := by
  have hlimit : flags.limits.operations = if flags.magnetic then 500 else 201 := by
    rw [Flags.limits_of_not_genesis hg, Limits.standard]
  rw [← hlimit]
  refine ⟨?_, verifySpend_signatureCalls_le⟩
  intro p stack
  refine ⟨evaluate_signatureCalls_le p stack, ?_⟩
  intro n c s t hreach hmoment
  have hsolvent := solvent_of_reaches (solvent_start _ stack) hreach
  exact hsolvent.bounds hmoment.billed

/-- The operands of a check of one signature against one key. -/
def unitOperands : Stack :=
  [.literal [0x01], .literal baseKey, .literal [0x01], .literal unitSignature, .literal []]

/-- In the middle of the check, the question about the signature has been asked. -/
theorem exists_moment_of_unitOperands :
    ∃ t, Moment ⟨unitFlags, .absent, [0xae]⟩ ⟨⟨0xae⟩, none, 0⟩ { stack := unitOperands } t ∧
      0 < signatureCalls t.calls := by
  have hsig : Encoding.checkSignature (Item.literal unitSignature).bytes unitFlags = .ok () := by
    rw [Item.bytes_literal]
    rfl
  have hkey : Encoding.checkPublicKey (Item.literal baseKey).bytes unitFlags = .ok () := by
    rw [Item.bytes_literal]
    rfl
  have hsize : (Item.literal unitSignature).size ≠ 0 := by decide
  have haccept : accept ⟨unitFlags, .absent, [0xae]⟩ ⟨⟨0xae⟩, none, 0⟩ { stack := unitOperands } =
      .ok { stack := unitOperands, opCount := 1 } := rfl
  have hpair : ∀ code s, checkPair ⟨unitFlags, .absent, [0xae]⟩ code (.literal unitSignature)
      (.literal baseKey) s = (.ok false, s.record (.signature (Item.literal unitSignature).bytes
        (Item.literal baseKey).bytes code unitFlags (.ok false))) := by
    intro code s
    simp only [checkPair, hsig, hkey, hsize, if_false]
    rfl
  have hkeys : countAt unitFlags 0 20 .keyCount unitOperands = .ok 1 := rfl
  have hsigs : countAt unitFlags 2 1 .signatureCount unitOperands = .ok 1 := rfl
  have hdummy : unitOperands[4]? = some (.literal []) := rfl
  exact ⟨_, .checking haccept rfl rfl rfl
    (.matching hkeys (by decide) hsigs hdummy (.asked (hpair _ _))), Nat.one_pos⟩

/-- A spend that asks about a signature asks no more than three scripts may. In the middle of a
check, the question is paid for already. -/
theorem signature_work_of_unitScript :
    (0 < signatureCalls (verifySpend .absent unitFlags unitScript []).calls ∧
      signatureCalls (verifySpend .absent unitFlags unitScript []).calls ≤ 603) ∧
    ∃ t, Moment ⟨unitFlags, .absent, [0xae]⟩ ⟨⟨0xae⟩, none, 0⟩ { stack := unitOperands } t ∧
      0 < signatureCalls t.calls ∧ signatureCalls t.calls ≤ t.opCount := by
  have hwork := signature_work_bounded .absent unitFlags rfl
  constructor
  · obtain ⟨code, hcall⟩ := exists_call_of_unitScript .absent
    exact ⟨List.countP_pos_iff.mpr ⟨_, hcall, rfl⟩, hwork.2 unitScript []⟩
  · obtain ⟨t, hmoment, hasked⟩ := exists_moment_of_unitOperands
    have hreach : Reaches ⟨unitFlags, .absent, [0xae]⟩ [⟨⟨0xae⟩, none, 0⟩]
        { stack := unitOperands } 0 ⟨⟨0xae⟩, none, 0⟩ { stack := unitOperands } := ⟨rfl, rfl⟩
    have hpaid := ((hwork.1 ⟨[⟨⟨0xae⟩, none, 0⟩], [0xae]⟩ unitOperands).2 0 _ _ t hreach hmoment).1
    exact ⟨t, hmoment, hasked, hpaid⟩

end BitcoinScript
