import BitcoinScript.Proofs.Machine.Run
import BitcoinScript.Verification

/-!
# What a valid verdict takes

One equivalence for each part of a verification: the last rule (`finish_verdict_iff`), the script
behind a script hash (`redeem_verdict_iff`), and the whole (`ofPrograms_verdict_iff`). None of them
depends on the evaluations noted on the way.

A verification consists of up to three evaluations (`stage_of_mem_stages`): the first one starts on
the empty stack and the others on what it leaves. An evaluation that fails while a chunk is executed
says where; `location_of_evaluate_error` tells the other failures of an evaluation.
-/

namespace BitcoinScript

variable {checker : Checker} {flags : Flags}

namespace Verification

theorem finish_verdict_iff {stack : Stack} {stages : List Stage} :
    (finish flags stack stages).verdict = .ok () ↔
      (flags.cleanStack = true → stack.length = 1) := by
  unfold finish
  cases flags.cleanStack with
  | false => simp
  | true =>
      by_cases hlen : stack.length = 1
      · simp [hlen]
      · simp [hlen, failed]

theorem redeem_verdict_iff {pushed : Stack} {stages : List Stage} :
    (redeem checker flags pushed stages).verdict = .ok () ↔
      ∃ r below p, pushed = r :: below ∧ Program.parse r.bytes = .ok p ∧
        (evaluate checker flags p below).outcome = .ok true ∧
        (flags.cleanStack = true → (evaluate checker flags p below).stack.length = 1) := by
  cases pushed with
  | nil => simp [redeem, failed]
  | cons r below =>
      simp only [redeem, stage]
      cases hp : Program.parse r.bytes with
      | error e =>
          constructor
          · intro h
            cases h
          · rintro ⟨r', below', p, hcons, hp', -⟩
            cases hcons
            rw [hp] at hp'
            cases hp'
      | ok p =>
          have hiff : (∃ r' below' p', r :: below = r' :: below' ∧
              Program.parse r'.bytes = .ok p' ∧
              (evaluate checker flags p' below').outcome = .ok true ∧
              (flags.cleanStack = true → (evaluate checker flags p' below').stack.length = 1)) ↔
              (evaluate checker flags p below).outcome = .ok true ∧
              (flags.cleanStack = true → (evaluate checker flags p below).stack.length = 1) := by
            constructor
            · rintro ⟨r', below', p', hcons, hp', h⟩
              cases hcons
              rw [hp] at hp'
              cases hp'
              exact h
            · intro h
              exact ⟨r, below, p, rfl, hp, h⟩
          rw [hiff]
          dsimp only
          split
          · rename_i f hf
            simp [hf, failed]
          · rename_i hfalse
            simp [hfalse, failed]
          · rename_i htrue
            simp only [htrue, true_and]
            exact finish_verdict_iff

theorem ofPrograms_verdict_iff {unlocking locking : Program} :
    (ofPrograms checker flags unlocking locking).verdict = .ok () ↔
      (flags.genesis = true → unlocking.isPushOnly = true) ∧
      ∃ b, (evaluate checker flags unlocking []).outcome = .ok b ∧
        (evaluate checker flags locking (evaluate checker flags unlocking []).stack).outcome =
          .ok true ∧
        if (flags.p2sh && !flags.genesis && locking.isP2sh) = true then
          unlocking.isPushOnly = true ∧
            (redeem checker flags (evaluate checker flags unlocking []).stack []).verdict = .ok ()
        else
          (finish flags (evaluate checker flags locking
            (evaluate checker flags unlocking []).stack).stack []).verdict = .ok () := by
  unfold ofPrograms
  by_cases hpush : (flags.genesis && !unlocking.isPushOnly) = true
  · rw [if_pos hpush]
    simp only [Bool.and_eq_true, Bool.not_eq_true'] at hpush
    constructor
    · intro h
      cases h
    · rintro ⟨h, -⟩
      rw [h hpush.1] at hpush
      cases hpush.2
  · rw [if_neg hpush]
    have hgenesis : flags.genesis = true → unlocking.isPushOnly = true := by
      intro hg
      simpa [hg] using hpush
    simp only [stage]
    split
    · rename_i f hf
      simp [hf, failed]
    · rename_i b hb
      split
      · rename_i f hf
        simp [hf, failed]
      · rename_i hfalse
        simp [hfalse, failed]
      · rename_i htrue
        have hb' : (∃ b, (evaluate checker flags unlocking []).outcome = .ok b) := ⟨b, hb⟩
        rw [and_iff_right hgenesis]
        simp only [htrue, true_and, exists_and_right, hb']
        split
        · split
          · rename_i honly
            simp only [honly, true_and]
            rw [redeem_verdict_iff, redeem_verdict_iff]
          · rename_i honly
            simp [honly, failed]
        · rw [finish_verdict_iff, finish_verdict_iff]

end Verification

theorem verifySpend_verdict_iff {unlocking locking : Bytes} :
    (verifySpend checker flags unlocking locking).verdict = .ok () ↔
      ∃ u l, Program.parse unlocking = .ok u ∧ Program.parse locking = .ok l ∧
        (Verification.ofPrograms checker flags u l).verdict = .ok () := by
  unfold verifySpend
  cases Program.parse unlocking with
  | error e => simp [Verification.unparsed]
  | ok u =>
      cases Program.parse locking with
      | error e => simp [Verification.unparsed]
      | ok l => simp

/-! ## The evaluations -/

namespace Verification

theorem finish_stages (stack : Stack) (stages : List Stage) :
    (finish flags stack stages).stages = stages := by
  unfold finish
  split <;> rfl

theorem mem_redeem {pushed : Stack} {stages : List Stage} {x : Stage} (h : x ∈ stages) :
    x ∈ (redeem checker flags pushed stages).stages := by
  unfold redeem
  split
  · exact h
  · split
    · exact h
    · dsimp only
      split
      · exact List.mem_append_left _ h
      · exact List.mem_append_left _ h
      · rw [finish_stages]
        exact List.mem_append_left _ h

theorem stage_of_mem_redeem {pushed : Stack} {stages : List Stage} {x : Stage}
    (h : x ∈ (redeem checker flags pushed stages).stages) :
    x ∈ stages ∨ ∃ script below p, pushed = script :: below ∧
      Program.parse script.bytes = .ok p ∧ x = stage checker flags .redeem p below := by
  unfold redeem at h
  split at h
  · exact Or.inl h
  · rename_i script below
    split at h
    · exact Or.inl h
    · rename_i p hp
      have hmem : x ∈ stages ++ [stage checker flags .redeem p below] := by
        dsimp only at h
        split at h
        · exact h
        · exact h
        · rw [finish_stages] at h
          exact h
      rcases List.mem_append.mp hmem with hold | hnew
      · exact Or.inl hold
      · exact Or.inr ⟨script, below, p, rfl, hp, List.mem_singleton.mp hnew⟩

/-- The evaluations that a verification may consist of. Only if the unlocking script succeeds, the
locking script runs on what it leaves, and a script behind a hash on what lies there below it. -/
inductive StageOf (checker : Checker) (flags : Flags) (unlocking locking : Program) : Stage → Prop
  | unlocking :
      StageOf checker flags unlocking locking (stage checker flags .unlocking unlocking [])
  | locking {b : Bool} (hb : (evaluate checker flags unlocking []).outcome = .ok b) :
      StageOf checker flags unlocking locking
        (stage checker flags .locking locking (evaluate checker flags unlocking []).stack)
  | redeem {b : Bool} {script : Item} {below : Stack} {p : Program}
      (hb : (evaluate checker flags unlocking []).outcome = .ok b)
      (hstack : (evaluate checker flags unlocking []).stack = script :: below)
      (hp : Program.parse script.bytes = .ok p) :
      StageOf checker flags unlocking locking (stage checker flags .redeem p below)

theorem stage_of_mem_ofPrograms {unlocking locking : Program} {x : Stage}
    (h : x ∈ (ofPrograms checker flags unlocking locking).stages) :
    StageOf checker flags unlocking locking x := by
  unfold ofPrograms at h
  split at h
  · cases h
  · dsimp only at h
    split at h
    · rw [List.mem_singleton.mp h]
      exact .unlocking
    · rename_i b hb
      -- the first two stages are there whatever comes of the second
      have hfirst : ∀ y ∈ [stage checker flags .unlocking unlocking [],
          stage checker flags .locking locking (evaluate checker flags unlocking []).stack],
          StageOf checker flags unlocking locking y := by
        intro y hy
        simp only [List.mem_cons, List.not_mem_nil, or_false] at hy
        rcases hy with rfl | rfl
        · exact .unlocking
        · exact .locking hb
      split at h
      · exact hfirst x h
      · exact hfirst x h
      · split at h
        · split at h
          · rcases stage_of_mem_redeem h with hold | ⟨script, below, p, hstack, hp, rfl⟩
            · exact hfirst x hold
            · exact .redeem hb hstack hp
          · exact hfirst x h
        · rw [finish_stages] at h
          exact hfirst x h

end Verification

theorem stage_of_mem_stages {unlocking locking : Bytes} {x : Stage}
    (h : x ∈ (verifySpend checker flags unlocking locking).stages) :
    ∃ u l, Program.parse unlocking = .ok u ∧ Program.parse locking = .ok l ∧
      Verification.StageOf checker flags u l x := by
  unfold verifySpend at h
  split at h
  · cases h
  · rename_i u hu
    split at h
    · cases h
    · rename_i l hl
      exact ⟨u, l, hu, hl, Verification.stage_of_mem_ofPrograms h⟩

/-- The first evaluation starts on the empty stack; the others start on what it leaves, or on what
lies there below the script behind a hash. -/
theorem stack_of_mem_stages {unlocking locking : Bytes} {x : Stage}
    (h : x ∈ (verifySpend checker flags unlocking locking).stages) :
    x.stack = [] ∨ ∃ u b, Program.parse unlocking = .ok u ∧
      (evaluate checker flags u []).outcome = .ok b ∧
      (x.stack = (evaluate checker flags u []).stack ∨
        ∃ script, (evaluate checker flags u []).stack = script :: x.stack) := by
  obtain ⟨u, l, hu, -, hstage⟩ := stage_of_mem_stages h
  cases hstage with
  | unlocking => exact Or.inl rfl
  | locking hb => exact Or.inr ⟨u, _, hu, hb, Or.inl rfl⟩
  | redeem hb hstack hp => exact Or.inr ⟨u, _, hu, hb, Or.inr ⟨_, hstack⟩⟩

/-- All evaluations run under the checker and the flags of the verification. -/
theorem evaluation_of_mem_stages {unlocking locking : Bytes} {x : Stage}
    (h : x ∈ (verifySpend checker flags unlocking locking).stages) :
    x.evaluation = evaluate checker flags x.program x.stack := by
  obtain ⟨u, l, -, -, hstage⟩ := stage_of_mem_stages h
  cases hstage with
  | unlocking => rfl
  | locking hb => rfl
  | redeem hb hstack hp => rfl

/-! ## The place of a failure -/

theorem Machine.location_of_run_failure {ctx : Context} {cs : List Chunk} {s : State}
    {reason : Reason} {location : Option (Opcode × Nat)}
    (h : (run ctx cs s).failure = some (reason, location)) :
    reason = .unbalancedConditional ∨ location.isSome = true := by
  induction cs generalizing s with
  | nil =>
      simp only [run] at h
      split at h
      · cases h
      · cases h
        exact Or.inl rfl
  | cons c rest ih =>
      simp only [run] at h
      split at h
      · exact ih h
      · cases h
      · cases h
        exact Or.inr rfl

theorem location_of_evaluate_error {p : Program} {stack : Stack} {f : Failure}
    (h : (evaluate checker flags p stack).outcome = .error f) :
    f.reason = .scriptSize ∨ f.reason = .unbalancedConditional ∨ f.location.isSome = true := by
  unfold evaluate at h
  split at h
  · cases h
    exact Or.inl rfl
  · simp only [Evaluation.ofResult] at h
    split at h
    · cases h
    · rename_i reason location hfail
      cases h
      exact Or.inr (Machine.location_of_run_failure hfail)

end BitcoinScript
