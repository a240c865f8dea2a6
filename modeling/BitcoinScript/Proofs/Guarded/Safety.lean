import BitcoinScript.Proofs.Guarded.Step

/-!
# No guard strikes

Every state that a run comes to has room. A step that does not fail ends with a check of the bound:
once the limits are lifted, it leaves less memory than a run may start with; before, it leaves a
thousand items, none of which is longer than the longest one at the start or than an item may be.
The signed part starts inside of the script, because a separator does. The operations are counted in
a word, because a step counts at most one operation and the keys of one check.

So the machine with guards runs like the one without.
-/

namespace BitcoinScript

namespace Guarded

open Machine (Context Outcome State Result Reaches after?)

section Steps

variable {ctx : Context} {c : Chunk} {s : State}

/-- Stacks with little memory hold few and short items. -/
theorem roomy_of_memory (hscript : ctx.script.length < signedSpan)
    (hstart : s.codeStart ≤ ctx.script.length) (hmemory : s.memory ≤ room) : Roomy ctx s := by
  unfold State.memory at hmemory
  have hfits : ∀ t : Stack, Stack.memory t ≤ room → Stack.Fits room t := by
    intro t ht x hx
    have hcost := Stack.cost_le_memory hx
    rw [Stack.cost_eq] at hcost
    omega
  have hstack := Stack.length_le_memory s.stack
  have haltStack := Stack.length_le_memory s.altStack
  exact ⟨hscript, hstart, hfits _ (by omega), hfits _ (by omega), by omega, fun _ => hmemory⟩

theorem execute_codeStart_le (h : s.codeStart ≤ ctx.script.length) (hc : Inside ctx c) :
    (Machine.execute ctx c s).Ensures fun t => t.codeStart ≤ ctx.script.length := by
  rcases Machine.execute_cases ctx c s with ⟨-, -, hsame⟩ | ⟨stack, hnext⟩ | ⟨reason, hfail⟩
  · rw [hsame]
    apply Outcome.ensures_of_state
    rw [Machine.perform_codeStart]
    have hinside : c.offset + c.size ≤ ctx.script.length := hc
    have hpos := c.size_pos
    split <;> omega
  · rw [hnext]
    exact h
  · rw [hfail]
    trivial

/-- A step leaves room, whatever happens to the room in between. -/
theorem step_roomy (h : Roomy ctx s) (hc : Inside ctx c) :
    (Machine.step ctx c s).Ensures (Roomy ctx) := by
  refine Machine.step_ensures (Q := fun t => t.codeStart ≤ ctx.script.length ∧
    (ctx.flags.genesis = false → Machine.KeepsFit room t)) ?_ ?_
  · intro t ht
    obtain ⟨hlong, -, -, rfl⟩ := Machine.accept_eq_ok_iff.mp ht
    have hcounted := h.counted c
    refine (execute_codeStart_le hcounted.codeStart_le hc).and ?_
    by_cases hg : ctx.flags.genesis = false
    · exact (Machine.execute_fits (by decide) hg hlong hcounted.fits_stack
        hcounted.fits_altStack).mono fun t ht _ => ht
    · exact Outcome.ensures_of_state fun hno => absurd hno hg
  · rintro t ⟨hstart, hfits⟩ hbound
    by_cases hg : ctx.flags.genesis = false
    · have hlength := Machine.length_le_of_checkBound hg hbound
      obtain ⟨hstack, haltStack⟩ := hfits hg (by omega)
      refine ⟨h.script_lt, hstart, hstack, haltStack, Nat.le_trans hlength (by decide), ?_⟩
      intro hgenesis
      rw [hg] at hgenesis
      cases hgenesis
    · have hgenesis : ctx.flags.genesis = true := by simpa using hg
      have hmemory := Machine.memory_le_of_checkBound hgenesis hbound
      exact roomy_of_memory h.script_lt hstart (Nat.le_trans hmemory (by decide))

/-- An operation counts at most the keys of one check. -/
theorem perform_opCount_le (ctx : Context) (c : Chunk) (s : State) :
    (Machine.perform ctx c s).Ensures fun t => t.opCount ≤ s.opCount + 0x7fffffff := by
  cases hlocal : Machine.isLocal c.opcode.operation with
  | true =>
      obtain ⟨stack, altStack, branches, hstate⟩ := Machine.perform_of_local ctx s hlocal
      apply Outcome.ensures_of_state
      rw [hstate]
      exact Nat.le_add_right _ _
  | false =>
      unfold Machine.perform
      cases hop : c.opcode.operation with
      | lockTime =>
          obtain ⟨calls, hstate⟩ := Machine.lockTime_alike ctx c.opcode s
          apply Outcome.ensures_of_state
          dsimp only
          rw [hstate]
          exact Nat.le_add_right _ _
      | codeSeparator => exact Nat.le_add_right _ _
      | checkSig required =>
          exact Machine.checkSig_ensures fun _ _ _ _ _ _ _ => Nat.le_add_right _ _
      | checkMultiSig required =>
          refine Machine.checkMultiSig_ensures fun keyCount _ _ _ hfew _ _ => ?_
          exact Nat.add_le_add_left (Nat.le_trans hfew (multiSigKeys_le ctx.flags)) _
      | _ => rw [hop] at hlocal; cases hlocal

theorem step_opCount_le (ctx : Context) (c : Chunk) (s : State) :
    (Machine.step ctx c s).Ensures fun t => t.opCount ≤ s.opCount + 0x80000000 := by
  refine Machine.step_ensures ?_ fun t ht _ => ht
  intro t ht
  obtain ⟨-, -, -, rfl⟩ := Machine.accept_eq_ok_iff.mp ht
  have hone : (Machine.counted c s).opCount ≤ s.opCount + 1 := by
    unfold Machine.counted
    split
    · exact Nat.le_refl _
    · exact Nat.le_add_right _ _
  rcases Machine.execute_cases ctx c (Machine.counted c s) with
    ⟨-, -, hsame⟩ | ⟨stack, hnext⟩ | ⟨reason, hfail⟩
  · rw [hsame]
    refine (perform_opCount_le ctx c _).mono fun t ht => ?_
    omega
  · rw [hnext]
    show (Machine.counted c s).opCount ≤ s.opCount + 0x80000000
    omega
  · rw [hfail]
    trivial

end Steps

/-! ## Runs -/

/-- A state with room after `n` steps. -/
structure RoomyAfter (ctx : Context) (n : Nat) (s : State) : Prop where
  roomy : Roomy ctx s
  opCount_le : s.opCount ≤ n * 0x80000000

section Runs

variable {ctx : Context} {cs : List Chunk} {n : Nat} {s : State}

theorem RoomyAfter.step (h : RoomyAfter ctx n s) {c : Chunk} (hc : Inside ctx c) :
    (Machine.step ctx c s).Ensures (RoomyAfter ctx (n + 1)) := by
  refine ((step_roomy h.roomy hc).and (step_opCount_le ctx c s)).mono ?_
  rintro t ⟨hroomy, hcount⟩
  have hle := h.opCount_le
  exact ⟨hroomy, by omega⟩

/-- In the first steps, as many as a word of half the size counts, no guard strikes. -/
theorem RoomyAfter.step_eq (h : RoomyAfter ctx n s) (hn : n < 0xffffffff) {c : Chunk}
    (hc : Inside ctx c) : Guarded.step ctx c s = some (Machine.step ctx c s) := by
  have hle := h.opCount_le
  refine Guarded.step_eq h.roomy hc ?_
  unfold signedSpan
  omega

theorem roomyAfter_of_reaches {start : State} (hstart : RoomyAfter ctx 0 start)
    (hcs : ∀ c ∈ cs, Inside ctx c) {c : Chunk} (h : Reaches ctx cs start n c s) :
    RoomyAfter ctx n s := by
  induction n generalizing c s with
  | zero =>
      obtain ⟨-, hafter⟩ := h
      cases hafter
      exact hstart
  | succ n ih =>
      obtain ⟨hc, hafter⟩ := h
      obtain ⟨hlt, -⟩ := List.getElem?_eq_some_iff.mp hc
      have hget : cs[n]? = some cs[n] := List.getElem?_eq_getElem (by omega)
      obtain ⟨t, ht, hstep⟩ := Machine.exists_step_of_after?_take hget hafter
      have hensures := (ih ⟨hget, ht⟩).step (hcs cs[n] (List.getElem_mem _))
      rw [hstep] at hensures
      exact hensures

theorem run_eq (h : RoomyAfter ctx n s) (hcs : ∀ c ∈ cs, Inside ctx c)
    (hn : n + cs.length < 0x100000000) : run ctx cs s = some (Machine.run ctx cs s) := by
  induction cs generalizing n s with
  | nil => rfl
  | cons c rest ih =>
      rw [List.length_cons] at hn
      have hc := hcs c List.mem_cons_self
      have hensures := h.step hc
      unfold run Machine.run
      rw [bind_of_some (h.step_eq (by omega) hc)]
      cases hstep : Machine.step ctx c s with
      | next t =>
          rw [hstep] at hensures
          exact ih hensures (fun d hd => hcs d (List.mem_cons_of_mem c hd)) (by omega)
      | done t => rfl
      | fail reason t => rfl

end Runs

end Guarded

open Machine

/-- **No guard strikes.** A program of less than 2³² chunks is evaluated on a stack of less than 2⁶²
bytes without an access outside of a vector, a difference below zero or a sum that is no word of 64
bits. Neither is there one in a step from any state that the run comes to: there, the signed part
starts inside of the script, and no items are charged for more than all. A script is a vector, so it
is shorter than 2⁶³ bytes. -/
theorem no_guard_strikes {script : Bytes} {p : Program} (hp : Program.parse script = .ok p)
    (hscript : script.length < 0x8000000000000000) (hchunks : p.chunks.length < 0x100000000)
    (checker : Checker) (flags : Flags) {stack : Stack}
    (hstack : Stack.memory stack < 0x4000000000000000) :
    Guarded.evaluate checker flags p stack = some (evaluate checker flags p stack) ∧
      ∀ n c s, Reaches ⟨flags, checker, p.bytes⟩ p.chunks { stack := stack } n c s →
        Guarded.step ⟨flags, checker, p.bytes⟩ c s = some (step ⟨flags, checker, p.bytes⟩ c s) ∧
          s.codeStart ≤ p.size ∧ ∀ k, Stack.memory (s.stack.take k) ≤ s.memory := by
  have hinside : ∀ c ∈ p.chunks, Guarded.Inside ⟨flags, checker, p.bytes⟩ c :=
    fun c hc => Program.offset_add_size_le hp hc
  have hstart : Guarded.RoomyAfter ⟨flags, checker, p.bytes⟩ 0 { stack := stack } := by
    refine ⟨Guarded.roomy_of_memory ?_ (Nat.zero_le _) ?_, Nat.zero_le _⟩
    · show p.bytes.length < Guarded.signedSpan
      rw [Program.bytes_of_parse hp]
      exact hscript
    · exact Nat.le_of_lt hstack
  constructor
  · unfold Guarded.evaluate evaluate
    split
    · rfl
    · rw [Guarded.bind_of_some (Guarded.run_eq hstart hinside (by omega))]
      rfl
  · intro n c s hreach
    have hroom := Guarded.roomyAfter_of_reaches hstart hinside hreach
    obtain ⟨hlt, hget⟩ := List.getElem?_eq_some_iff.mp hreach.1
    have hc : c ∈ p.chunks := List.mem_of_getElem? hreach.1
    refine ⟨hroom.step_eq (by omega) (hinside c hc), hroom.roomy.codeStart_le, ?_⟩
    intro k
    have htake := Stack.memory_sublist (List.take_sublist k s.stack)
    unfold State.memory
    omega

/-- In the script `CODESEPARATOR CHECKMULTISIG`, one signature is tried on two keys, and signs what
follows the first byte. -/
theorem no_guard_strikes_multisig :
    ∃ p s, Program.parse [0xab, 0xae] = .ok p ∧
      Reaches ⟨{}, .absent, [0xab, 0xae]⟩ p.chunks
        { stack := [.ofInt 2 .literal, .literal [0x02], .literal [0x03], .ofInt 1 .literal,
            .literal [0x05], .literal []] } 1 ⟨⟨0xae⟩, none, 1⟩ s ∧
      s.codeStart = 1 ∧ s.codeStart ≤ p.size ∧
      Guarded.step ⟨{}, .absent, [0xab, 0xae]⟩ ⟨⟨0xae⟩, none, 1⟩ s =
        some (step ⟨{}, .absent, [0xab, 0xae]⟩ ⟨⟨0xae⟩, none, 1⟩ s) := by
  have hp : Program.parse [0xab, 0xae] =
      .ok ⟨[⟨.codeSeparator, none, 0⟩, ⟨⟨0xae⟩, none, 1⟩], [0xab, 0xae]⟩ := by
    refine Program.parse_eq_ok_iff.mpr ⟨rfl, Program.chunksFrom_eq_ok_iff.mpr ⟨?_, ?_, rfl⟩⟩
    · simp only [List.forall_mem_cons]
      refine ⟨rfl, rfl, ?_⟩
      intro c hc
      cases hc
    · exact ⟨rfl, rfl, trivial⟩
  have hreach : Reaches ⟨{}, .absent, [0xab, 0xae]⟩
      [⟨.codeSeparator, none, 0⟩, ⟨⟨0xae⟩, none, 1⟩]
      { stack := [.ofInt 2 .literal, .literal [0x02], .literal [0x03], .ofInt 1 .literal,
          .literal [0x05], .literal []] } 1 ⟨⟨0xae⟩, none, 1⟩
      { stack := [.ofInt 2 .literal, .literal [0x02], .literal [0x03], .ofInt 1 .literal,
          .literal [0x05], .literal []]
        opCount := 1
        codeStart := 1 } := ⟨rfl, rfl⟩
  obtain ⟨hstep, hstart, -⟩ :=
    (no_guard_strikes hp (by decide) (by decide) .absent {} (by decide)).2 1 _ _ hreach
  exact ⟨_, _, hp, hreach, rfl, hstart, hstep⟩

end BitcoinScript
