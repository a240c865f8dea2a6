import BitcoinScript.Proofs.Machine.Calls
import BitcoinScript.Proofs.Program.Deletion

/-!
# What a signature commits to

A signature is checked against the script from the last executed code separator on, with the pushes
of the signatures deleted. The machine works on bytes: it keeps a position in the script, cuts the
script there, and deletes byte patterns. In terms of chunks, the position is always the start of the
chunk after the last separator that was executed (`codeStart_after`), so what is signed is a
sequence of whole chunks, and the deletion filters it.
-/

namespace BitcoinScript

namespace Machine

/-! ## The last code separator -/

/-- A run comes to the chunk of an index, which is a code separator, and executes it. -/
def SeparatorExecuted (ctx : Context) (cs : List Chunk) (start : State) (k : Nat) : Prop :=
  ∃ c s, Reaches ctx cs start k c s ∧ c.opcode = .codeSeparator ∧ s.executing = true

/-- The index `j` follows that of the last separator executed before the chunk of index `n`; it is
zero if there is none. -/
def FollowsLastSeparator (ctx : Context) (cs : List Chunk) (start : State) (n j : Nat) : Prop :=
  (j = 0 ∨ ∃ k, j = k + 1 ∧ k < n ∧ SeparatorExecuted ctx cs start k) ∧
    ∀ k, j ≤ k → k < n → ¬ SeparatorExecuted ctx cs start k

section Separators

variable {ctx : Context} {cs : List Chunk} {start : State} {n i j : Nat}

theorem FollowsLastSeparator.le (hi : FollowsLastSeparator ctx cs start n i)
    (hj : FollowsLastSeparator ctx cs start n j) : i ≤ j := by
  rcases hi.1 with rfl | ⟨k, rfl, hk, hexecuted⟩
  · exact Nat.zero_le j
  · have hlt : ¬ j ≤ k := fun hle => hj.2 k hle hk hexecuted
    omega

theorem FollowsLastSeparator.unique (hi : FollowsLastSeparator ctx cs start n i)
    (hj : FollowsLastSeparator ctx cs start n j) : i = j :=
  Nat.le_antisymm (hi.le hj) (hj.le hi)

theorem FollowsLastSeparator.skip (hj : FollowsLastSeparator ctx cs start n j)
    (hn : ¬ SeparatorExecuted ctx cs start n) : FollowsLastSeparator ctx cs start (n + 1) j := by
  obtain ⟨hlast, hnone⟩ := hj
  constructor
  · rcases hlast with rfl | ⟨k, rfl, hk, hexecuted⟩
    · exact Or.inl rfl
    · exact Or.inr ⟨k, rfl, by omega, hexecuted⟩
  · intro k hle hlt
    by_cases hkn : k = n
    · rw [hkn]
      exact hn
    · exact hnone k hle (by omega)

theorem followsLastSeparator_of_executed (hn : SeparatorExecuted ctx cs start n) :
    FollowsLastSeparator ctx cs start (n + 1) (n + 1) := by
  refine ⟨Or.inr ⟨n, rfl, by omega, hn⟩, ?_⟩
  intro k hle hlt
  omega

end Separators

/-! ## The start of the signed part -/

theorem operation_eq_codeSeparator_iff (op : Opcode) :
    op.operation = .codeSeparator ↔ op = .codeSeparator := by
  constructor
  · intro h
    refine Opcode.of_operation (P := fun op => op = .codeSeparator) h rfl ?_
    decide
  · rintro rfl
    rfl

/-- Only a code separator moves the start of the signed part. -/
theorem perform_codeStart (ctx : Context) (c : Chunk) (s : State) :
    (perform ctx c s).state.codeStart =
      if c.opcode = .codeSeparator then c.offset + 1 else s.codeStart := by
  by_cases hsep : c.opcode = .codeSeparator
  · have hop := (operation_eq_codeSeparator_iff c.opcode).mpr hsep
    rw [if_pos hsep]
    simp only [perform, hop, Outcome.state_next]
  · rw [if_neg hsep]
    have hop := mt (operation_eq_codeSeparator_iff c.opcode).mp hsep
    cases hlocal : isLocal c.opcode.operation with
    | true =>
        obtain ⟨stack, altStack, branches, hstate⟩ := perform_of_local ctx s hlocal
        rw [hstate]
    | false =>
        unfold perform
        cases hcase : c.opcode.operation with
        | lockTime =>
            obtain ⟨calls, hstate⟩ := lockTime_alike ctx c.opcode s
            dsimp only
            rw [hstate]
        | codeSeparator => exact absurd hcase hop
        | checkSig required =>
            obtain ⟨stack, calls, hstate⟩ := checkSig_state ctx required s
            dsimp only
            rw [hstate]
        | checkMultiSig required =>
            obtain ⟨stack, calls, n, hstate⟩ := checkMultiSig_state ctx required s
            dsimp only
            rw [hstate]
        | _ => rw [hcase] at hlocal; cases hlocal

theorem payload_of_codeSeparator {c : Chunk} (hc : c.WellFormed)
    (hsep : c.opcode = .codeSeparator) : c.payload = none := by
  apply Chunk.payload_eq_none hc
  rw [hsep]
  rfl

theorem step_codeStart {ctx : Context} {c : Chunk} (hc : c.WellFormed) {s t : State}
    (h : step ctx c s = .next t) :
    t.codeStart =
      if c.opcode = .codeSeparator ∧ s.executing = true then c.offset + 1 else s.codeStart := by
  obtain ⟨-, -, -, hexecute, -⟩ := step_eq_next_iff.mp h
  unfold execute at hexecute
  cases hpayload : c.payload with
  | some data =>
      have hsep : ¬ (c.opcode = .codeSeparator ∧ s.executing = true) := by
        rintro ⟨hsep, -⟩
        rw [payload_of_codeSeparator hc hsep] at hpayload
        cases hpayload
      rw [if_neg hsep, ← counted_codeStart c s]
      simp only [hpayload] at hexecute
      split at hexecute
      · split at hexecute
        · cases hexecute
        · cases hexecute
          rfl
      · cases hexecute
        rfl
  | none =>
      simp only [hpayload, isPerformed, counted_executing] at hexecute
      split at hexecute
      · rename_i hperformed
        have hstart := perform_codeStart ctx c (counted c s)
        rw [hexecute, Outcome.state_next, counted_codeStart] at hstart
        rw [hstart]
        by_cases hsep : c.opcode = .codeSeparator
        · -- a separator is no conditional, so it was performed in an executed branch
          have hcond : c.opcode.isConditional = false := by rw [hsep]; rfl
          have hexec : s.executing = true := by simpa [hcond] using hperformed
          rw [if_pos hsep, if_pos ⟨hsep, hexec⟩]
        · rw [if_neg hsep, if_neg (fun hboth => hsep hboth.1)]
      · rename_i hskipped
        have hexec : ¬ s.executing = true := by
          intro hexec
          exact hskipped (by rw [hexec]; rfl)
        cases hexecute
        rw [counted_codeStart, if_neg (fun hboth => hexec hboth.2)]

/-- Wherever a run comes, the signed part starts with the chunk after the last separator executed
before. -/
theorem codeStart_after {b : Bytes} {p : Program} (hp : Program.parse b = .ok p) {ctx : Context}
    {stack : Stack} {n : Nat} (hn : n ≤ p.chunks.length) {s : State}
    (h : after? ctx (p.chunks.take n) { stack := stack } = some s) :
    ∃ j, FollowsLastSeparator ctx p.chunks { stack := stack } n j ∧ s.codeStart = p.startOf j := by
  induction n generalizing s with
  | zero =>
      cases h
      refine ⟨0, ⟨Or.inl rfl, ?_⟩, ?_⟩
      · intro k _ hlt
        omega
      · rw [Program.startOf_eq_length hp]
        rfl
  | succ n ih =>
      have hget : p.chunks[n]? = some p.chunks[n] := List.getElem?_eq_getElem hn
      have hwf := Program.wellFormed_of_parse hp p.chunks[n] (List.getElem_mem hn)
      obtain ⟨t, ht, hstep⟩ := exists_step_of_after?_take hget h
      obtain ⟨j, hj, hstart⟩ := ih (by omega) ht
      have hcode := step_codeStart hwf hstep
      by_cases hsep : p.chunks[n].opcode = .codeSeparator ∧ t.executing = true
      · rw [if_pos hsep] at hcode
        have hsize : p.chunks[n].size = 1 := by
          rw [Chunk.size, payload_of_codeSeparator hwf hsep.1]
        refine ⟨n + 1, followsLastSeparator_of_executed ⟨_, t, ⟨hget, ht⟩, hsep⟩, ?_⟩
        rw [hcode, Program.startOf_succ hp hget hsize]
      · rw [if_neg hsep] at hcode
        refine ⟨j, hj.skip ?_, by rw [hcode, hstart]⟩
        rintro ⟨c, u, ⟨hc, hu⟩, hboth⟩
        rw [hget] at hc
        rw [ht] at hu
        cases hc
        cases hu
        exact hsep hboth

end Machine

open Machine

/-- **What a signature commits to.** Every question about a signature is asked by the step of some
chunk. It carries the chunks of the script from the one after the last executed code separator on,
without those that push one of the signatures on the stack; only the set of these matters. -/
theorem signed_code_of_call {script : Bytes} {p : Program} (hp : Program.parse script = .ok p)
    (checker : Checker) (flags : Flags) (stack : Stack) :
    (∀ call ∈ (evaluate checker flags p stack).calls, ∃ n c s,
      Reaches ⟨flags, checker, p.bytes⟩ p.chunks { stack := stack } n c s ∧
        call ∈ askedBy ⟨flags, checker, p.bytes⟩ c s) ∧
    ∀ n c s, Reaches ⟨flags, checker, p.bytes⟩ p.chunks { stack := stack } n c s →
      ∃ j, FollowsLastSeparator ⟨flags, checker, p.bytes⟩ p.chunks { stack := stack } n j ∧
        (∀ i, FollowsLastSeparator ⟨flags, checker, p.bytes⟩ p.chunks { stack := stack } n i →
          i = j) ∧
        s.codeStart = p.startOf j ∧
        ∀ sig key code f answer,
          Call.signature sig key code f answer ∈ askedBy ⟨flags, checker, p.bytes⟩ c s →
            ∃ sigs, SignaturesAt flags c.opcode.operation s.stack sigs ∧
              sig ∈ sigs.map Item.bytes ∧
              ((∀ x ∈ sigs, x.bytes.length < Bytes.span 4) →
                code = ((p.chunks.drop j).filter fun d =>
                  d.encode ∉ sigs.map fun x => pushEncoding x.bytes).flatMap Chunk.encode ∧
                ∀ others : List Item,
                  (∀ b, b ∈ others.map Item.bytes ↔ b ∈ sigs.map Item.bytes) →
                    withoutSignatures (p.bytes.drop s.codeStart) others = code) := by
  refine ⟨fun call hcall => exists_asked_of_evaluate hcall, ?_⟩
  intro n c s hreach
  obtain ⟨hn, -⟩ := List.getElem?_eq_some_iff.mp hreach.1
  obtain ⟨j, hj, hstart⟩ := codeStart_after hp (Nat.le_of_lt hn) hreach.2
  refine ⟨j, hj, fun i hi => hi.unique hj, hstart, ?_⟩
  intro sig key code f answer hasked
  have hwf : ∀ d ∈ p.chunks.drop j, d.WellFormed :=
    fun d hd => Program.wellFormed_of_parse hp d (List.mem_of_mem_drop hd)
  have hsigned : p.bytes.drop s.codeStart = (p.chunks.drop j).flatMap Chunk.encode := by
    rw [hstart, Program.drop_startOf hp]
  obtain ⟨sigs, x, y, hsigs, hx, hpair⟩ := signatures_of_question (question_of_askedBy hasked)
  have hcall := hpair.call_eq
  simp only [Call.signature.injEq, scriptCode] at hcall
  obtain ⟨rfl, -, hcode, -⟩ := hcall
  refine ⟨sigs, hsigs, List.mem_map_of_mem hx, ?_⟩
  intro hshort
  rw [hcode, hsigned]
  refine ⟨withoutSignatures_encode hshort hwf, ?_⟩
  intro others hsame
  exact withoutSignatures_congr hsame hshort hwf

/-- In the script `5 CODESEPARATOR 5 2 CHECKSIG`, the signature `5` signs `2 CHECKSIG`. -/
theorem signed_code_after_separator :
    ∃ p s, Program.parse [0x01, 0x05, 0xab, 0x01, 0x05, 0x01, 0x02, 0xac] = .ok p ∧
      Reaches ⟨{}, .absent, p.bytes⟩ p.chunks { stack := [] } 4 ⟨⟨0xac⟩, none, 7⟩ s ∧
      Call.signature [0x05] [0x02] [0x01, 0x02, 0xac] {} (.ok false) ∈
        askedBy ⟨{}, .absent, p.bytes⟩ ⟨⟨0xac⟩, none, 7⟩ s := by
  have hp : Program.parse [0x01, 0x05, 0xab, 0x01, 0x05, 0x01, 0x02, 0xac] =
      .ok ⟨[⟨⟨0x01⟩, some [0x05], 0⟩, ⟨.codeSeparator, none, 2⟩, ⟨⟨0x01⟩, some [0x05], 3⟩,
        ⟨⟨0x01⟩, some [0x02], 5⟩, ⟨⟨0xac⟩, none, 7⟩],
        [0x01, 0x05, 0xab, 0x01, 0x05, 0x01, 0x02, 0xac]⟩ := by
    refine Program.parse_eq_ok_iff.mpr ⟨rfl, Program.chunksFrom_eq_ok_iff.mpr ⟨?_, ?_, rfl⟩⟩
    · simp only [List.forall_mem_cons]
      refine ⟨⟨rfl, rfl⟩, rfl, ⟨rfl, rfl⟩, ⟨rfl, rfl⟩, rfl, ?_⟩
      intro c hc
      cases hc
    · exact ⟨rfl, rfl, rfl, rfl, rfl, trivial⟩
  refine ⟨_, { stack := [.literal [0x02], .literal [0x05], .literal [0x05]]
               opCount := 1
               codeStart := 3 }, hp, ⟨rfl, rfl⟩, ?_⟩
  have hasked : Call.signature [0x05] [0x02]
      (withoutSignatures [0x01, 0x05, 0x01, 0x02, 0xac] [.literal [0x05]]) {} (.ok false) ∈
      askedBy ⟨{}, .absent, [0x01, 0x05, 0xab, 0x01, 0x05, 0x01, 0x02, 0xac]⟩ ⟨⟨0xac⟩, none, 7⟩
        { stack := [.literal [0x02], .literal [0x05], .literal [0x05]]
          opCount := 1
          codeStart := 3 } := List.mem_cons_self
  obtain ⟨j, -, hunique, -, hcalls⟩ :=
    (signed_code_of_call hp .absent {} []).2 4 ⟨⟨0xac⟩, none, 7⟩ _ ⟨rfl, rfl⟩
  have hj : 2 = j := by
    refine hunique 2 ⟨Or.inr ⟨1, rfl, by omega, _, _, ⟨rfl, rfl⟩, rfl, rfl⟩, ?_⟩
    rintro k hle hlt ⟨c, s, ⟨hc, -⟩, hsep, -⟩
    have hk : k = 2 ∨ k = 3 := by omega
    rcases hk with rfl | rfl
    · cases hc
      cases hsep
    · cases hc
      cases hsep
  obtain ⟨sigs, hsigs, -, hcode⟩ := hcalls _ _ _ _ _ hasked
  have hat : SignaturesAt {} (.checkSig false)
      [.literal [0x02], .literal [0x05], .literal [0x05]] sigs := hsigs
  cases hat
  rw [(hcode (by decide)).1, ← hj] at hasked
  exact hasked

end BitcoinScript
