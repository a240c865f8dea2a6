import BitcoinScript.Proofs.Program.Framing
import BitcoinScript.Proofs.Verification.Verdict

/-!
# Spending an output that pays to a script hash

The script that pays to the hash `h` of a script is recognized by four of its bytes. These bytes fix
its chunks (`isP2sh_iff_chunks`), and running the chunks compares the hash of the top item with `h`
(`evaluate_hashChunks_iff`): nothing else can go wrong, except that the push of `h` needs room for
one item more. In particular the stack cannot be empty when the script behind the hash is to be
taken off it (`verdict_ne_missing_script`).

`verdict_of_script_hash` puts this together: what it takes to spend such an output.
-/

namespace BitcoinScript

open Chunk

/-! ## The template -/

/-- The script that pays to the hash `h` of a script. -/
def payToHash (h : Bytes) : Bytes :=
  Opcode.hash160.byte :: 0x14 :: (h ++ [Opcode.equal.byte])

/-- Its chunks, for a hash of 20 bytes. -/
def hashChunks (h : Bytes) : List Chunk :=
  [⟨.hash160, none, 0⟩, ⟨⟨0x14⟩, some h, 1⟩, ⟨.equal, none, 22⟩]

theorem isP2sh_iff_bytes {p : Program} :
    p.isP2sh = true ↔ ∃ h, h.length = 20 ∧ p.bytes = payToHash h := by
  unfold Program.isP2sh
  simp only [Bool.and_eq_true, beq_iff_eq]
  constructor
  · rintro ⟨⟨⟨hlen, hfirst⟩, hsecond⟩, hlast⟩
    match hb : p.bytes with
    | [] => rw [hb] at hlen; cases hlen
    | [_] => rw [hb] at hlen; cases hlen
    | x :: y :: rest =>
        rw [hb] at hlen hfirst hsecond hlast
        simp only [List.getElem?_cons_zero, Option.some.injEq] at hfirst
        simp only [List.getElem?_cons_zero, List.getElem?_cons_succ, Option.some.injEq] at hsecond
        simp only [List.getElem?_cons_succ] at hlast
        simp only [List.length_cons] at hlen
        have hrest : rest = rest.take 20 ++ [Opcode.equal.byte] := by
          have htake : rest.take (20 + 1) = rest := List.take_of_length_le (by omega)
          rw [List.take_add_one, hlast] at htake
          exact htake.symm
        refine ⟨rest.take 20, by rw [List.length_take]; omega, ?_⟩
        rw [payToHash, ← hrest, hfirst, hsecond]
  · rintro ⟨h, hlen, hbytes⟩
    rw [hbytes, payToHash]
    refine ⟨⟨⟨?_, rfl⟩, rfl⟩, ?_⟩
    · simp [hlen]
    · simp [hlen]

theorem wellFormed_hashChunks {h : Bytes} (hh : h.length = 20) :
    ∀ c ∈ hashChunks h, c.WellFormed := by
  intro c hc
  simp only [hashChunks, List.mem_cons, List.not_mem_nil, or_false] at hc
  rcases hc with rfl | rfl | rfl
  · rfl
  · exact ⟨rfl, hh⟩
  · rfl

theorem flatMap_hashChunks {h : Bytes} : (hashChunks h).flatMap Chunk.encode = payToHash h := by
  simp [hashChunks, payToHash, Chunk.encode, Opcode.lengthWidth, Opcode.pushData1,
    Opcode.pushData2, Opcode.pushData4]

theorem parse_payToHash {h : Bytes} (hh : h.length = 20) :
    Program.parse (payToHash h) = .ok ⟨hashChunks h, payToHash h⟩ := by
  refine Program.parse_eq_ok_iff.mpr ⟨rfl, Program.chunksFrom_eq_ok_iff.mpr ⟨?_, ?_, ?_⟩⟩
  · exact wellFormed_hashChunks hh
  · refine ⟨rfl, rfl, ?_, trivial⟩
    simp [Chunk.size, hh, Opcode.lengthWidth, Opcode.pushData1, Opcode.pushData2,
      Opcode.pushData4]
  · exact flatMap_hashChunks

/-- The test on four bytes is a test on the chunks. -/
theorem isP2sh_iff_chunks {p : Program} :
    p.isP2sh = true ↔
      ∃ h, h.length = 20 ∧ Program.parse p.bytes = .ok ⟨hashChunks h, p.bytes⟩ := by
  rw [isP2sh_iff_bytes]
  constructor
  · rintro ⟨h, hlen, hbytes⟩
    refine ⟨h, hlen, ?_⟩
    rw [hbytes, parse_payToHash hlen]
  · rintro ⟨h, hlen, hparse⟩
    refine ⟨h, hlen, ?_⟩
    rw [← Program.serialize_of_parse hparse, Program.serialize, flatMap_hashChunks]

/-- The hash stands after the first two bytes. -/
theorem hash_payToHash {h : Bytes} (hh : h.length = 20) : ((payToHash h).drop 2).take 20 = h := by
  simp only [payToHash, List.drop_succ_cons, List.drop_zero]
  exact List.take_left' hh

/-! ## Running the template -/

theorem Packed.ofBytes_inj {a b : Bytes} : ofBytes a = ofBytes b ↔ a = b := by
  constructor
  · intro h
    rw [← bytes_ofBytes a, h, bytes_ofBytes]
  · rintro rfl
    rfl

namespace Machine

variable {ctx : Context}

theorem withBytes_provenance (x : Item) (b : Bytes) :
    (withBytes x b).provenance = x.provenance := rfl

theorem literal_provenance (b : Bytes) : (Item.literal b).provenance = .literal := rfl

theorem step_hash160 (hg : ctx.flags.genesis = false) (r : Item) (below : Stack) :
    step ctx ⟨.hash160, none, 0⟩ { stack := r :: below } =
      bounded ctx (.next
        { stack := withBytes r (Hash.hash160 r.data) :: below, opCount := 1 }) := by
  rw [step_of_accepted rfl rfl]
  · rfl
  · intro _
    have hops := Flags.le_operations_of_not_genesis hg
    show 0 < ctx.flags.limits.operations
    omega

theorem step_pushHash (hg : ctx.flags.genesis = false) {h : Bytes} (hh : h.length = 20)
    (s : Stack) :
    step ctx ⟨⟨0x14⟩, some h, 1⟩ { stack := s, opCount := 1 } =
      bounded ctx (.next { stack := .literal h :: s, opCount := 1 }) := by
  have hminimal : (⟨⟨0x14⟩, some h, 1⟩ : Chunk).isMinimalPush = true := by
    match h, hh with
    | _ :: _ :: _, hh =>
        simp only [isMinimalPush, hh]
        rfl
  rw [step_of_accepted ?_ rfl]
  · simp only [execute, hminimal, Bool.not_true, Bool.and_false, Bool.false_eq_true, if_false]
    rfl
  · intro hcounted
    cases hcounted
  · simp [isTooLong, Context.limits, Flags.elementSize_of_not_genesis hg, hh]

theorem step_equal (hg : ctx.flags.genesis = false) (x y : Item) (below : Stack) :
    step ctx ⟨.equal, none, 22⟩ { stack := y :: x :: below, opCount := 1 } =
      bounded ctx (.next
        { stack := .ofBool (decide (x.data = y.data)) (x.provenance.union y.provenance) :: below
          opCount := 2 }) := by
  rw [step_of_accepted rfl rfl]
  · rfl
  · intro _
    have hops := Flags.le_operations_of_not_genesis hg
    show 1 < ctx.flags.limits.operations
    omega

theorem bounded_next_eq (hg : ctx.flags.genesis = false) (s : Stack) (n : Nat) :
    bounded ctx (.next { stack := s, opCount := n }) =
      if s.length ≤ 1000 then .next { stack := s, opCount := n }
      else .fail .stackSize { stack := s, opCount := n } := by
  simp only [bounded, checkBound, Context.limits, Flags.limits_of_not_genesis hg, Limits.standard,
    List.length_nil, Nat.add_zero]
  by_cases hlen : s.length ≤ 1000
  · rw [if_neg (by omega), if_pos hlen]
  · rw [if_pos (by omega), if_neg hlen]

/-- The run of the template on a stack with room for one item more. -/
theorem run_hashChunks (ctx : Context) (hg : ctx.flags.genesis = false) {h : Bytes}
    (hh : h.length = 20) {r : Item} {below : Stack} (hroom : (r :: below).length ≤ 999) :
    run ctx (hashChunks h) { stack := r :: below } =
      ⟨{ stack := .ofBool (decide (Hash.hash160 r.data = h)) r.provenance :: below
         opCount := 2 }, none⟩ := by
  simp only [List.length_cons] at hroom
  have h1 : step ctx ⟨.hash160, none, 0⟩ { stack := r :: below } =
      .next { stack := withBytes r (Hash.hash160 r.data) :: below, opCount := 1 } := by
    rw [step_hash160 hg, bounded_next_eq hg, if_pos (by simp only [List.length_cons]; omega)]
  have h2 := step_pushHash hg hh (withBytes r (Hash.hash160 r.data) :: below)
  rw [bounded_next_eq hg, if_pos (by simp only [List.length_cons]; omega)] at h2
  have h3 := step_equal hg (withBytes r (Hash.hash160 r.data)) (.literal h) below
  rw [bounded_next_eq hg, if_pos (by simp only [List.length_cons]; omega)] at h3
  have hdata : decide ((withBytes r (Hash.hash160 r.data)).data = (Item.literal h).data) =
      decide (Hash.hash160 r.data = h) := decide_eq_decide.mpr Packed.ofBytes_inj
  rw [hdata, withBytes_provenance, literal_provenance, Provenance.union_literal] at h3
  rw [hashChunks, run_cons_next h1, run_cons_next h2, run_cons_next h3]
  rfl

/-- On an empty or a full stack the template fails. -/
theorem run_hashChunks_failure (hg : ctx.flags.genesis = false) {h : Bytes} (hh : h.length = 20)
    {stack : Stack} (hstack : stack = [] ∨ 999 < stack.length) :
    (run ctx (hashChunks h) { stack := stack }).failure ≠ none := by
  cases stack with
  | nil =>
      have hfail : step ctx ⟨.hash160, none, 0⟩ { stack := [] } =
          .fail .invalidStackOperation { stack := [], opCount := 1 } := by
        rw [step_of_accepted rfl rfl]
        · rfl
        · intro _
          have hops := Flags.le_operations_of_not_genesis hg
          show 0 < ctx.flags.limits.operations
          omega
      simp [hashChunks, run, hfail]
  | cons r below =>
      have hfull : 999 < (r :: below).length := hstack.resolve_left (List.cons_ne_nil _ _)
      simp only [List.length_cons] at hfull
      have h1 := step_hash160 hg r below
      have h2 := step_pushHash hg hh (withBytes r (Hash.hash160 r.data) :: below)
      rw [bounded_next_eq hg] at h1 h2
      rw [if_neg (by simp only [List.length_cons]; omega)] at h2
      by_cases hlen : below.length + 1 ≤ 1000
      · rw [if_pos (by simpa using hlen)] at h1
        simp [hashChunks, run, h1, h2]
      · rw [if_neg (by simpa using hlen)] at h1
        simp [hashChunks, run, h1]

end Machine

theorem topIsTrue_ofBool (b : Bool) (p : Provenance) (s : Stack) :
    topIsTrue (.ofBool b p :: s) = b := by
  simp only [topIsTrue, Item.isTrue_eq, Item.bytes_ofBool]
  cases b <;> rfl

/-- What the template asks of a stack. -/
theorem evaluate_hashChunks_iff {checker : Checker} {flags : Flags} (hg : flags.genesis = false)
    {h : Bytes} (hh : h.length = 20) {stack : Stack} :
    (evaluate checker flags ⟨hashChunks h, payToHash h⟩ stack).outcome = .ok true ↔
      ∃ r below, stack = r :: below ∧ stack.length ≤ 999 ∧ Hash.hash160 r.data = h := by
  have hsize : (⟨hashChunks h, payToHash h⟩ : Program).size ≤ flags.limits.scriptSize := by
    rw [Flags.limits_of_not_genesis hg]
    simp [Program.size, payToHash, hh, Limits.standard]
  rw [evaluate_eq_ok_iff, and_iff_right hsize]
  simp only [exists_eq_left']
  by_cases hstack : stack = [] ∨ 999 < stack.length
  · constructor
    · rintro ⟨hnone, -⟩
      exact absurd hnone (Machine.run_hashChunks_failure hg hh hstack)
    · rintro ⟨r, below, rfl, hroom, -⟩
      simp only [List.length_cons] at hroom hstack
      rcases hstack with hnil | hfull
      · cases hnil
      · omega
  · simp only [not_or, Nat.not_lt] at hstack
    obtain ⟨r, below, rfl⟩ := List.exists_cons_of_ne_nil hstack.1
    rw [Machine.run_hashChunks ⟨flags, checker, payToHash h⟩ hg hh hstack.2]
    simp only [topIsTrue_ofBool, decide_eq_true_eq, true_and]
    constructor
    · intro heq
      exact ⟨r, below, rfl, hstack.2, heq⟩
    · rintro ⟨r', below', hcons, -, heq⟩
      cases hcons
      exact heq

/-! ## The spend -/

variable {checker : Checker} {flags : Flags}

/-- Where a script hash is paid to, the item with the script is there to be taken off. -/
theorem ne_nil_of_evaluate_isP2sh (hg : flags.genesis = false) {b : Bytes} {p : Program}
    (hp : Program.parse b = .ok p) (hhash : p.isP2sh = true) {stack : Stack}
    (htrue : (evaluate checker flags p stack).outcome = .ok true) : stack ≠ [] := by
  obtain ⟨h, hh, hbytes⟩ := isP2sh_iff_bytes.mp hhash
  rw [← Program.bytes_of_parse hp, hbytes, parse_payToHash hh] at hp
  cases hp
  obtain ⟨r, below, rfl, -⟩ := (evaluate_hashChunks_iff hg hh).mp htrue
  exact List.cons_ne_nil _ _

theorem evaluate_error_ne_missing {p : Program} {stack : Stack} {f : Failure}
    (h : (evaluate checker flags p stack).outcome = .error f) :
    f ≠ .bare .invalidStackOperation := by
  rintro rfl
  rcases location_of_evaluate_error h with hr | hr | hr
  · cases hr
  · cases hr
  · cases hr

theorem redeem_verdict_ne_missing {pushed : Stack} (hpushed : pushed ≠ []) {stages : List Stage} :
    (Verification.redeem checker flags pushed stages).verdict ≠
      .error (.execution (.bare .invalidStackOperation)) := by
  obtain ⟨r, below, rfl⟩ := List.exists_cons_of_ne_nil hpushed
  intro hverdict
  simp only [Verification.redeem, Verification.stage] at hverdict
  split at hverdict
  · cases hverdict
  · split at hverdict
    · rename_i f hf
      cases hverdict
      exact evaluate_error_ne_missing hf rfl
    · cases hverdict
    · unfold Verification.finish at hverdict
      split at hverdict
      · cases hverdict
      · cases hverdict

/-- No verification ends in the failure to take the script behind a hash off the stack. -/
theorem verdict_ne_missing_script (unlocking locking : Bytes) :
    (verifySpend checker flags unlocking locking).verdict ≠
      .error (.execution (.bare .invalidStackOperation)) := by
  intro hverdict
  unfold verifySpend at hverdict
  split at hverdict
  · cases hverdict
  · rename_i u hu
    split at hverdict
    · cases hverdict
    · rename_i l hl
      simp only [Verification.ofPrograms, Verification.stage] at hverdict
      split at hverdict
      · cases hverdict
      · split at hverdict
        · rename_i f hf
          cases hverdict
          exact evaluate_error_ne_missing hf rfl
        · split at hverdict
          · rename_i f hf
            cases hverdict
            exact evaluate_error_ne_missing hf rfl
          · cases hverdict
          · rename_i htrue
            split at hverdict
            · rename_i hhash
              simp only [Bool.and_eq_true, Bool.not_eq_true'] at hhash
              split at hverdict
              · have hne := ne_nil_of_evaluate_isP2sh hhash.1.2 hl hhash.2 htrue
                exact redeem_verdict_ne_missing hne hverdict
              · cases hverdict
            · unfold Verification.finish at hverdict
              split at hverdict
              · cases hverdict
              · cases hverdict

/-- **What it takes to spend an output that pays to a script hash.** The unlocking script only
pushes; the last item it leaves is a script with the hash, and that script accepts the items below
it. -/
theorem verdict_of_script_hash (checker : Checker) {flags : Flags} (hp2sh : flags.p2sh = true)
    (hg : flags.genesis = false) :
    (∀ p : Program, p.isP2sh = true ↔
      ∃ h, h.length = 20 ∧ Program.parse p.bytes = .ok ⟨hashChunks h, p.bytes⟩) ∧
    (∀ unlocking locking : Bytes, (verifySpend checker flags unlocking locking).verdict ≠
      .error (.execution (.bare .invalidStackOperation))) ∧
    ∀ (unlocking locking : Bytes) (l : Program), Program.parse locking = .ok l → l.isP2sh = true →
      ((verifySpend checker flags unlocking locking).verdict = .ok () ↔
        ∃ u, Program.parse unlocking = .ok u ∧ u.isPushOnly = true ∧
          ∃ b r below, (evaluate checker flags u []).outcome = .ok b ∧
            (evaluate checker flags u []).stack = r :: below ∧ (r :: below).length ≤ 999 ∧
            Hash.hash160 r.data = (locking.drop 2).take 20 ∧
            ∃ p, Program.parse r.bytes = .ok p ∧
              (evaluate checker flags p below).outcome = .ok true ∧
              (flags.cleanStack = true →
                (evaluate checker flags p below).stack.length = 1)) := by
  refine ⟨fun p => isP2sh_iff_chunks, verdict_ne_missing_script, ?_⟩
  intro unlocking locking l hl hhash
  obtain ⟨h, hh, hbytes⟩ := isP2sh_iff_bytes.mp hhash
  have hlocking : locking = payToHash h := (Program.bytes_of_parse hl).symm.trans hbytes
  subst hlocking
  rw [hash_payToHash hh, verifySpend_verdict_iff]
  have hcond : (flags.p2sh && !flags.genesis && l.isP2sh) = true := by
    simp [hp2sh, hg, hhash]
  rw [parse_payToHash hh] at hl
  cases hl
  constructor
  · rintro ⟨u, l, hu, hl, hverdict⟩
    rw [parse_payToHash hh] at hl
    cases hl
    rw [Verification.ofPrograms_verdict_iff, if_pos hcond] at hverdict
    obtain ⟨-, b, hb, htrue, hpush, hredeem⟩ := hverdict
    obtain ⟨r, below, p, hstack, hp, hlast⟩ := Verification.redeem_verdict_iff.mp hredeem
    obtain ⟨r', below', hstack', hroom, heq⟩ := (evaluate_hashChunks_iff hg hh).mp htrue
    rw [hstack] at hstack' hroom
    cases hstack'
    exact ⟨u, hu, hpush, b, r, below, hb, hstack, hroom, heq, p, hp, hlast⟩
  · rintro ⟨u, hu, hpush, b, r, below, hb, hstack, hroom, heq, p, hp, hlast⟩
    refine ⟨u, _, hu, parse_payToHash hh, ?_⟩
    rw [Verification.ofPrograms_verdict_iff, if_pos hcond, Verification.redeem_verdict_iff, hstack]
    refine ⟨fun _ => hpush, b, hb, ?_, hpush, r, below, p, rfl, hp, hlast⟩
    exact (evaluate_hashChunks_iff hg hh).mpr ⟨r, below, rfl, hroom, heq⟩

/-- The output that pays to the hash of the script `1` is spent by pushing that script. -/
theorem verdict_of_pushed_script :
    (verifySpend .absent { p2sh := true } [0x01, 0x51]
      (payToHash (Hash.hash160 (Packed.ofBytes [0x51])))).verdict = .ok () := by
  have hh : (Hash.hash160 (Packed.ofBytes [0x51])).length = 20 := Hash.length_hash160 _
  generalize hhash : Hash.hash160 (Packed.ofBytes [0x51]) = h at hh
  have hu : Program.parse [0x01, 0x51] = .ok ⟨[⟨⟨0x01⟩, some [0x51], 0⟩], [0x01, 0x51]⟩ := by
    refine Program.parse_eq_ok_iff.mpr ⟨rfl, Program.chunksFrom_eq_ok_iff.mpr ⟨?_, ?_, rfl⟩⟩
    · exact List.forall_mem_singleton.mpr ⟨rfl, rfl⟩
    · exact ⟨rfl, trivial⟩
  have hp : Program.parse [0x51] = .ok ⟨[⟨⟨0x51⟩, none, 0⟩], [0x51]⟩ := by
    refine Program.parse_eq_ok_iff.mpr ⟨rfl, Program.chunksFrom_eq_ok_iff.mpr ⟨?_, ?_, rfl⟩⟩
    · exact List.forall_mem_singleton.mpr (show Opcode.isPush ⟨0x51⟩ = false from rfl)
    · exact ⟨rfl, trivial⟩
  have hp2sh : ({ p2sh := true } : Flags).p2sh = true := rfl
  have hspend := (verdict_of_script_hash .absent hp2sh rfl).2.2 [0x01, 0x51] (payToHash h) _
    (parse_payToHash hh) (isP2sh_iff_bytes.mpr ⟨h, hh, rfl⟩)
  rw [hash_payToHash hh] at hspend
  refine hspend.mpr ⟨_, hu, rfl, true, .literal [0x51], [], rfl, rfl, by decide, hhash, ?_⟩
  refine ⟨_, hp, rfl, ?_⟩
  intro hclean
  cases hclean

end BitcoinScript
