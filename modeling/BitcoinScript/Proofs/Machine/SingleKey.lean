import BitcoinScript.Proofs.Machine.Failures
import BitcoinScript.Proofs.Machine.KeyMatching

/-!
# One signature and one key

A signature can be checked for a key in two ways: by the check of one signature, or by that of
several signatures with one of each. Both come down to one question about the pair (`checkPair`),
with the same script code, since the same pushes are deleted from it. What the question comes to
does not depend on the rest of the state (`exists_checkPair_eq`), and the walk through a single key
is that question alone (`matchKeys_single`). So both fail for the same reason, or conclude with the
same answer (`single_key_checks_agree`).
-/

namespace BitcoinScript

/-- Signature check. -/
def Opcode.checkSig : Opcode := ⟨0xac⟩

/-- The failures that come of a signature and a key, and not of where they lie. -/
def Reason.IsOfPair (reason : Reason) : Prop :=
  (∃ e, reason = .encoding e) ∨ ∃ e, reason = .digest e

namespace Machine

/-- What is asked about a pair, and what comes of it, is the same in all states. -/
theorem exists_checkPair_eq (ctx : Context) (code : Bytes) (sig key : Item) (calls : List Call) :
    ∃ answer asked, (∀ reason, answer = .error reason → reason.IsOfPair) ∧
      ∀ t : State, t.calls = calls →
        checkPair ctx code sig key t = (answer, { t with calls := asked }) := by
  unfold checkPair
  split
  · rename_i e he
    refine ⟨.error (.encoding e), calls, ?_, ?_⟩
    · rintro reason ⟨⟩
      exact Or.inl ⟨e, rfl⟩
    · rintro t rfl
      rfl
  · split
    · rename_i e he
      refine ⟨.error (.encoding e), calls, ?_, ?_⟩
      · rintro reason ⟨⟩
        exact Or.inl ⟨e, rfl⟩
      · rintro t rfl
        rfl
    · split
      · refine ⟨.ok false, calls, ?_, ?_⟩
        · rintro reason ⟨⟩
        · rintro t rfl
          rfl
      · cases hanswer : ctx.checker.checkSignature sig.bytes key.bytes code ctx.flags with
        | error e =>
            refine ⟨.error (.digest e), calls ++ [.signature sig.bytes key.bytes code ctx.flags
              (.error e)], ?_, ?_⟩
            · rintro reason ⟨⟩
              exact Or.inr ⟨e, rfl⟩
            · rintro t rfl
              rfl
        | ok valid =>
            refine ⟨.ok valid, calls ++ [.signature sig.bytes key.bytes code ctx.flags
              (.ok valid)], ?_, ?_⟩
            · rintro reason ⟨⟩
            · rintro t rfl
              rfl

/-- With one key there is one question. -/
theorem matchKeys_single (ctx : Context) (code : Bytes) (sig key : Item) (s : State) :
    matchKeys ctx code [sig] [key] s = checkPair ctx code sig key s := by
  rw [matchKeys]
  obtain ⟨answer, asked⟩ := checkPair ctx code sig key s
  cases answer with
  | error reason => rfl
  | ok valid => cases valid <;> rfl

/-- The number one is read in the same way under all rules. -/
theorem number_one {x : Item} (h : x.bytes = [1]) (flags : Flags) :
    number flags x = .ok ((1 : Nat) : Int) := by
  unfold number Flags.limits
  rw [Item.toInt_eq, h]
  cases flags.genesis <;> cases flags.minimalData <;> rfl

theorem one_le_multiSigKeys (flags : Flags) : 1 ≤ flags.limits.multiSigKeys := by
  unfold Flags.limits
  split
  · decide
  · exact Nat.le_add_left 1 19

/-! ## The two checks -/

section Checks

variable (ctx : Context) (s : State) (base : Stack) (sig key : Item)
  {keyCount sigCount dummy : Item}

/-- What a check comes to with the answer about its pair. -/
def concludeWith (op : Opcode) (required : Bool) (p : Provenance) (rest : Stack)
    (answer : Except Reason Bool) (asked : State) : Outcome :=
  match answer with
  | .error e => .fail e asked
  | .ok valid => conclude op required valid p rest asked

/-- Both checks conclude with the answer about the pair, or fail as the question does. -/
theorem exists_answer (hkeyCount : keyCount.bytes = [1]) (hsigCount : sigCount.bytes = [1])
    (hdummy : dummy.bytes = []) (hroom : s.opCount + 1 ≤ ctx.limits.operations) :
    ∃ (answer : Except Reason Bool) (calls : List Call),
      (∀ reason, answer = .error reason → reason.IsOfPair) ∧
      ∀ required,
        checkSig ctx required { s with stack := key :: sig :: base } =
          concludeWith Opcode.checkSigVerify required (sig.provenance.union key.provenance) base
            answer { s with stack := key :: sig :: base, calls := calls } ∧
        checkMultiSig ctx required
            { s with stack := keyCount :: key :: sigCount :: sig :: dummy :: base } =
          concludeWith Opcode.checkMultiSigVerify required
            (Stack.provenance [keyCount, key, sigCount, sig, dummy]) base
            answer { s with stack := keyCount :: key :: sigCount :: sig :: dummy :: base,
                            opCount := s.opCount + 1, calls := calls } := by
  obtain ⟨answer, calls, hreason, hpair⟩ := exists_checkPair_eq ctx
    (withoutSignatures (scriptCode ctx s) [sig]) sig key s.calls
  refine ⟨answer, calls, hreason, ?_⟩
  intro required
  constructor
  · have hcode : scriptCode ctx { s with stack := key :: sig :: base } = scriptCode ctx s := rfl
    simp only [checkSig]
    rw [hcode, hpair]
    · cases answer with
      | error e => rfl
      | ok valid => rfl
    · rfl
  · have haccepted : Accepted ctx
        { s with stack := keyCount :: key :: sigCount :: sig :: dummy :: base } [key] [sig] dummy
        base :=
      ⟨⟨keyCount, sigCount, number_one hkeyCount ctx.flags, number_one hsigCount ctx.flags, rfl⟩,
        one_le_multiSigKeys ctx.flags, Nat.le_refl 1, hroom⟩
    have hcode : scriptCode ctx
        { s with stack := keyCount :: key :: sigCount :: sig :: dummy :: base } =
        scriptCode ctx s := rfl
    have hempty : dummy.size = 0 := by
      rw [← dummy.length_bytes, hdummy]
      rfl
    rw [checkMultiSig_of_accepted haccepted, hcode, matchKeys_single, hpair]
    · cases answer with
      | error e => rfl
      | ok valid =>
          simp only [hempty, bne_self_eq_false, Bool.and_false, Bool.false_eq_true, if_false]
          rfl
    · rfl

end Checks

end Machine

open Machine

/-- **One of one is one.** Take any state and put a signature below its key on the stack, or the
signature and the key among the operands of a check of one signature of one key, with an empty extra
item. Then the two checks fail for the same reason, or push the same answer. If the answer is
required, both leave the items below, or both fail: for the same reason, or each for its answer. In
all cases they have asked the same. -/
theorem single_key_checks_agree (ctx : Context) (s : State) (base : Stack) (sig key : Item)
    {keyCount sigCount dummy : Item} (hkeyCount : keyCount.bytes = [1])
    (hsigCount : sigCount.bytes = [1]) (hdummy : dummy.bytes = [])
    (hroom : s.opCount + 1 ≤ ctx.limits.operations) (c d : Chunk) :
    let single : State := { s with stack := key :: sig :: base }
    let multiple : State :=
      { s with stack := keyCount :: key :: sigCount :: sig :: dummy :: base }
    (c.opcode = .checkSig → d.opcode = .checkMultiSig →
      (∃ reason calls, reason.IsOfPair ∧
        perform ctx c single = .fail reason { single with calls := calls } ∧
        perform ctx d multiple =
          .fail reason { multiple with opCount := s.opCount + 1, calls := calls }) ∨
      ∃ valid p q calls,
        perform ctx c single = .next { s with stack := .ofBool valid p :: base, calls := calls } ∧
        perform ctx d multiple =
          .next { s with stack := .ofBool valid q :: base, opCount := s.opCount + 1,
                         calls := calls }) ∧
    (c.opcode = .checkSigVerify → d.opcode = .checkMultiSigVerify →
      (∃ calls, perform ctx c single = .next { s with stack := base, calls := calls } ∧
        perform ctx d multiple =
          .next { s with stack := base, opCount := s.opCount + 1, calls := calls }) ∨
      ∃ reason reason' t u, perform ctx c single = .fail reason t ∧
        perform ctx d multiple = .fail reason' u ∧ t.calls = u.calls ∧
        (reason = reason' ∧ reason.IsOfPair ∨
          reason = .verify .checkSigVerify ∧ reason' = .verify .checkMultiSigVerify)) := by
  intro single multiple
  obtain ⟨answer, calls, hreason, hchecks⟩ :=
    exists_answer ctx s base sig key hkeyCount hsigCount hdummy hroom
  constructor
  · intro hc hd
    obtain ⟨hsingle, hmultiple⟩ := hchecks false
    have hperform : perform ctx c single = checkSig ctx false single := by
      rw [perform, hc]
      rfl
    have hperform' : perform ctx d multiple = checkMultiSig ctx false multiple := by
      rw [perform, hd]
      rfl
    rw [hperform, hperform', hsingle, hmultiple]
    cases answer with
    | error reason => exact Or.inl ⟨reason, calls, hreason reason rfl, rfl, rfl⟩
    | ok valid => exact Or.inr ⟨valid, _, _, calls, rfl, rfl⟩
  · intro hc hd
    obtain ⟨hsingle, hmultiple⟩ := hchecks true
    have hperform : perform ctx c single = checkSig ctx true single := by
      rw [perform, hc]
      rfl
    have hperform' : perform ctx d multiple = checkMultiSig ctx true multiple := by
      rw [perform, hd]
      rfl
    rw [hperform, hperform', hsingle, hmultiple]
    cases answer with
    | error reason =>
        exact Or.inr ⟨reason, reason, _, _, rfl, rfl, rfl, Or.inl ⟨rfl, hreason reason rfl⟩⟩
    | ok valid =>
        cases valid with
        | true => exact Or.inl ⟨calls, rfl, rfl⟩
        | false => exact Or.inr ⟨_, _, _, _, rfl, rfl, rfl, Or.inr ⟨rfl, rfl⟩⟩

/-- The machine with a checker that accepts one signature for one key. -/
def onePair : Context := ⟨{}, .listed [([0x01], [0x0a])] none, []⟩

/-- Both checks accept the pair. -/
theorem single_key_checks_accept :
    ∃ p q calls,
      perform onePair ⟨.checkSig, none, 0⟩ { stack := [.literal [0x0a], .literal [0x01]] } =
        .next { stack := [.ofBool true p], calls := calls } ∧
      perform onePair ⟨.checkMultiSig, none, 0⟩
          { stack := [.literal [1], .literal [0x0a], .literal [1], .literal [0x01], .literal []] } =
        .next { stack := [.ofBool true q], opCount := 1, calls := calls } := by
  have hone : (Item.literal [1]).bytes = [1] := rfl
  have hempty : (Item.literal []).bytes = [] := rfl
  have hagree := single_key_checks_agree onePair { stack := [] } [] (.literal [0x01])
    (.literal [0x0a]) hone hone hempty (by decide) ⟨.checkSig, none, 0⟩ ⟨.checkMultiSig, none, 0⟩
  rcases hagree.1 rfl rfl with ⟨reason, calls, -, hfail, -⟩ | ⟨valid, p, q, calls, hnext, hnext'⟩
  · cases hfail
  · cases valid with
    | true => exact ⟨p, q, calls, hnext, hnext'⟩
    | false =>
        have hbytes := congrArg (fun o => o.state.stack.map Item.bytes) hnext
        cases hbytes

end BitcoinScript
