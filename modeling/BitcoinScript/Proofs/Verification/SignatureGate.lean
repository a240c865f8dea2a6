import BitcoinScript.Proofs.Machine.Calls
import BitcoinScript.Proofs.Program.Framing
import BitcoinScript.Proofs.Verification.Verdict

/-!
# The gate before the checker

The checker of a spend is asked about a signature only after signature and key have passed the
checks of their form, and never about an empty signature (`gated_of_call`). So under strict encoding
the hash type of every signature it sees is defined, and asks for the digest of the fork exactly if
the flags allow it.

The byte that gives the hash type is read once by the check of the form and once more by the checker
of a transaction. Since both read the last one, the digest that is computed is always the one that
the flags call for (`signature_calls_gated`): a signature made for one side of the fork is not even
compared with a digest of the other.
-/

namespace BitcoinScript

/-! ## Hash types -/

/-- A hash type is defined if, the two modifiers aside, it is one of the three base types. -/
theorem HashType.base_of_isDefined {t : HashType} (h : t.isDefined = true) :
    t.base = 1 ∨ t.base = 2 ∨ t.base = 3 := by
  have hbase : t.base = (t.value &&& 0xffffff3f) &&& 0x1f := by
    rw [UInt32.and_assoc, HashType.base]
    rfl
  simp only [isDefined, Bool.and_eq_true, decide_eq_true_eq, UInt32.le_iff_toNat_le] at h
  have hrest : (t.value &&& 0xffffff3f).toNat = 1 ∨ (t.value &&& 0xffffff3f).toNat = 2 ∨
      (t.value &&& 0xffffff3f).toNat = 3 := by
    have hlow : 1 ≤ (t.value &&& 0xffffff3f).toNat := h.1
    have hhigh : (t.value &&& 0xffffff3f).toNat ≤ 3 := h.2
    omega
  have hvalue : ∀ n : UInt32, (t.value &&& 0xffffff3f).toNat = n.toNat → t.base = n &&& 0x1f := by
    intro n hn
    rw [hbase, UInt32.toNat_inj.mp hn]
  rcases hrest with h1 | h2 | h3
  · exact Or.inl (hvalue 1 h1)
  · exact Or.inr (Or.inl (hvalue 2 h2))
  · exact Or.inr (Or.inr (hvalue 3 h3))

namespace Encoding

theorem checkHashType_eq_ok_iff {t : HashType} {flags : Flags} :
    checkHashType t flags = .ok () ↔ t.isDefined = true ∧ t.hasForkId = flags.forkId := by
  unfold checkHashType
  cases t.isDefined with
  | false => simp
  | true =>
      cases t.hasForkId with
      | false => cases flags.forkId <;> simp
      | true => cases flags.forkId <;> simp

/-- Under strict encoding, a signature that passes ends with a hash type that passes. -/
theorem checkHashType_of_checkSignature {sig : Bytes} {flags : Flags} {b : UInt8}
    (hstrict : flags.strictEncoding = true) (hlast : sig.getLast? = some b)
    (h : checkSignature sig flags = .ok ()) : checkHashType (.ofByte b) flags = .ok () := by
  simp only [checkSignature, hlast, hstrict, if_true] at h
  split at h
  · cases h
  · exact h

end Encoding

namespace Spend

theorem getLast?_of_readable? {sig key : Bytes} {t : HashType} {scalars : Curve.Signature}
    {point : Curve.Point} (h : readable? sig key = some (t, scalars, point)) :
    ∃ b, sig.getLast? = some b ∧ t = .ofByte b := by
  unfold readable? at h
  split at h
  · cases h
  · rename_i b hb
    split at h
    · cases h
    · split at h
      · cases h
      · cases h
        exact ⟨b, hb, rfl⟩

/-- The answer for a signature and a key that can be read is that of the curve, for the digest that
hash type and flags choose. -/
theorem checkSignature_of_readable? {spend : Spend} {sig key code : Bytes} {flags : Flags}
    {t : HashType} {scalars : Curve.Signature} {point : Curve.Point}
    (h : readable? sig key = some (t, scalars, point)) :
    spend.checkSignature sig key code flags =
      (Digest.signatureDigest spend.tx spend.input code spend.amount t flags).map
        fun digest => Curve.verify point scalars.lowS digest.bytes := by
  simp only [checkSignature, h]
  cases Digest.signatureDigest spend.tx spend.input code spend.amount t flags with
  | error e => rfl
  | ok digest => rfl

end Spend

/-- With a hash type that passes, the flags alone choose the digest. -/
theorem Digest.signatureDigest_of_checkHashType {tx : Transaction} {index : Nat} {code : Bytes}
    {amount : UInt64} {t : HashType} {flags : Flags}
    (h : Encoding.checkHashType t flags = .ok ()) :
    signatureDigest tx index code amount t flags =
      if flags.forkId then forkDigest tx index code amount t else legacyDigest tx index code t := by
  obtain ⟨-, hfork⟩ := Encoding.checkHashType_eq_ok_iff.mp h
  rw [signatureDigest, usesFork, hfork, Bool.and_self]

/-! ## Every question of a verification -/

variable {checker : Checker} {flags : Flags}

/-- What the checker is told about a signature: it is not empty, it and the key have the form that
the flags require, and the flags are those of the verification. -/
structure Gated (checker : Checker) (flags : Flags) (sig key code : Bytes) (f : Flags)
    (answer : Except DigestError Bool) : Prop where
  ne_nil : sig ≠ []
  signature_ok : Encoding.checkSignature sig flags = .ok ()
  key_ok : Encoding.checkPublicKey key flags = .ok ()
  flags_eq : f = flags
  answer_eq : answer = checker.checkSignature sig key code flags

theorem gated_of_evaluate {p : Program} {stack : Stack} {sig key code : Bytes} {f : Flags}
    {answer : Except DigestError Bool}
    (h : Call.signature sig key code f answer ∈ (evaluate checker flags p stack).calls) :
    Gated checker flags sig key code f answer := by
  obtain ⟨n, c, s, -, hasked⟩ := exists_asked_of_evaluate h
  obtain ⟨sigs, x, y, -, -, hpair⟩ :=
    Machine.signatures_of_question (Machine.question_of_askedBy hasked)
  have hcall := hpair.call_eq
  simp only [Call.signature.injEq] at hcall
  obtain ⟨rfl, rfl, rfl, rfl, rfl⟩ := hcall
  refine ⟨?_, hpair.signature_ok, hpair.key_ok, rfl, rfl⟩
  intro hnil
  have hsize := x.length_bytes
  rw [hnil] at hsize
  exact hpair.size_ne_zero hsize.symm

theorem gated_of_call {unlocking locking sig key code : Bytes} {f : Flags}
    {answer : Except DigestError Bool}
    (h : Call.signature sig key code f answer ∈
      (verifySpend checker flags unlocking locking).calls) :
    Gated checker flags sig key code f answer := by
  obtain ⟨x, hx, hcall⟩ := List.mem_flatMap.mp h
  rw [evaluation_of_mem_stages hx] at hcall
  exact gated_of_evaluate hcall

/-- The unlocking script is always evaluated, unless it may only push and does more. -/
theorem mem_calls_of_unlocking {unlocking locking : Bytes} {u l : Program} {call : Call}
    (hu : Program.parse unlocking = .ok u) (hl : Program.parse locking = .ok l)
    (hg : flags.genesis = false) (hcall : call ∈ (evaluate checker flags u []).calls) :
    call ∈ (verifySpend checker flags unlocking locking).calls := by
  have hstage : Verification.stage checker flags .unlocking u [] ∈
      (verifySpend checker flags unlocking locking).stages := by
    simp only [verifySpend, hu, hl, Verification.ofPrograms, hg, Bool.false_and,
      Bool.false_eq_true, if_false]
    split
    · exact List.mem_cons_self
    · split
      · exact List.mem_cons_self
      · exact List.mem_cons_self
      · split
        · split
          · exact Verification.mem_redeem List.mem_cons_self
          · exact List.mem_cons_self
        · rw [Verification.finish_stages]
          exact List.mem_cons_self
  exact List.mem_flatMap.mpr ⟨_, hstage, hcall⟩

/-- **The signature gate.** Every question about a signature that a verification asks is about a
non-empty signature and a key of the required form, under the flags of the verification. Under
strict encoding, whatever the checker of a transaction computes for it is a digest with one of the
three base types: the fork's if the flags allow it, and the first digest if they do not. -/
theorem signature_calls_gated (flags : Flags) (unlocking locking : Bytes) :
    (∀ (checker : Checker) (sig key code : Bytes) (f : Flags) (answer : Except DigestError Bool),
      Call.signature sig key code f answer ∈
          (verifySpend checker flags unlocking locking).calls →
        sig ≠ [] ∧ Encoding.checkSignature sig flags = .ok () ∧
          Encoding.checkPublicKey key flags = .ok () ∧ f = flags) ∧
    (flags.strictEncoding = true →
      ∀ (spend : Spend) (sig key code : Bytes) (f : Flags) (answer : Except DigestError Bool),
        Call.signature sig key code f answer ∈
            (verifySpend spend.checker flags unlocking locking).calls →
          (Spend.readable? sig key = none ∧ answer = .ok false) ∨
          ∃ t scalars point, Spend.readable? sig key = some (t, scalars, point) ∧
            t.isDefined = true ∧ (t.base = 1 ∨ t.base = 2 ∨ t.base = 3) ∧
            Digest.usesFork t f = flags.forkId ∧
            answer = (if flags.forkId then
                Digest.forkDigest spend.tx spend.input code spend.amount t
              else Digest.legacyDigest spend.tx spend.input code t).map
                fun digest => Curve.verify point scalars.lowS digest.bytes) := by
  constructor
  · intro checker sig key code f answer hcall
    have hgate := gated_of_call hcall
    exact ⟨hgate.ne_nil, hgate.signature_ok, hgate.key_ok, hgate.flags_eq⟩
  · intro hstrict spend sig key code f answer hcall
    have hgate := gated_of_call hcall
    have hanswer : answer = spend.checkSignature sig key code flags := hgate.answer_eq
    rw [hanswer, hgate.flags_eq]
    cases hread : Spend.readable? sig key with
    | none => exact Or.inl ⟨rfl, by simp only [Spend.checkSignature, hread]⟩
    | some read =>
        obtain ⟨t, scalars, point⟩ := read
        obtain ⟨b, hlast, rfl⟩ := Spend.getLast?_of_readable? hread
        have htype := Encoding.checkHashType_of_checkSignature hstrict hlast hgate.signature_ok
        obtain ⟨hdefined, hfork⟩ := Encoding.checkHashType_eq_ok_iff.mp htype
        have hbase := HashType.base_of_isDefined hdefined
        refine Or.inr ⟨_, scalars, point, rfl, hdefined, hbase, ?_, ?_⟩
        · rw [Digest.usesFork, hfork, Bool.and_self]
        · rw [Spend.checkSignature_of_readable? hread,
            Digest.signatureDigest_of_checkHashType htype]

/-- A strictly encoded signature with the hash type `ALL|FORKID`. -/
def unitSignature : Bytes := [0x30, 0x06, 0x02, 0x01, 0x01, 0x02, 0x01, 0x01, 0x41]

/-- The base point of the curve, written as a key. -/
def baseKey : Bytes :=
  0x04 :: (Bytes.be 32 Curve.Point.base.x.val ++ Bytes.be 32 Curve.Point.base.y.val)

/-- The script that pushes both and checks them. -/
def unitScript : Bytes := 0x09 :: unitSignature ++ 0x41 :: baseKey ++ [0xac]

theorem parse_unitScript :
    Program.parse unitScript =
      .ok ⟨[⟨⟨0x09⟩, some unitSignature, 0⟩, ⟨⟨0x41⟩, some baseKey, 10⟩, ⟨⟨0xac⟩, none, 76⟩],
        unitScript⟩ := by
  refine Program.parse_eq_ok_iff.mpr ⟨rfl, Program.chunksFrom_eq_ok_iff.mpr ⟨?_, ?_, ?_⟩⟩
  · simp only [List.forall_mem_cons]
    refine ⟨⟨rfl, rfl⟩, ⟨rfl, rfl⟩, rfl, ?_⟩
    intro c hc
    cases hc
  · exact ⟨rfl, rfl, rfl, trivial⟩
  · decide +kernel

/-- The flags of the sample. -/
def unitFlags : Flags := { strictEncoding := true, forkId := true }

theorem exists_call_of_unitScript (checker : Checker) :
    ∃ code, Call.signature unitSignature baseKey code unitFlags
        (checker.checkSignature unitSignature baseKey code unitFlags) ∈
      (verifySpend checker unitFlags unitScript []).calls := by
  have hempty : Program.parse [] = .ok ⟨[], []⟩ :=
    Program.parse_eq_ok_iff.mpr ⟨rfl, by rw [Program.chunksFrom]⟩
  have hsig : Encoding.checkSignature (Item.literal unitSignature).bytes unitFlags = .ok () := by
    rw [Item.bytes_literal]
    rfl
  have hkey : Encoding.checkPublicKey (Item.literal baseKey).bytes unitFlags = .ok () := by
    rw [Item.bytes_literal]
    rfl
  have hcount : 0 < unitFlags.limits.operations := by decide
  obtain ⟨code, hcalls⟩ := Machine.checkSig_calls ⟨unitFlags, checker, unitScript⟩ false
    (s := { stack := [.literal baseKey, .literal unitSignature], opCount := 1 }) rfl hsig hkey
    (by decide)
  rw [Item.bytes_literal, Item.bytes_literal] at hcalls
  have hreach : Machine.Reaches ⟨unitFlags, checker, unitScript⟩
      [⟨⟨0x09⟩, some unitSignature, 0⟩, ⟨⟨0x41⟩, some baseKey, 10⟩, ⟨⟨0xac⟩, none, 76⟩]
      { stack := [] } 2 ⟨⟨0xac⟩, none, 76⟩
      { stack := [.literal baseKey, .literal unitSignature] } := ⟨rfl, rfl⟩
  have hasked : Call.signature unitSignature baseKey code unitFlags
      (checker.checkSignature unitSignature baseKey code unitFlags) ∈
        Machine.askedBy ⟨unitFlags, checker, unitScript⟩ ⟨⟨0xac⟩, none, 76⟩
          { stack := [.literal baseKey, .literal unitSignature] } := by
    rw [Machine.askedBy, Machine.step_of_accepted rfl rfl (fun _ => hcount), Machine.bounded_state]
    have hdrop : (Machine.checkSig ⟨unitFlags, checker, unitScript⟩ false
        { stack := [.literal baseKey, .literal unitSignature], opCount := 1 }).state.calls.drop 0 =
          [.signature unitSignature baseKey code unitFlags
            (checker.checkSignature unitSignature baseKey code unitFlags)] := hcalls
    exact hdrop ▸ List.mem_cons_self
  exact ⟨code, mem_calls_of_unlocking parse_unitScript hempty rfl
    (mem_calls_of_evaluate (by decide +kernel) hreach hasked)⟩

/-- The signature passes the gate, and the digest computed for it is that of the fork. -/
theorem fork_digest_of_unitScript :
    ∃ code answer, Call.signature unitSignature baseKey code unitFlags answer ∈
        (verifySpend (Spend.checker ⟨⟨1, [⟨⟨.zero, 0⟩, [], 0, []⟩], [], 0⟩, 0, 5⟩) unitFlags
          unitScript []).calls ∧
      ∃ t scalars point, Spend.readable? unitSignature baseKey = some (t, scalars, point) ∧
        (t.base = 1 ∨ t.base = 2 ∨ t.base = 3) ∧
        answer = (Digest.forkDigest ⟨1, [⟨⟨.zero, 0⟩, [], 0, []⟩], [], 0⟩ 0 code 5 t).map
          fun digest => Curve.verify point scalars.lowS digest.bytes := by
  obtain ⟨code, hcall⟩ :=
    exists_call_of_unitScript (Spend.checker ⟨⟨1, [⟨⟨.zero, 0⟩, [], 0, []⟩], [], 0⟩, 0, 5⟩)
  refine ⟨code, _, hcall, ?_⟩
  have hread : (Spend.readable? unitSignature baseKey).isSome = true := by decide +kernel
  rcases (signature_calls_gated unitFlags unitScript []).2 rfl _ _ _ _ _ _ hcall with
    ⟨hnone, -⟩ | ⟨t, scalars, point, hsome, -, hbase, -, hanswer⟩
  · rw [hnone] at hread
    cases hread
  · exact ⟨t, scalars, point, hsome, hbase, hanswer⟩

end BitcoinScript
