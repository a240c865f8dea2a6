import BitcoinScript.Program.Builder
import BitcoinScript.Proofs.Number.Minimal
import BitcoinScript.Proofs.Program.Deletion
import BitcoinScript.Proofs.Program.Grammar
import BitcoinScript.Proofs.Verification.PushOnly

/-!
# The shortest pushes

Seventeen byte strings have an opcode of their own, which pushes them (`IsSmallNumber`). Any other
string is pushed by an opcode in front of it, and `pushChunk` takes the one with the narrowest
length (`lengthWidth_pushChunk_le`). A well-formed push is minimal if and only if its data has no
opcode of its own and its opcode is that of `pushChunk` (`isMinimalPush_iff`).

What a script of one opcode pushes is read off the machine (`PushesAlone`), not off its bytes. The
minimal pushes are those than which no such script is shorter, and a number is built as one of them,
so that it is pushed under all flags (`minimal_pushes_shortest`).
-/

namespace BitcoinScript

open Chunk

/-! ## Executing a push -/

/-- Wherever the machine executes, the chunk pushes some bytes and changes nothing else; only the
bound on the stacks, tested after it, may still end the script. -/
def Machine.PushesBytes (ctx : Context) (c : Chunk) (data : Bytes) : Prop :=
  ∀ s : State, s.executing = true → ∃ x : Item, x.bytes = data ∧
    step ctx c s = bounded ctx (.next { s with stack := x :: s.stack })

/-- A script of one opcode, up to that of sixteen, that pushes some bytes where every push is
accepted. -/
def PushesAlone (script data : Bytes) : Prop :=
  ∃ c : Chunk, Program.parse script = .ok ⟨[c], script⟩ ∧ c.opcode.byte ≤ 0x60 ∧
    ∀ checker, Machine.PushesBytes ⟨{ genesis := true }, checker, script⟩ c data

/-- The byte strings that some opcode pushes without any data after it. -/
def IsSmallNumber (data : Bytes) : Prop :=
  ∃ b : UInt8, data = [b] ∧ (1 ≤ b ∧ b ≤ 16 ∨ b = 0x81)

namespace Machine

variable {ctx : Context} {c : Chunk} {data : Bytes}

theorem pushesBytes_of_pushes (hwf : c.WellFormed) (hle : c.opcode.byte ≤ 0x60)
    (h : c.Pushes ctx.flags) (hdata : c.pushed? = some data) : PushesBytes ctx c data := by
  intro s hs
  obtain ⟨x, hx, hstep⟩ := step_of_pushes hwf hle h hs
  refine ⟨x, ?_, hstep⟩
  rw [← map_bytes_value?, hx, Option.map_some, Option.some.injEq] at hdata
  exact hdata

/-- What a chunk is seen to push is what it stands for. -/
theorem pushed?_of_pushesBytes (hwf : c.WellFormed) (hle : c.opcode.byte ≤ 0x60)
    (h : PushesBytes ctx c data) : c.pushed? = some data := by
  obtain ⟨x, hx, hstep⟩ := h { stack := [] } rfl
  by_cases hc : c.Pushes ctx.flags
  · obtain ⟨y, hy, hstep'⟩ := step_of_pushes hwf hle hc (s := { stack := [] }) rfl
    have hstate := congrArg Outcome.state (hstep'.symm.trans hstep)
    simp only [bounded_state, Outcome.state_next, State.mk.injEq, List.cons.injEq, and_true]
      at hstate
    rw [← map_bytes_value?, hy, hstate, ← hx]
    rfl
  · -- a push that is not accepted leaves the stack empty
    obtain ⟨reason, hfail⟩ := step_of_not_pushes hwf hle hc []
    have hstate := congrArg Outcome.state (hfail.symm.trans hstep)
    simp only [bounded_state, Outcome.state_next, Outcome.state_fail, State.mk.injEq,
      List.nil_eq, reduceCtorEq, false_and] at hstate

end Machine

/-! ## Opcodes that are numbers -/

namespace Opcode

theorem smallInt?_eq_some_iff {op : Opcode} {n : Int} : op.smallInt? = some n ↔
    op = minusOne ∧ n = -1 ∨ 1 ≤ n ∧ n ≤ 16 ∧ op.byte.toNat = 0x50 + n.toNat := by
  obtain ⟨byte⟩ := op
  unfold smallInt? minusOne
  simp only [UInt8.le_iff_toNat_le, ← UInt8.toNat_inj, Opcode.mk.injEq, UInt8.reduceToNat]
  split
  · simp only [Option.some.injEq]
    omega
  · split
    · simp only [Option.some.injEq]
      omega
    · simp only [reduceCtorEq, false_iff]
      omega

end Opcode

theorem Number.encode_injective : Function.Injective Number.encode :=
  Function.LeftInverse.injective Number.value_encode

/-- A byte below the sign bit is written as it is. -/
theorem Number.encode_byte {b : UInt8} (hpos : 0 < b.toNat) (hlt : b.toNat < 128) :
    Number.encode b.toNat = [b] := by
  have hwidth : Number.width b.toNat ≤ 1 := (Number.width_le_iff Nat.one_pos).mpr hlt
  apply Bytes.eq_of_leValue_eq
  · rw [Number.length_encode, Int.natAbs_natCast, List.length_singleton]
    apply Nat.le_antisymm hwidth
    rw [Number.width, if_neg (Nat.ne_of_gt hpos)]
    exact Nat.succ_pos _
  · rw [Number.leValue_encode, if_neg (Int.not_lt.mpr (Int.natCast_nonneg _))]
    simp

/-- The strings with an opcode of their own are the numbers of these opcodes. -/
theorem isSmallNumber_iff {data : Bytes} : IsSmallNumber data ↔
    ∃ (op : Opcode) (n : Int), op.smallInt? = some n ∧ Number.encode n = data := by
  simp only [Opcode.smallInt?_eq_some_iff]
  constructor
  · rintro ⟨b, rfl, ⟨hpos, hle⟩ | rfl⟩
    · simp only [UInt8.le_iff_toNat_le, UInt8.reduceToNat] at hpos hle
      refine ⟨⟨0x50 + b⟩, b.toNat, Or.inr ⟨by omega, by omega, ?_⟩, ?_⟩
      · simp only [UInt8.toNat_add, UInt8.reduceToNat, Int.toNat_natCast]
        omega
      · exact Number.encode_byte hpos (by omega)
    · exact ⟨.minusOne, -1, Or.inl ⟨rfl, rfl⟩, rfl⟩
  · rintro ⟨op, n, ⟨-, rfl⟩ | ⟨hpos, hle, -⟩, rfl⟩
    · exact ⟨0x81, rfl, Or.inr rfl⟩
    · have hbyte : (UInt8.ofNat n.toNat).toNat = n.toNat :=
        UInt8.toNat_ofNat_of_lt' (by simp only [UInt8.size]; omega)
      refine ⟨UInt8.ofNat n.toNat, ?_, Or.inl ?_⟩
      · rw [← Number.encode_byte (by omega) (by omega), hbyte, Int.toNat_of_nonneg (by omega)]
      · simp only [UInt8.le_iff_toNat_le, hbyte, UInt8.reduceToNat]
        omega

/-! ## Opcodes in front of data -/

section Framed

variable {c : Chunk} {data : Bytes}

/-- A push has the opcode of the shortest form, or a wider length than that one. -/
theorem opcode_eq_or_lengthWidth_lt (hwf : c.WellFormed) (hdata : c.payload = some data) :
    c.opcode = (pushChunk data).opcode ∨
      (pushChunk data).opcode.lengthWidth < c.opcode.lengthWidth := by
  obtain ⟨⟨byte⟩, payload, offset⟩ := c
  cases hdata
  obtain ⟨hpush, hlength⟩ := hwf
  rcases push_cases hpush with ⟨hbyte, hwidth⟩ | hsized
  · -- a direct push is its own length
    rw [if_pos hwidth] at hlength
    have hle : data.length ≤ 0x4b := by
      rw [hlength]
      exact UInt8.le_iff_toNat_le.mp hbyte
    refine Or.inl ?_
    simp only [pushChunk, hle, if_true]
    rw [hlength, UInt8.ofNat_toNat]
  · have hpos := (lengthWidth_of_mem hsized).2.2
    rw [if_neg hpos] at hlength
    by_cases hdirect : data.length ≤ 0x4b
    · refine Or.inr ?_
      simp only [pushChunk, hdirect, if_true, (direct_opcode hdirect).1]
      exact Nat.pos_of_ne_zero hpos
    · simp only [List.mem_cons, Prod.mk.injEq, List.not_mem_nil, or_false] at hsized
      rcases hsized with ⟨rfl, hwidth⟩ | ⟨rfl, hwidth⟩ | ⟨rfl, hwidth⟩
      · have hle : data.length ≤ 0xff := by
          rw [hwidth] at hlength
          exact Nat.le_of_lt_succ hlength
        refine Or.inl ?_
        simp only [pushChunk, hdirect, hle, if_true, if_false]
        rfl
      · have hle : data.length ≤ 0xffff := by
          rw [hwidth] at hlength
          exact Nat.le_of_lt_succ hlength
        simp only [pushChunk, hdirect, hle, if_true, if_false]
        split
        · exact Or.inr (by decide)
        · exact Or.inl rfl
      · simp only [pushChunk, hdirect, if_false]
        split
        · exact Or.inr (by decide)
        · split
          · exact Or.inr (by decide)
          · exact Or.inl rfl

theorem lengthWidth_pushChunk_le (hwf : c.WellFormed) (hdata : c.payload = some data) :
    (pushChunk data).opcode.lengthWidth ≤ c.opcode.lengthWidth := by
  rcases opcode_eq_or_lengthWidth_lt hwf hdata with heq | hlt
  · exact Nat.le_of_eq (congrArg Opcode.lengthWidth heq.symm)
  · exact Nat.le_of_lt hlt

theorem isMinimalPush_of_isSmallNumber (hwf : c.WellFormed) (hdata : c.payload = some data)
    (hsmall : IsSmallNumber data) : c.isMinimalPush = false := by
  obtain ⟨b, rfl, hb⟩ := hsmall
  have hbyte : c.opcode.byte ≤ 0x4e := (isSome_payload_iff hwf).mp (by rw [hdata]; rfl)
  simp only [isMinimalPush, hdata]
  rcases hb with hrange | rfl
  · rw [if_pos hrange, beq_eq_false_iff_ne, ne_eq, ← UInt8.toNat_inj, UInt8.toNat_add]
    simp only [UInt8.le_iff_toNat_le, UInt8.reduceToNat] at hrange hbyte ⊢
    omega
  · rw [if_neg (by decide), if_pos rfl, beq_eq_false_iff_ne]
    intro hop
    rw [hop] at hbyte
    exact absurd hbyte (by decide)

theorem toNat_byte_eq_iff {op : Opcode} {n : Nat} (hn : n ≤ 0x4b) :
    op.byte.toNat = n ↔ op = ⟨UInt8.ofNat n⟩ := by
  obtain ⟨byte⟩ := op
  rw [Opcode.mk.injEq, ← UInt8.toNat_inj, (direct_opcode hn).2.2]

/-- Where no other opcode pushes the data, its length alone decides. -/
theorem isMinimalPush_of_not_isSmallNumber (hdata : c.payload = some data)
    (hsmall : ¬ IsSmallNumber data) : c.isMinimalPush = true ↔
      if data.length ≤ 0x4b then c.opcode.byte.toNat = data.length
      else if data.length ≤ 0xff then c.opcode = .pushData1
      else if data.length ≤ 0xffff then c.opcode = .pushData2
      else True := by
  rcases data with _ | ⟨b, _ | ⟨b', rest⟩⟩
  · simp only [isMinimalPush, hdata, beq_iff_eq]
    exact (toNat_byte_eq_iff (Nat.zero_le _)).symm
  · have hrange : ¬ (1 ≤ b ∧ b ≤ 16) := fun h => hsmall ⟨b, rfl, Or.inl h⟩
    have hminus : b ≠ 0x81 := fun h => hsmall ⟨b, rfl, Or.inr h⟩
    simp only [isMinimalPush, hdata, if_neg hrange, if_neg hminus, beq_iff_eq]
    exact UInt8.toNat_inj.symm
  · simp only [isMinimalPush, hdata]
    split
    · exact beq_iff_eq
    · split
      · exact beq_iff_eq
      · split
        · exact beq_iff_eq
        · exact iff_of_true rfl trivial

/-- The minimal pushes are those of the shortest form whose data has no opcode of its own. -/
theorem isMinimalPush_iff (hwf : c.WellFormed) (hdata : c.payload = some data) :
    c.isMinimalPush = true ↔ ¬ IsSmallNumber data ∧ c.opcode = (pushChunk data).opcode := by
  by_cases hsmall : IsSmallNumber data
  · refine iff_of_false ?_ fun h => h.1 hsmall
    rw [isMinimalPush_of_isSmallNumber hwf hdata hsmall]
    exact Bool.false_ne_true
  · have hform := opcode_eq_or_lengthWidth_lt hwf hdata
    rw [isMinimalPush_of_not_isSmallNumber hdata hsmall, and_iff_right hsmall]
    simp only [pushChunk] at hform ⊢
    split
    · rename_i hdirect
      exact toNat_byte_eq_iff hdirect
    · rename_i hdirect
      split
      · exact Iff.rfl
      · rename_i hone
        split
        · exact Iff.rfl
        · -- there is no wider form
          rename_i htwo
          simp only [hdirect, hone, htwo, if_false] at hform
          exact iff_of_true trivial (hform.resolve_right (Nat.not_lt.mpr c.opcode.lengthWidth_le))

theorem size_of_payload (hdata : c.payload = some data) :
    c.size = 1 + c.opcode.lengthWidth + data.length := by
  simp only [size, hdata]

theorem length_lt_of_payload (hwf : c.WellFormed) (hdata : c.payload = some data) :
    data.length < Bytes.span 4 := by
  simp only [WellFormed, hdata] at hwf
  obtain ⟨-, hlength⟩ := hwf
  split at hlength
  · rw [hlength]
    exact Nat.lt_of_lt_of_le (UInt8.toNat_lt_size _) (Bytes.span_mono (show 1 ≤ 4 by decide))
  · exact Nat.lt_of_lt_of_le hlength (Bytes.span_mono c.opcode.lengthWidth_le)

end Framed

/-! ## Scripts of one opcode -/

theorem wellFormed_of_smallInt {op : Opcode} {n : Int} (h : op.smallInt? = some n) (offset : Nat) :
    (⟨op, none, offset⟩ : Chunk).WellFormed := by
  apply (isPush_eq_false_iff op).mpr
  simp only [UInt8.lt_iff_toNat_lt, UInt8.reduceToNat]
  rcases Opcode.smallInt?_eq_some_iff.mp h with ⟨rfl, -⟩ | ⟨hpos, -, hbyte⟩
  · decide
  · omega

theorem Program.parse_encode {c : Chunk} (hwf : c.WellFormed) :
    Program.parse c.encode = .ok ⟨[{ c with offset := 0 }], c.encode⟩ := by
  have hparse := Program.parse_flatten_map_encode (List.forall_mem_singleton.mpr hwf)
  simpa only [place, List.map_cons, List.map_nil, List.flatten_cons, List.flatten_nil,
    List.append_nil] using hparse

section Alone

variable {c : Chunk} {data : Bytes}

theorem opcode_of_pushed? (hwf : c.WellFormed) (h : c.pushed? = some data) :
    c.opcode.byte ≤ 0x60 ∧ c.opcode ≠ .reserved := by
  cases hpayload : c.payload with
  | some data' =>
      have hbyte : c.opcode.byte ≤ 0x4e := (isSome_payload_iff hwf).mp (by rw [hpayload]; rfl)
      refine ⟨UInt8.le_trans hbyte (by decide), ?_⟩
      intro hop
      rw [hop] at hbyte
      exact absurd hbyte (by decide)
  | none =>
      simp only [pushed?, hpayload, Option.map_eq_some_iff] at h
      obtain ⟨n, hn, -⟩ := h
      rcases Opcode.smallInt?_eq_some_iff.mp hn with ⟨hop, -⟩ | ⟨hpos, hle, hbyte⟩
      · rw [hop]
        decide
      · constructor
        · simp only [UInt8.le_iff_toNat_le, UInt8.reduceToNat]
          omega
        · intro hop
          simp only [hop, Opcode.reserved, UInt8.reduceToNat] at hbyte
          omega

/-- The scripts of one opcode that push some data are its well-formed pushes, written. -/
theorem pushesAlone_iff {script : Bytes} : PushesAlone script data ↔
    ∃ c : Chunk, c.WellFormed ∧ c.pushed? = some data ∧ c.encode = script := by
  constructor
  · rintro ⟨c, hparse, hle, hpushes⟩
    have hwf := Program.wellFormed_of_parse hparse c (List.mem_singleton_self c)
    refine ⟨c, hwf, Machine.pushed?_of_pushesBytes hwf hle (hpushes .absent), ?_⟩
    simpa only [Program.serialize, List.flatMap_singleton] using Program.serialize_of_parse hparse
  · rintro ⟨c, hwf, hpushed, rfl⟩
    have hle := (opcode_of_pushed? hwf hpushed).1
    refine ⟨{ c with offset := 0 }, Program.parse_encode hwf, hle, fun checker => ?_⟩
    apply Machine.pushesBytes_of_pushes (c := { c with offset := 0 }) hwf hle _ hpushed
    refine ⟨(opcode_of_pushed? hwf hpushed).2, fun data hdata => ?_, ?_⟩
    · have hlt := length_lt_of_payload hwf hdata
      exact Nat.le_of_lt (Nat.lt_trans hlt (show Bytes.span 4 < Limits.wordMax by decide))
    · rintro ⟨⟩

/-- A push is minimal if and only if no chunk pushes its data with fewer bytes. -/
theorem isMinimalPush_iff_size_le (hwf : c.WellFormed) (hdata : c.payload = some data) :
    c.isMinimalPush = true ↔
      ∀ d : Chunk, d.WellFormed → d.pushed? = some data → c.size ≤ d.size := by
  have hsize := size_of_payload hdata
  rw [isMinimalPush_iff hwf hdata]
  constructor
  · rintro ⟨hsmall, hop⟩ d hd hpushed
    cases hpayload : d.payload with
    | none =>
        simp only [pushed?, hpayload, Option.map_eq_some_iff] at hpushed
        obtain ⟨n, hn⟩ := hpushed
        exact absurd (isSmallNumber_iff.mpr ⟨d.opcode, n, hn⟩) hsmall
    | some data' =>
        simp only [pushed?, hpayload, Option.some.injEq] at hpushed
        subst hpushed
        have hwidth := lengthWidth_pushChunk_le hd hpayload
        rw [hsize, size_of_payload hpayload, hop]
        omega
  · intro hshortest
    constructor
    · intro hsmall
      obtain ⟨op, n, hn, rfl⟩ := isSmallNumber_iff.mp hsmall
      obtain ⟨b, hb, -⟩ := hsmall
      have hle : c.size ≤ 1 := by
        apply hshortest ⟨op, none, 0⟩ (wellFormed_of_smallInt hn 0)
        simp only [pushed?, hn, Option.map_some]
      rw [hsize, hb, List.length_singleton] at hle
      omega
    · have hchunk := wellFormed_pushChunk (length_lt_of_payload hwf hdata)
      have hle := hshortest (pushChunk data) hchunk rfl
      rw [hsize, size_of_payload (c := pushChunk data) rfl] at hle
      exact (opcode_eq_or_lengthWidth_lt hwf hdata).resolve_right (by omega)

theorem isMinimalPush_iff_shortest (hwf : c.WellFormed) (hdata : c.payload = some data) :
    c.isMinimalPush = true ↔ ¬ ∃ e, PushesAlone e data ∧ e.length < c.encode.length := by
  rw [isMinimalPush_iff_size_le hwf hdata]
  simp only [pushesAlone_iff]
  constructor
  · rintro hshortest ⟨e, ⟨d, hd, hpushed, rfl⟩, hlt⟩
    rw [length_encode, length_encode] at hlt
    exact Nat.not_lt.mpr (hshortest d hd hpushed) hlt
  · intro hnone d hd hpushed
    rw [← length_encode, ← length_encode]
    apply Nat.not_lt.mp
    intro hlt
    exact hnone ⟨d.encode, ⟨d, hd, hpushed, rfl⟩, hlt⟩

end Alone

/-! ## Short pushes under all limits -/

section Short

variable {flags : Flags} {c : Chunk} {data : Bytes}

theorem Flags.le_limits (flags : Flags) :
    520 ≤ flags.limits.elementSize ∧ 10000 ≤ flags.limits.scriptSize := by
  unfold Flags.limits
  cases flags.genesis with
  | true => exact ⟨of_decide_eq_true rfl, of_decide_eq_true rfl⟩
  | false => exact ⟨Nat.le_refl _, Nat.le_refl _⟩

theorem Flags.admits_singleton (flags : Flags) {x : Item} (h : x.size ≤ 520) :
    flags.limits.stack.Admits [x] := by
  unfold Flags.limits
  cases flags.genesis with
  | true =>
      show Stack.memory [x] ≤ 100000000
      rw [Stack.memory_cons, Stack.memory_nil, Stack.cost, Limits.itemOverhead]
      omega
  | false => exact Nat.succ_le_succ (Nat.zero_le _)

theorem pushes_of_short (hwf : c.WellFormed) (hpushed : c.pushed? = some data)
    (hlength : data.length ≤ 520) (hminimal : c.isMinimalPush = true) : c.Pushes flags where
  not_reserved := (opcode_of_pushed? hwf hpushed).2
  payload_le := by
    intro data' hdata
    simp only [pushed?, hdata, Option.some.injEq] at hpushed
    rw [hpushed]
    exact Nat.le_trans hlength flags.le_limits.1
  minimal := fun _ _ => hminimal

theorem size_le_of_pushed? (hpushed : c.pushed? = some data) : c.size ≤ 5 + data.length := by
  cases hpayload : c.payload with
  | none =>
      simp only [size, hpayload]
      omega
  | some data' =>
      simp only [pushed?, hpayload, Option.some.injEq] at hpushed
      have hwidth := c.opcode.lengthWidth_le
      rw [size_of_payload hpayload, hpushed]
      omega

/-- A script of one short push succeeds on the empty stack. -/
theorem pushesOnto_of_short (h : c.Pushes flags) (hpushed : c.pushed? = some data)
    (hlength : data.length ≤ 520) : (⟨[c], c.encode⟩ : Program).PushesOnto flags [] where
  size_le := by
    have hsize := size_le_of_pushed? hpushed
    have hlimit := flags.le_limits.2
    rw [Program.size, length_encode]
    omega
  pushes := List.forall_mem_singleton.mpr h
  bound := by
    obtain ⟨x, hx, hbytes⟩ := Option.map_eq_some_iff.mp (c.map_bytes_value?.trans hpushed)
    refine Or.inr ?_
    have hvalues : (⟨[c], c.encode⟩ : Program).values = [x] := List.filterMap_cons_some hx
    rw [hvalues]
    apply flags.admits_singleton
    rw [← Item.length_bytes, hbytes]
    exact hlength

theorem evaluate_of_short {script : Bytes} (hparse : Program.parse script = .ok ⟨[c], c.encode⟩)
    (h : c.Pushes flags) (hpushed : c.pushed? = some data) (hlength : data.length ≤ 520)
    (checker : Checker) :
    (∃ b, (evaluate checker flags ⟨[c], c.encode⟩ []).outcome = .ok b) ∧
      (evaluate checker flags ⟨[c], c.encode⟩ []).stack.map Item.bytes = [data] := by
  have hwf := Program.wellFormed_of_parse hparse c (List.mem_singleton_self c)
  have honly : (⟨[c], c.encode⟩ : Program).isPushOnly = true := by
    have hle := decide_eq_true (opcode_of_pushed? hwf hpushed).1
    exact List.all_eq_true.mpr (List.forall_mem_singleton.mpr hle)
  have hmeets := pushesOnto_of_short h hpushed hlength
  refine ⟨(evaluate_pushes_iff hparse honly []).mpr hmeets, ?_⟩
  have hdata : (⟨[c], c.encode⟩ : Program).pushed = [data] := List.filterMap_cons_some hpushed
  rw [evaluate_pushes_stack hparse honly hmeets, List.append_nil, List.map_reverse,
    Program.map_bytes_values, hdata]
  rfl

end Short

/-! ## Building numbers -/

namespace BuildStep

/-- A number is built by its opcode, or by the push of its bytes if it has none. -/
theorem intBytes_cases (n : Int) :
    (∃ op : Opcode, op.smallInt? = some n ∧ intBytes n = [op.byte]) ∨
      (∀ op : Opcode, op.smallInt? ≠ some n) ∧ intBytes n = pushEncoding (Number.encode n) := by
  simp only [ne_eq, Opcode.smallInt?_eq_some_iff]
  unfold intBytes
  split
  · rename_i hzero
    subst hzero
    exact Or.inr ⟨by omega, rfl⟩
  · split
    · exact Or.inl ⟨.minusOne, Or.inl ⟨rfl, by assumption⟩, rfl⟩
    · split
      · rename_i hrange
        refine Or.inl ⟨⟨UInt8.ofNat (0x50 + n.toNat)⟩, Or.inr ⟨hrange.1, hrange.2, ?_⟩, rfl⟩
        exact UInt8.toNat_ofNat_of_lt' (by simp only [UInt8.size]; omega)
      · exact Or.inr ⟨by omega, rfl⟩

/-- What is built for a number is a minimal push of its bytes. -/
theorem exists_parse_intBytes {n : Int} (hlength : (Number.encode n).length < Bytes.span 4) :
    ∃ c : Chunk, Program.parse (intBytes n) = .ok ⟨[c], c.encode⟩ ∧
      c.pushed? = some (Number.encode n) ∧ c.isMinimalPush = true := by
  rcases intBytes_cases n with ⟨op, hop, hbytes⟩ | ⟨hnone, hbytes⟩
  · refine ⟨⟨op, none, 0⟩, ?_, ?_, rfl⟩
    · rw [hbytes]
      exact Program.parse_encode (wellFormed_of_smallInt hop 0)
    · simp only [pushed?, hop, Option.map_some]
  · have hwf := wellFormed_pushChunk hlength
    refine ⟨pushChunk (Number.encode n), ?_, rfl, (isMinimalPush_iff hwf rfl).mpr ⟨?_, rfl⟩⟩
    · rw [hbytes, ← encode_pushChunk]
      exact Program.parse_encode hwf
    · intro hsmall
      obtain ⟨op, m, hm, hencode⟩ := isSmallNumber_iff.mp hsmall
      rw [Number.encode_injective hencode] at hm
      exact hnone op hm

theorem length_encode_le (v : Int64) : (Number.encode v.toInt).length ≤ 9 := by
  rw [Number.length_encode_le_iff (by decide)]
  have hle := v.le_toInt
  have hlt := v.toInt_lt
  omega

end BuildStep

/-- **Minimal pushes are the shortest ones, and they are what is built.** A push of a parsed script
is minimal if and only if no script of one opcode pushes the same bytes and is shorter. The push that
is written for some data is read as one chunk with this data, and is minimal unless the data is a
number with an opcode of its own. What is built for a number of 64 bits is read as one chunk, which
under all flags pushes the bytes of the number and, run alone, leaves them on the stack. -/
theorem minimal_pushes_shortest :
    (∀ (script : Bytes) (p : Program) (c : Chunk) (data : Bytes), Program.parse script = .ok p →
      c ∈ p.chunks → c.payload = some data →
        (c.isMinimalPush = true ↔
          ¬ ∃ e, PushesAlone e data ∧ e.length < c.encode.length)) ∧
    (∀ data : Bytes, data.length < 2 ^ 32 →
      ∃ c, Program.parse (pushEncoding data) = .ok ⟨[c], pushEncoding data⟩ ∧
        c.payload = some data ∧
        (c.isMinimalPush = true ↔
          ¬ ∃ b : UInt8, data = [b] ∧ (1 ≤ b ∧ b ≤ 16 ∨ b = 0x81))) ∧
    ∀ v : Int64, ∃ p c, Program.parse (BuildStep.int v.toInt).bytes = .ok p ∧ p.chunks = [c] ∧
      (∀ ctx, Machine.PushesBytes ctx c (Number.encode v.toInt)) ∧
      ∀ (checker : Checker) (flags : Flags),
        (∃ b, (evaluate checker flags p []).outcome = .ok b) ∧
          (evaluate checker flags p []).stack.map Item.bytes = [Number.encode v.toInt] := by
  refine ⟨?_, ?_, ?_⟩
  · intro script p c data hparse hc hdata
    have hwf := Program.wellFormed_of_parse hparse c hc
    exact isMinimalPush_iff_shortest hwf hdata
  · intro data hlength
    have hwf := wellFormed_pushChunk hlength
    have hparse := Program.parse_encode hwf
    rw [encode_pushChunk] at hparse
    refine ⟨pushChunk data, hparse, rfl, ?_⟩
    rw [isMinimalPush_iff hwf rfl]
    exact and_iff_left rfl
  · intro v
    have hlength := BuildStep.length_encode_le v
    have hshort : (Number.encode v.toInt).length ≤ 520 := Nat.le_trans hlength (by decide)
    obtain ⟨c, hparse, hpushed, hminimal⟩ :=
      BuildStep.exists_parse_intBytes (Nat.lt_of_le_of_lt hlength (by decide))
    have hwf := Program.wellFormed_of_parse hparse c (List.mem_singleton_self c)
    have hle := (opcode_of_pushed? hwf hpushed).1
    have hpushes : ∀ flags, c.Pushes flags := by
      intro flags
      exact pushes_of_short hwf hpushed hshort hminimal
    refine ⟨_, c, hparse, rfl, ?_, ?_⟩
    · intro ctx
      exact Machine.pushesBytes_of_pushes hwf hle (hpushes ctx.flags) hpushed
    · intro checker flags
      exact evaluate_of_short hparse (hpushes flags) hpushed hshort checker

/-- A length byte that is not needed makes room for a shorter script, and the bytes of minus one have
an opcode of their own. -/
theorem minimal_pushes_shortest_with_length :
    Program.parse [0x4c, 0x02, 0xaa, 0xbb] =
        .ok ⟨[⟨.pushData1, some [0xaa, 0xbb], 0⟩], [0x4c, 0x02, 0xaa, 0xbb]⟩ ∧
      (∃ e, PushesAlone e [0xaa, 0xbb] ∧ e.length < 4) ∧
      ([0x81] : Bytes).length < 2 ^ 32 ∧
      ∃ c, Program.parse (pushEncoding [0x81]) = .ok ⟨[c], pushEncoding [0x81]⟩ ∧
        c.isMinimalPush = false := by
  have hparse := Program.parse_encode (c := ⟨.pushData1, some [0xaa, 0xbb], 0⟩) ⟨rfl, by decide⟩
  have hiff := minimal_pushes_shortest.1 _ _ _ _ hparse (List.mem_singleton_self _) rfl
  obtain ⟨c, hone, -, hminimal⟩ := minimal_pushes_shortest.2.1 [0x81] (by decide)
  refine ⟨hparse, ?_, by decide, c, hone, ?_⟩
  · apply Classical.not_not.mp
    intro hnone
    exact absurd (hiff.mpr hnone) (by decide)
  · rw [← Bool.not_eq_true, hminimal, not_not]
    exact ⟨0x81, rfl, Or.inr rfl⟩

end BitcoinScript
