import BitcoinScript.Proofs.Program.Framing
import BitcoinScript.Proofs.Verification.Verdict

/-!
# Scripts that only push

A program whose opcodes are all up to that of sixteen pushes data and small numbers, except that
one of these opcodes has no meaning. It succeeds if all its pushes are accepted and the stack it
leaves is within the bound (`run_pushes_cases`). The bound is tested after every push, but no test is
stricter than the last one, since the stack only grows.

Once the limits are lifted, unlocking scripts must be of this kind, so that a spend is valid or not
by what the locking script makes of the items pushed (`push_only_spends`).
-/

namespace BitcoinScript

/-- The opcode without a meaning among those of the small numbers. -/
def Opcode.reserved : Opcode := ⟨0x50⟩

/-! ## Pushes -/

namespace Chunk

/-- What a chunk pushes: its data, or the encoding of a small number. -/
def pushed? (c : Chunk) : Option Bytes :=
  match c.payload with
  | some data => some data
  | none => c.opcode.smallInt?.map Number.encode

/-- The item that a chunk pushes. -/
def value? (c : Chunk) : Option Item :=
  match c.payload with
  | some data => some (.literal data)
  | none => c.opcode.smallInt?.map fun n => .ofInt n .literal

theorem map_bytes_value? (c : Chunk) : c.value?.map Item.bytes = c.pushed? := by
  unfold value? pushed?
  split
  · rw [Option.map_some, Item.bytes_literal]
  · rw [Option.map_map]
    congr
    funext n
    exact Item.bytes_ofInt n .literal

theorem provenance_of_value? {c : Chunk} {x : Item} (h : c.value? = some x) :
    x.provenance = .literal := by
  unfold value? at h
  split at h
  · cases h
    rfl
  · obtain ⟨n, -, rfl⟩ := Option.map_eq_some_iff.mp h
    rfl

/-- What is asked of a single push. -/
structure Pushes (flags : Flags) (c : Chunk) : Prop where
  not_reserved : c.opcode ≠ .reserved
  payload_le : ∀ data, c.payload = some data → data.length ≤ flags.limits.elementSize
  minimal : flags.minimalData = true → c.payload.isSome = true → c.isMinimalPush = true

end Chunk

/-- The byte strings that a program pushes, in order. -/
def Program.pushed (p : Program) : List Bytes := p.chunks.filterMap Chunk.pushed?

/-- The items that a program pushes, in order. -/
def Program.values (p : Program) : List Item := p.chunks.filterMap Chunk.value?

theorem Program.map_bytes_values (p : Program) : p.values.map Item.bytes = p.pushed := by
  unfold values pushed
  rw [List.map_filterMap]
  congr
  funext c
  exact c.map_bytes_value?

theorem Program.provenance_of_mem_values {p : Program} {x : Item} (h : x ∈ p.values) :
    x.provenance = .literal := by
  obtain ⟨c, -, hc⟩ := List.mem_filterMap.mp h
  exact c.provenance_of_value? hc

/-- The stack alone is within the bound. -/
def StackBound.Admits (bound : StackBound) (s : Stack) : Prop :=
  match bound with
  | .depth items => s.length ≤ items
  | .memory bytes => Stack.memory s ≤ bytes

instance (bound : StackBound) (s : Stack) : Decidable (bound.Admits s) :=
  match bound with
  | .depth items => Nat.decLe s.length items
  | .memory bytes => Nat.decLe (Stack.memory s) bytes

/-- A part of a stack takes no more room than the whole. -/
theorem StackBound.Admits.of_append {bound : StackBound} {a s : Stack}
    (h : bound.Admits (a ++ s)) : bound.Admits s := by
  cases bound with
  | depth items =>
      simp only [Admits, List.length_append] at h ⊢
      omega
  | memory bytes =>
      simp only [Admits, Stack.memory_append] at h ⊢
      omega

/-- What it takes for a program that only pushes to succeed on a stack. -/
structure Program.PushesOnto (flags : Flags) (p : Program) (stack : Stack) : Prop where
  size_le : p.size ≤ flags.limits.scriptSize
  pushes : ∀ c ∈ p.chunks, c.Pushes flags
  bound : p.chunks = [] ∨ flags.limits.stack.Admits (p.values.reverse ++ stack)

/-! ## Opcodes up to sixteen -/

section Low

variable {op : Opcode}

theorem Opcode.isCounted_of_le (h : op.byte ≤ 0x60) : op.isCounted = false := by
  unfold isCounted
  rw [decide_eq_false_iff_not]
  exact UInt8.not_lt.mpr h

theorem Opcode.isDisabled_of_le (h : op.byte ≤ 0x60) (flags : Flags) :
    op.isDisabled flags = false := by
  have habove : ∀ b ∈ alwaysDisabled ++ broughtBack, 0x60 < b := by decide +kernel
  have hnot : ∀ bs ⊆ alwaysDisabled ++ broughtBack, bs.contains op.byte = false := by
    intro bs hbs
    rw [← Bool.not_eq_true, List.contains_iff_mem]
    intro hmem
    exact absurd h (UInt8.not_le.mpr (habove op.byte (hbs hmem)))
  unfold isDisabled
  rw [hnot _ (List.subset_append_left _ _), hnot _ (List.subset_append_right _ _)]
  rfl

/-- Of the opcodes up to sixteen that push no data, all but one push a number. -/
theorem Opcode.exists_smallInt (hpush : op.isPush = false) (hle : op.byte ≤ 0x60)
    (hreserved : op ≠ .reserved) : ∃ n, op.smallInt? = some n := by
  have hne : op.byte ≠ 0x50 := by
    intro hbyte
    apply hreserved
    rw [reserved, ← hbyte]
  unfold isPush at hpush
  rw [decide_eq_false_iff_not, UInt8.not_le, UInt8.lt_iff_toNat_lt] at hpush
  rw [UInt8.le_iff_toNat_le] at hle
  rw [ne_eq, ← UInt8.toNat_inj] at hne
  unfold smallInt?
  split
  · exact ⟨_, rfl⟩
  · rename_i hminus
    rw [← UInt8.toNat_inj] at hminus
    have hrange : 0x51 ≤ op.byte ∧ op.byte ≤ 0x60 := by
      rw [UInt8.le_iff_toNat_le, UInt8.le_iff_toNat_le]
      simp only [UInt8.reduceToNat] at hpush hle hne hminus ⊢
      omega
    exact ⟨_, if_pos hrange⟩

theorem Opcode.operation_of_smallInt {n : Int} (h : op.smallInt? = some n) :
    op.operation = .smallInt n := by
  unfold operation
  rw [h]

end Low

namespace Machine

/-! ## Steps -/

section Steps

variable {ctx : Context} {c : Chunk}

theorem isTooLong_eq_false_iff {limits : Limits} : isTooLong limits c = false ↔
    ∀ data, c.payload = some data → data.length ≤ limits.elementSize := by
  unfold isTooLong
  cases c.payload with
  | none => simp
  | some data => simp

theorem checkBound_eq_ok_iff {a : Stack} :
    checkBound ctx { stack := a } = .ok () ↔ ctx.limits.stack.Admits a := by
  unfold checkBound StackBound.Admits
  cases ctx.limits.stack with
  | depth items => simp
  | memory bytes => simp [State.memory]

theorem exists_fail_of_not_admits {a : Stack} (h : ¬ ctx.limits.stack.Admits a) :
    ∃ reason, bounded ctx (.next { stack := a }) = .fail reason { stack := a } := by
  rw [← checkBound_eq_ok_iff] at h
  cases hbound : checkBound ctx { stack := a } with
  | ok done => exact absurd hbound h
  | error reason => exact ⟨reason, by simp only [bounded, hbound]⟩

theorem counted_of_le (hle : c.opcode.byte ≤ 0x60) (s : State) : counted c s = s := by
  rw [counted, Opcode.isCounted_of_le hle]
  rfl

theorem step_of_fits (hle : c.opcode.byte ≤ 0x60) (hlong : isTooLong ctx.limits c = false)
    (s : State) : step ctx c s = bounded ctx (execute ctx c s) := by
  rw [step_of_accepted hlong (Opcode.isDisabled_of_le hle ctx.flags), counted_of_le hle]
  intro hcounted
  rw [Opcode.isCounted_of_le hle] at hcounted
  cases hcounted

/-- A push that is accepted adds its item, if there is room for it. -/
theorem step_of_pushes (hwf : c.WellFormed) (hle : c.opcode.byte ≤ 0x60)
    (h : c.Pushes ctx.flags) {s : State} (hs : s.executing = true) :
    ∃ x, c.value? = some x ∧
      step ctx c s = bounded ctx (.next { s with stack := x :: s.stack }) := by
  rw [step_of_fits hle (isTooLong_eq_false_iff.mpr h.payload_le)]
  cases hpayload : c.payload with
  | some data =>
      refine ⟨.literal data, by rw [Chunk.value?, hpayload], ?_⟩
      have hminimal : (ctx.flags.minimalData && !c.isMinimalPush) = false := by
        cases hflag : ctx.flags.minimalData with
        | false => rfl
        | true =>
            rw [h.minimal hflag (by rw [hpayload]; rfl)]
            rfl
      simp only [execute, hpayload, hminimal, hs]
      rfl
  | none =>
      have hpush : c.opcode.isPush = false := by
        simpa only [Chunk.WellFormed, hpayload] using hwf
      obtain ⟨n, hn⟩ := Opcode.exists_smallInt hpush hle h.not_reserved
      refine ⟨.ofInt n .literal, by rw [Chunk.value?, hpayload, hn]; rfl, ?_⟩
      simp only [execute, hpayload, isPerformed, hs, perform, Opcode.operation_of_smallInt hn]
      rfl

/-- A push that is not accepted leaves the stack as it is. -/
theorem step_of_not_pushes (hwf : c.WellFormed) (hle : c.opcode.byte ≤ 0x60)
    (h : ¬ c.Pushes ctx.flags) (a : Stack) :
    ∃ reason, step ctx c { stack := a } = .fail reason { stack := a } := by
  cases hlong : isTooLong ctx.limits c with
  | true =>
      refine ⟨.pushSize, ?_⟩
      simp only [step, accept_eq, hlong, if_true]
  | false =>
      have hfits := isTooLong_eq_false_iff.mp hlong
      rw [step_of_fits hle hlong]
      cases hpayload : c.payload with
      | some data =>
          -- an opcode with data is not the reserved one, so the push is not minimal
          have hpush : c.opcode.isPush = true := by
            simp only [Chunk.WellFormed, hpayload] at hwf
            exact hwf.1
          have hreserved : c.opcode ≠ .reserved := by
            intro heq
            rw [heq] at hpush
            cases hpush
          have hminimal : (ctx.flags.minimalData && !c.isMinimalPush) = true := by
            refine Decidable.byContradiction fun hno => h ⟨hreserved, hfits, ?_⟩
            intro hflag _
            rw [hflag, Bool.true_and, Bool.not_eq_true, Bool.not_eq_false'] at hno
            exact hno
          refine ⟨.minimalData, ?_⟩
          simp only [execute, hpayload, hminimal]
          rfl
      | none =>
          have hreserved : c.opcode = .reserved := by
            refine Decidable.byContradiction fun hno => h ⟨hno, hfits, ?_⟩
            intro _ hsome
            rw [hpayload] at hsome
            cases hsome
          refine ⟨.badOpcode c.opcode, ?_⟩
          simp only [execute, hpayload, perform, hreserved]
          rfl

end Steps

/-! ## Runs -/

/-- What it takes for a run of pushes to succeed. -/
def Pushable (ctx : Context) (cs : List Chunk) (a : Stack) : Prop :=
  (∀ c ∈ cs, c.Pushes ctx.flags) ∧
    (cs = [] ∨ ctx.limits.stack.Admits ((cs.filterMap Chunk.value?).reverse ++ a))

theorem Pushable.tail {ctx : Context} {c : Chunk} {cs : List Chunk} {a : Stack} {x : Item}
    (hx : c.value? = some x) (h : Pushable ctx (c :: cs) a) :
    Pushable ctx cs (x :: a) ∧ ctx.limits.stack.Admits (x :: a) := by
  obtain ⟨hall, hempty | hbound⟩ := h
  · cases hempty
  · rw [List.filterMap_cons_some hx, List.reverse_cons, List.append_assoc] at hbound
    exact ⟨⟨fun d hd => hall d (List.mem_cons_of_mem c hd), Or.inr hbound⟩, hbound.of_append⟩

theorem Pushable.cons {ctx : Context} {c : Chunk} {cs : List Chunk} {a : Stack} {x : Item}
    (hc : c.Pushes ctx.flags) (hx : c.value? = some x) (hbound : ctx.limits.stack.Admits (x :: a))
    (h : Pushable ctx cs (x :: a)) : Pushable ctx (c :: cs) a := by
  refine ⟨List.forall_mem_cons.mpr ⟨hc, h.1⟩, Or.inr ?_⟩
  rw [List.filterMap_cons_some hx, List.reverse_cons, List.append_assoc]
  rcases h.2 with rfl | hrest
  · exact hbound
  · exact hrest

/-- A run of pushes succeeds as it should, or fails without a question. -/
theorem run_pushes_cases (ctx : Context) {cs : List Chunk}
    (hcs : ∀ c ∈ cs, c.WellFormed ∧ c.opcode.byte ≤ 0x60) (a : Stack) :
    (Pushable ctx cs a ∧
        run ctx cs { stack := a } = ⟨{ stack := (cs.filterMap Chunk.value?).reverse ++ a }, none⟩) ∨
      ¬ Pushable ctx cs a ∧
        ∃ b failure, run ctx cs { stack := a } = ⟨{ stack := b }, some failure⟩ := by
  induction cs generalizing a with
  | nil =>
      refine Or.inl ⟨⟨?_, Or.inl rfl⟩, rfl⟩
      intro c hc
      cases hc
  | cons c rest ih =>
      obtain ⟨⟨hwf, hle⟩, hrest⟩ := List.forall_mem_cons.mp hcs
      by_cases hc : c.Pushes ctx.flags
      · obtain ⟨x, hx, hstep⟩ := step_of_pushes hwf hle hc (s := { stack := a }) rfl
        by_cases hbound : ctx.limits.stack.Admits (x :: a)
        · have hnext : step ctx c { stack := a } = .next { stack := x :: a } := by
            rw [hstep, bounded_eq_next_iff]
            exact ⟨rfl, checkBound_eq_ok_iff.mpr hbound⟩
          rw [run_cons_next hnext]
          rcases ih hrest (x :: a) with ⟨hpushable, hrun⟩ | ⟨hno, hfail⟩
          · refine Or.inl ⟨hpushable.cons hc hx hbound, ?_⟩
            rw [hrun, List.filterMap_cons_some hx, List.reverse_cons, List.append_assoc]
            rfl
          · exact Or.inr ⟨fun h => hno (h.tail hx).1, hfail⟩
        · -- the stack only grows from here, so the last test would fail as well
          refine Or.inr ⟨fun h => hbound (h.tail hx).2, x :: a, ?_⟩
          obtain ⟨reason, hfail⟩ := exists_fail_of_not_admits hbound
          exact ⟨_, run_cons_fail (hstep.trans hfail) rest⟩
      · obtain ⟨reason, hfail⟩ := step_of_not_pushes hwf hle hc a
        exact Or.inr ⟨fun h => hc (h.1 c List.mem_cons_self), a, _, run_cons_fail hfail rest⟩

end Machine

/-! ## Evaluations and spends -/

section PushOnly

variable {checker : Checker} {flags : Flags}

/-- Either a program that only pushes meets the conditions and leaves its items on the stack, or it
fails; it asks nothing in both cases. -/
theorem evaluate_pushes_cases {script : Bytes} {p : Program} (hp : Program.parse script = .ok p)
    (hpush : p.isPushOnly = true) (stack : Stack) :
    (p.PushesOnto flags stack ∧ (∃ b, (evaluate checker flags p stack).outcome = .ok b) ∧
        (evaluate checker flags p stack).stack = p.values.reverse ++ stack ∧
        (evaluate checker flags p stack).calls = []) ∨
      ¬ p.PushesOnto flags stack ∧ (∃ f, (evaluate checker flags p stack).outcome = .error f) ∧
        (evaluate checker flags p stack).calls = [] := by
  by_cases hsize : p.size ≤ flags.limits.scriptSize
  · have hchunks : ∀ c ∈ p.chunks, c.WellFormed ∧ c.opcode.byte ≤ 0x60 := by
      intro c hc
      exact ⟨Program.wellFormed_of_parse hp c hc,
        of_decide_eq_true (List.all_eq_true.mp hpush c hc)⟩
    rw [evaluate_eq hsize]
    rcases Machine.run_pushes_cases ⟨flags, checker, p.bytes⟩ hchunks stack with
      ⟨⟨hall, hbound⟩, hrun⟩ | ⟨hno, b, ⟨reason, location⟩, hrun⟩
    · rw [hrun]
      exact Or.inl ⟨⟨hsize, hall, hbound⟩, ⟨_, rfl⟩, rfl, rfl⟩
    · rw [hrun]
      exact Or.inr ⟨fun h => hno ⟨h.pushes, h.bound⟩, ⟨_, rfl⟩, rfl⟩
  · rw [evaluate, if_pos (Nat.lt_of_not_le hsize)]
    exact Or.inr ⟨fun h => hsize h.size_le, ⟨_, rfl⟩, rfl⟩

theorem evaluate_pushes_iff {script : Bytes} {p : Program} (hp : Program.parse script = .ok p)
    (hpush : p.isPushOnly = true) (stack : Stack) :
    (∃ b, (evaluate checker flags p stack).outcome = .ok b) ↔ p.PushesOnto flags stack := by
  rcases evaluate_pushes_cases hp hpush stack with ⟨hmeets, hok, -⟩ | ⟨hno, ⟨f, hf⟩, -⟩
  · exact iff_of_true hok hmeets
  · refine iff_of_false ?_ hno
    rintro ⟨b, hb⟩
    rw [hf] at hb
    cases hb

theorem evaluate_pushes_stack {script : Bytes} {p : Program} (hp : Program.parse script = .ok p)
    (hpush : p.isPushOnly = true) {stack : Stack} (h : p.PushesOnto flags stack) :
    (evaluate checker flags p stack).stack = p.values.reverse ++ stack := by
  rcases evaluate_pushes_cases hp hpush stack with ⟨-, -, hstack, -⟩ | ⟨hno, -⟩
  · exact hstack
  · exact absurd h hno

theorem evaluate_pushes_calls {script : Bytes} {p : Program} (hp : Program.parse script = .ok p)
    (hpush : p.isPushOnly = true) (stack : Stack) :
    (evaluate checker flags p stack).calls = [] := by
  rcases evaluate_pushes_cases hp hpush stack with ⟨-, -, -, hcalls⟩ | ⟨-, -, hcalls⟩
  · exact hcalls
  · exact hcalls

/-- Under lifted limits nothing is left to run after the locking script. -/
theorem ofPrograms_genesis_iff (hg : flags.genesis = true) {u l : Program} :
    (Verification.ofPrograms checker flags u l).verdict = .ok () ↔
      u.isPushOnly = true ∧ (∃ b, (evaluate checker flags u []).outcome = .ok b) ∧
        (evaluate checker flags l (evaluate checker flags u []).stack).outcome = .ok true ∧
        (flags.cleanStack = true →
          (evaluate checker flags l (evaluate checker flags u []).stack).stack.length = 1) := by
  have hlast : (flags.p2sh && !flags.genesis && l.isP2sh) = false := by
    rw [hg, Bool.not_true, Bool.and_false, Bool.false_and]
  rw [Verification.ofPrograms_verdict_iff, hlast, if_neg Bool.false_ne_true,
    Verification.finish_verdict_iff, forall_prop_of_true hg, exists_and_right]

/-- **What scripts that only push come to.** Such a script asks nothing, succeeds if and only if it
is within the limits and each of its pushes is accepted, and leaves its items, all literal, above
those that were there. Once the limits are lifted, a spend is valid if and only if the unlocking
script is of this kind and the locking script makes true of its items. -/
theorem push_only_spends (checker : Checker) (flags : Flags) :
    (∀ script p stack, Program.parse script = .ok p → p.isPushOnly = true →
      (evaluate checker flags p stack).calls = [] ∧
        ((∃ b, (evaluate checker flags p stack).outcome = .ok b) ↔ p.PushesOnto flags stack) ∧
        (p.PushesOnto flags stack →
          (evaluate checker flags p stack).stack = p.values.reverse ++ stack) ∧
        p.values.map Item.bytes = p.pushed ∧ ∀ x ∈ p.values, x.provenance = .literal) ∧
      (flags.genesis = true → ∀ unlocking locking,
        ((verifySpend checker flags unlocking locking).verdict = .ok () ↔
          ∃ u l, Program.parse unlocking = .ok u ∧ Program.parse locking = .ok l ∧
            u.isPushOnly = true ∧ u.PushesOnto flags [] ∧
            (evaluate checker flags l u.values.reverse).outcome = .ok true ∧
            (flags.cleanStack = true →
              (evaluate checker flags l u.values.reverse).stack.length = 1))) := by
  constructor
  · intro script p stack hp hpush
    exact ⟨evaluate_pushes_calls hp hpush stack, evaluate_pushes_iff hp hpush stack,
      evaluate_pushes_stack hp hpush, p.map_bytes_values, fun x => p.provenance_of_mem_values⟩
  · intro hg unlocking locking
    rw [verifySpend_verdict_iff]
    refine exists_congr fun u => exists_congr fun l => and_congr_right fun hu =>
      and_congr_right fun hl => ?_
    rw [ofPrograms_genesis_iff hg]
    refine and_congr_right fun hpush => ?_
    rw [evaluate_pushes_iff hu hpush]
    refine and_congr_right fun hmeets => ?_
    rw [evaluate_pushes_stack hu hpush hmeets, List.append_nil]

end PushOnly

/-- The program that pushes two and the byte seven. -/
def twoAndSeven : Program where
  chunks := [⟨⟨0x52⟩, none, 0⟩, ⟨⟨0x01⟩, some [7], 1⟩]
  bytes := [0x52, 0x01, 0x07]

/-- The program `DROP`. -/
def dropTop : Program := ⟨[⟨⟨0x75⟩, none, 0⟩], [0x75]⟩

theorem parse_twoAndSeven : Program.parse twoAndSeven.bytes = .ok twoAndSeven := by
  refine Program.parse_eq_ok_iff.mpr ⟨rfl, Program.chunksFrom_eq_ok_iff.mpr ⟨?_, ?_, rfl⟩⟩
  · exact List.forall_mem_cons.mpr ⟨rfl, List.forall_mem_singleton.mpr ⟨rfl, rfl⟩⟩
  · exact ⟨rfl, rfl, trivial⟩

theorem parse_dropTop : Program.parse dropTop.bytes = .ok dropTop := by
  refine Program.parse_eq_ok_iff.mpr ⟨rfl, Program.chunksFrom_eq_ok_iff.mpr ⟨?_, ?_, rfl⟩⟩
  · exact List.forall_mem_singleton.mpr rfl
  · exact ⟨rfl, trivial⟩

/-- With lifted limits and a clean stack required, the two pushes ask nothing and unlock `DROP`,
which leaves the first of them. -/
theorem push_only_spends_twoAndSeven :
    Program.parse twoAndSeven.bytes = .ok twoAndSeven ∧ twoAndSeven.isPushOnly = true ∧
      (evaluate .absent { genesis := true, cleanStack := true } twoAndSeven []).calls = [] ∧
      (verifySpend .absent { genesis := true, cleanStack := true } twoAndSeven.bytes
        dropTop.bytes).verdict = .ok () := by
  have hspends := push_only_spends .absent { genesis := true, cleanStack := true }
  have hmeets : twoAndSeven.PushesOnto { genesis := true, cleanStack := true } [] := by
    refine ⟨by decide, List.forall_mem_cons.mpr ⟨?_, List.forall_mem_singleton.mpr ?_⟩,
      Or.inr (by decide)⟩
    · refine ⟨by decide, ?_, ?_⟩
      · rintro data ⟨⟩
      · rintro ⟨⟩
    · refine ⟨by decide, ?_, ?_⟩
      · rintro data ⟨⟩
        decide
      · rintro ⟨⟩
  exact ⟨parse_twoAndSeven, rfl, (hspends.1 _ _ [] parse_twoAndSeven rfl).1,
    (hspends.2 rfl _ _).mpr ⟨twoAndSeven, dropTop, parse_twoAndSeven, parse_dropTop, rfl, hmeets,
      rfl, fun _ => rfl⟩⟩

end BitcoinScript
