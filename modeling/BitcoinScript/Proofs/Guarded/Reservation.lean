import BitcoinScript.Proofs.Guarded.Step

/-!
# Reserving memory

Before a number is written with a given size, the memory is reserved that the result will take. The
reservation does not look at the result, which does not exist yet: it takes what both stacks are
charged for, subtracts what the two operands are charged for, and adds the charge for an item of the
requested size, by sums that stop at the largest word. The check after the operation sums up the
stacks that the operation has left.

`Machine.reserve_eq_ok_iff` says that the two agree, for every size. So the check after the operation
never fails (`reservation_predicts_check`), and neither is a string built that it would refuse: the
operation has the same answer whatever the building of longer strings comes to
(`Guarded.numToBinBy_congr`).
-/

namespace BitcoinScript

namespace Machine

/-- The state with the top two items replaced by one. -/
def State.replaceTwo (s : State) (z : Item) : State := { s with stack := z :: s.stack.drop 2 }

theorem State.memory_replaceTwo (s : State) (z : Item) :
    (s.replaceTwo z).memory = 32 + z.size + Stack.memory (s.stack.drop 2) +
      Stack.memory s.altStack := by
  rw [State.memory, replaceTwo, Stack.memory_cons, Stack.cost_eq]

/-- The reservation is granted if the stacks with the new item are within the bound. -/
theorem reserve_eq_ok_iff {bytes : Nat} {s : State} {z : Item} :
    reserve (.memory bytes) s.altStack 2 z.size s.stack = .ok () ↔
      (s.replaceTwo z).memory ≤ bytes := by
  have hcut := Stack.memory_take_add_drop 2 s.stack
  have hoverhead : Limits.itemOverhead = 32 := rfl
  rw [State.memory_replaceTwo]
  simp only [reserve, ite_eq_right_iff, reduceCtorEq, imp_false]
  omega

/-- A granted reservation, or the failure of one. -/
theorem reserve_cases (bound : StackBound) (altStack : Stack) (consumed length : Nat) (s : Stack) :
    reserve bound altStack consumed length s = .ok () ∨
      reserve bound altStack consumed length s = .error .stackMemory := by
  unfold reserve
  split
  · exact Or.inl rfl
  · dsimp only
    split
    · exact Or.inr rfl
    · exact Or.inl rfl

/-- Without the memory for the result, the operation fails before it looks at the number. -/
theorem perform_numToBin_of_reserve {ctx : Context} {s : State} {size : Item} {rest : Stack}
    {n : Int} (offset : Nat) (hstack : s.stack = size :: rest)
    (hsize : number ctx.flags size = .ok n) (hn : 0 ≤ n) (hle : n ≤ ctx.limits.elementSize)
    (hreserve : reserve ctx.limits.stack s.altStack 2 n.toNat s.stack = .error .stackMemory) :
    perform ctx ⟨⟨0x80⟩, none, offset⟩ s = .fail .stackMemory s := by
  have hrange : ¬ (n < 0 ∨ n > ctx.flags.limits.elementSize) := by
    unfold Context.limits at hle
    omega
  have hop : (⟨0x80⟩ : Opcode).operation = .numToBin := rfl
  unfold Context.limits at hreserve
  rw [hstack] at hreserve
  simp only [perform, hop, numToBin, hstack, hsize, if_neg hrange, hreserve]
  rfl

end Machine

namespace Guarded

open Checked

open Machine (Context State)

/-- Writes a number with a given size, where `build` is asked for the string of that size whenever
it is longer than the number. -/
def numToBinBy (build : Nat → Bytes → Option Bytes) (flags : Flags) (altStack : Stack) (s : Stack) :
    Checked Reason Stack := do
  let n ← number flags (← top 0 s)
  match (word? n).filter (· ≤ flags.limits.elementSize) with
  | none => .failed .pushSize
  | some size =>
      reserve flags.limits.stack altStack 2 size s
      let x ← top 1 s
      let y ← expect (top 0 s)
      let raw ← minimize x.bytes
      if raw.length > size then .failed .impossibleEncoding
      else
        let raw ← if raw.length < size then build size raw else some raw
        let s ← expect (discard 2 s)
        return ⟨.ofBytes raw, .int, x.provenance.union y.provenance⟩ :: s

theorem numToBinBy_widen (flags : Flags) (altStack s : Stack) :
    numToBinBy widen flags altStack s = numToBin flags altStack s := rfl

/-- A string is asked for only after its memory has been reserved. -/
theorem numToBinBy_congr {build build' : Nat → Bytes → Option Bytes} {flags : Flags}
    {altStack s : Stack}
    (h : ∀ size, reserve flags.limits.stack altStack 2 size s = .done () →
      build size = build' size) :
    numToBinBy build flags altStack s = numToBinBy build' flags altStack s := by
  unfold numToBinBy
  apply bind_congr
  intro size
  apply bind_congr
  intro n
  cases (word? n).filter (· ≤ flags.limits.elementSize) with
  | none => rfl
  | some length =>
      dsimp only
      cases hreserve : reserve flags.limits.stack altStack 2 length s with
      | stopped => rfl
      | failed e => rfl
      | done granted => rw [h length hreserve]

/-- The reservation in words, whose sums stop at the largest word, is granted for the same sizes. -/
theorem reserve_eq_done_iff {ctx : Context} (hg : ctx.flags.genesis = true) {s : State}
    (hmemory : s.memory < wordSpan) {z : Item} :
    reserve ctx.limits.stack s.altStack 2 z.size s.stack = .done () ↔
      (s.replaceTwo z).memory ≤ 100000000 := by
  unfold Context.limits
  rw [reserve_eq fun _ => hmemory, ← Machine.reserve_eq_ok_iff,
    ← Machine.stack_limits_of_genesis hg]
  unfold Context.limits
  cases Machine.reserve ctx.flags.limits.stack s.altStack 2 z.size s.stack with
  | error e => simp
  | ok granted => simp

end Guarded

open Machine

/-- **The reservation predicts the check.** Once the limits are lifted, take a state whose memory is
counted in a word, and any size. The memory for an item of that size in the place of the top two is
reserved, also where its sums stop at the largest word, if and only if the stacks with that item are
within their memory. So when a number has been written with a given size, the check that follows
passes. Without the memory the operation fails for it, and whether longer strings can be built at
all makes no difference to its answer. -/
theorem reservation_predicts_check {ctx : Context} (hg : ctx.flags.genesis = true) {s : State}
    (hmemory : s.memory < Guarded.wordSpan) (offset : Nat) :
    (∀ (length : Nat) (z : Item), z.size = length →
      (Guarded.reserve ctx.limits.stack s.altStack 2 length s.stack = .done () ↔
        (s.replaceTwo z).memory ≤ 100000000) ∧
      (reserve ctx.limits.stack s.altStack 2 length s.stack = .ok () ↔
        (s.replaceTwo z).memory ≤ 100000000)) ∧
    (∀ t, perform ctx ⟨⟨0x80⟩, none, offset⟩ s = .next t → checkBound ctx t = .ok ()) ∧
    (∀ (size : Item) (rest : Stack) (n : Int) (z : Item), s.stack = size :: rest →
      number ctx.flags size = .ok n → 0 ≤ n → n ≤ ctx.limits.elementSize → z.size = n.toNat →
      100000000 < (s.replaceTwo z).memory →
        perform ctx ⟨⟨0x80⟩, none, offset⟩ s = .fail .stackMemory s) ∧
    ∀ build : Nat → Bytes → Option Bytes,
      (∀ z : Item, (s.replaceTwo z).memory ≤ 100000000 → build z.size = Guarded.widen z.size) →
        Guarded.numToBinBy build ctx.flags s.altStack s.stack =
          Guarded.numToBin ctx.flags s.altStack s.stack := by
  refine ⟨?_, ?_, ?_, ?_⟩
  · rintro length z rfl
    refine ⟨Guarded.reserve_eq_done_iff hg hmemory, ?_⟩
    rw [stack_limits_of_genesis hg]
    exact reserve_eq_ok_iff
  · intro t ht
    have hop : (⟨0x80⟩ : Opcode).operation = .numToBin := rfl
    simp only [perform, hop] at ht
    cases hwritten : numToBin ctx.flags s.altStack s.stack with
    | error e =>
        rw [hwritten] at ht
        cases ht
    | ok stack =>
        rw [hwritten] at ht
        cases ht
        exact (checkBound_eq_ok_iff_memory_le hg).mpr (numToBin_memory_le hg hwritten)
  · intro size rest n z hstack hsize hn hle hz hover
    refine perform_numToBin_of_reserve offset hstack hsize hn hle ?_
    rw [← hz]
    refine (reserve_cases _ _ _ _ _).resolve_left ?_
    rw [stack_limits_of_genesis hg, reserve_eq_ok_iff]
    omega
  · intro build hbuild
    rw [← Guarded.numToBinBy_widen]
    apply Guarded.numToBinBy_congr
    intro length hreserve
    -- a string of that length stands for the result
    have hz : (Item.literal (List.replicate length 0)).size = length := by
      rw [← Item.length_bytes, Item.bytes_literal, List.length_replicate]
    rw [← hz]
    apply hbuild
    rw [← Guarded.reserve_eq_done_iff hg hmemory, hz]
    exact hreserve

/-- The largest size for which there is memory, and one byte more. -/
theorem reservation_of_widest_number :
    Guarded.reserve (.memory 100000000) [] 2 99999968
        [.literal [0xe0, 0xe0, 0xf5, 0x05], .literal [0x01]] = .done () ∧
      perform ⟨{ genesis := true }, .absent, []⟩ ⟨⟨0x80⟩, none, 0⟩
          { stack := [.literal [0xe1, 0xe0, 0xf5, 0x05], .literal [0x01]] } =
        .fail .stackMemory { stack := [.literal [0xe1, 0xe0, 0xf5, 0x05], .literal [0x01]] } := by
  have hsize : ∀ n, (Item.literal (List.replicate n 0)).size = n :=
    fun n => (Item.size_literal _).trans List.length_replicate
  constructor
  · have hexact := (@reservation_predicts_check ⟨{ genesis := true }, .absent, []⟩ rfl
      { stack := [.literal [0xe0, 0xe0, 0xf5, 0x05], .literal [0x01]] } (by decide) 0).1
    refine (hexact 99999968 _ (hsize 99999968)).1.mpr ?_
    rw [State.memory_replaceTwo, hsize]
    decide
  · have hover := (@reservation_predicts_check ⟨{ genesis := true }, .absent, []⟩ rfl
      { stack := [.literal [0xe1, 0xe0, 0xf5, 0x05], .literal [0x01]] } (by decide) 0).2.2.1
    refine hover _ _ 99999969 _ rfl rfl (by decide) (by decide) (hsize 99999969) ?_
    rw [State.memory_replaceTwo, hsize]
    decide

end BitcoinScript
