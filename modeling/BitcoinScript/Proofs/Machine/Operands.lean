import Mathlib.Data.List.Basic
import BitcoinScript.Machine.Step

/-!
# Operations and their operands

Most operations on the stack take a fixed number of items off and put a fixed number of new ones in
their place. `Replaces n k op` says so, and what follows for the rest of the stack and for the
provenance of the new items: the operation does not look below its operands, and the new items are
as derived as the operands together.

Two operations of this kind do more than that. A shift takes its count off before it looks for the
item to shift (`shift_eq`), and the writing of a number with a given size may be refused for the
memory that it would take (`numToBin_cases`). `exists_replaces` covers them all.
-/

namespace BitcoinScript

/-- There are `k` items, all of the provenance `p`. -/
def Stack.Made (k : Nat) (p : Provenance) (s : Stack) : Prop :=
  s.length = k ∧ ∀ x ∈ s, x.provenance = p

section Made

variable {p : Provenance} {x y : Item}

theorem Stack.made_nil : Made 0 p [] := by
  refine ⟨rfl, ?_⟩
  intro x hx
  cases hx

theorem Stack.made_one (hx : x.provenance = p) : Made 1 p [x] :=
  ⟨rfl, List.forall_mem_singleton.mpr hx⟩

theorem Stack.made_two (hx : x.provenance = p) (hy : y.provenance = p) : Made 2 p [x, y] := by
  refine ⟨rfl, ?_⟩
  intro z hz
  rcases List.mem_cons.mp hz with rfl | hz
  · exact hx
  · rw [List.mem_singleton.mp hz]
    exact hy

end Made

namespace Machine

/-- The operation takes the top `n` items off and puts `k` new ones there. It looks at no other
items, and the new ones are as derived as those taken off. -/
structure Replaces (n k : Nat) (op : Stack → Except Reason Stack) : Prop where
  le_length : ∀ s t, op s = .ok t → n ≤ s.length
  append : ∀ xs rest, xs.length = n → op (xs ++ rest) = (op xs).map (· ++ rest)
  made : ∀ xs new, xs.length = n → op xs = .ok new → Stack.Made k (Stack.provenance xs) new

namespace Replaces

variable {n k : Nat} {op : Stack → Except Reason Stack}

theorem of_one (hnil : op [] = .error .invalidStackOperation)
    (happend : ∀ x rest, op (x :: rest) = (op [x]).map (· ++ rest))
    (hmade : ∀ x new, op [x] = .ok new → Stack.Made k x.provenance new) : Replaces 1 k op where
  le_length := by
    intro s t h
    cases s with
    | nil =>
        rw [hnil] at h
        cases h
    | cons x rest => exact Nat.le_add_left 1 rest.length
  append := by
    intro xs rest hlength
    obtain ⟨x, rfl⟩ := List.length_eq_one_iff.mp hlength
    exact happend x rest
  made := by
    intro xs new hlength h
    obtain ⟨x, rfl⟩ := List.length_eq_one_iff.mp hlength
    have hunion : Stack.provenance [x] = x.provenance := Provenance.literal_union x.provenance
    rw [hunion]
    exact hmade x new h

theorem of_two (hnil : op [] = .error .invalidStackOperation)
    (hone : ∀ x, ∃ reason, op [x] = .error reason)
    (happend : ∀ y x rest, op (y :: x :: rest) = (op [y, x]).map (· ++ rest))
    (hmade : ∀ y x new, op [y, x] = .ok new →
      Stack.Made k (x.provenance.union y.provenance) new) : Replaces 2 k op where
  le_length := by
    intro s t h
    match s, h with
    | [], h =>
        rw [hnil] at h
        cases h
    | [x], h =>
        obtain ⟨reason, hreason⟩ := hone x
        rw [hreason] at h
        cases h
    | y :: x :: rest, h => exact Nat.le_add_left 2 rest.length
  append := by
    intro xs rest hlength
    obtain ⟨y, x, rfl⟩ := List.length_eq_two.mp hlength
    exact happend y x rest
  made := by
    intro xs new hlength h
    obtain ⟨y, x, rfl⟩ := List.length_eq_two.mp hlength
    have hunion : Stack.provenance [y, x] = x.provenance.union y.provenance := by
      rw [Provenance.union_comm, ← Provenance.literal_union y.provenance]
      rfl
    rw [hunion]
    exact hmade y x new h

/-- A success cuts the stack into operands and the rest. -/
theorem exists_of_ok (h : Replaces n k op) {s t : Stack} (hs : op s = .ok t) :
    ∃ xs rest new, s = xs ++ rest ∧ t = new ++ rest ∧ xs.length = n ∧ op xs = .ok new := by
  have hlength : (s.take n).length = n := by
    rw [List.length_take]
    exact Nat.min_eq_left (h.le_length s t hs)
  have happend := h.append (s.take n) (s.drop n) hlength
  rw [List.take_append_drop, hs] at happend
  cases hnew : op (s.take n) with
  | error reason =>
      rw [hnew] at happend
      cases happend
  | ok new =>
      rw [hnew] at happend
      cases happend
      exact ⟨s.take n, s.drop n, new, (List.take_append_drop n s).symm, rfl, hlength, hnew⟩

/-- More items below change nothing but the items below. -/
theorem extend (h : Replaces n k op) {s t : Stack} (hs : op s = .ok t) (below : Stack) :
    op (s ++ below) = .ok (t ++ below) := by
  obtain ⟨xs, rest, new, rfl, rfl, hlength, hnew⟩ := h.exists_of_ok hs
  rw [List.append_assoc, h.append xs (rest ++ below) hlength, hnew, List.append_assoc]
  rfl

end Replaces

/-! ## The operations -/

theorem verify_replaces (op : Opcode) : Replaces 1 0 (verify op) := by
  refine .of_one rfl ?_ ?_
  · intro x rest
    simp only [verify]
    split <;> rfl
  · intro x new h
    simp only [verify] at h
    split at h
    · cases h
      exact Stack.made_nil
    · cases h

theorem cat_replaces (limits : Limits) : Replaces 2 1 (cat limits) := by
  refine .of_two rfl (fun _ => ⟨_, rfl⟩) ?_ ?_
  · intro y x rest
    simp only [cat]
    split <;> rfl
  · intro y x new h
    simp only [cat] at h
    split at h
    · cases h
    · cases h
      exact Stack.made_one rfl

theorem split_replaces (flags : Flags) : Replaces 2 2 (split flags) := by
  refine .of_two rfl ?_ ?_ ?_
  · intro x
    simp only [Machine.split]
    split <;> exact ⟨_, rfl⟩
  · intro y x rest
    simp only [Machine.split]
    split
    · rfl
    · split <;> rfl
  · intro y x new h
    simp only [Machine.split] at h
    split at h
    · cases h
    · split at h
      · cases h
        exact Stack.made_two rfl rfl
      · cases h

/-- The item written with a given size, whatever memory it takes. -/
def resize (flags : Flags) : Stack → Except Reason Stack
  | [] => .error .invalidStackOperation
  | size :: rest =>
      match number flags size with
      | .error e => .error e
      | .ok n =>
          if n < 0 ∨ n > flags.limits.elementSize then .error .pushSize
          else
            match rest with
            | [] => .error .invalidStackOperation
            | x :: rest =>
                let raw := x.data.minimize
                let p := x.provenance.union size.provenance
                if raw.size > n.toNat then .error .impossibleEncoding
                else if raw.size = n.toNat then .ok (⟨raw, .int, p⟩ :: rest)
                else .ok (⟨.widen n.toNat raw, .int, p⟩ :: rest)

theorem reserve_error {bound : StackBound} {altStack s : Stack} {consumed length : Nat}
    {reason : Reason} (h : reserve bound altStack consumed length s = .error reason) :
    reason = .stackMemory := by
  unfold reserve at h
  split at h
  · cases h
  · dsimp only at h
    split at h
    · cases h
      rfl
    · cases h

theorem numToBin_cases (flags : Flags) (altStack s : Stack) :
    numToBin flags altStack s = resize flags s ∨
      numToBin flags altStack s = .error .stackMemory := by
  cases s with
  | nil => exact Or.inl rfl
  | cons size rest =>
      simp only [numToBin, resize]
      cases number flags size with
      | error reason => exact Or.inl rfl
      | ok n =>
          dsimp only
          by_cases hrange : n < 0 ∨ n > flags.limits.elementSize
          · rw [if_pos hrange, if_pos hrange]
            exact Or.inl rfl
          · rw [if_neg hrange, if_neg hrange]
            cases hreserve : reserve flags.limits.stack altStack 2 n.toNat (size :: rest) with
            | error reason => exact Or.inr (congrArg _ (reserve_error hreserve))
            | ok done => exact Or.inl rfl

theorem resize_replaces (flags : Flags) : Replaces 2 1 (resize flags) := by
  refine .of_two rfl ?_ ?_ ?_
  · intro x
    simp only [resize]
    split
    · exact ⟨_, rfl⟩
    · split <;> exact ⟨_, rfl⟩
  · intro y x rest
    simp only [resize]
    split
    · rfl
    · split
      · rfl
      · split
        · rfl
        · split <;> rfl
  · intro y x new h
    simp only [resize] at h
    split at h
    · cases h
    · split at h
      · cases h
      · split at h
        · cases h
        · split at h
          · cases h
            exact Stack.made_one rfl
          · cases h
            exact Stack.made_one rfl

theorem binToNum_replaces (limits : Limits) : Replaces 1 1 (binToNum limits) := by
  refine .of_one rfl ?_ ?_
  · intro x rest
    simp only [binToNum]
    split <;> rfl
  · intro x new h
    simp only [binToNum] at h
    split at h
    · cases h
    · cases h
      exact Stack.made_one rfl

theorem size_replaces : Replaces 1 2 size := by
  refine .of_one rfl ?_ ?_
  · exact fun x rest => rfl
  · intro x new h
    cases h
    exact Stack.made_two rfl rfl

theorem invert_replaces : Replaces 1 1 invert := by
  refine .of_one rfl ?_ ?_
  · exact fun x rest => rfl
  · intro x new h
    cases h
    exact Stack.made_one rfl

theorem bitwise_replaces (op : BitOp) : Replaces 2 1 (bitwise op) := by
  refine .of_two rfl (fun _ => ⟨_, rfl⟩) ?_ ?_
  · intro y x rest
    simp only [bitwise]
    split <;> rfl
  · intro y x new h
    simp only [bitwise] at h
    split at h
    · cases h
      exact Stack.made_one rfl
    · cases h

theorem equal_replaces : Replaces 2 1 equal := by
  refine .of_two rfl (fun _ => ⟨_, rfl⟩) ?_ ?_
  · exact fun y x rest => rfl
  · intro y x new h
    cases h
    exact Stack.made_one rfl

theorem equalVerify_replaces : Replaces 2 0 equalVerify := by
  refine .of_two rfl (fun _ => ⟨_, rfl⟩) ?_ ?_
  · intro y x rest
    simp only [equalVerify]
    split <;> rfl
  · intro y x new h
    simp only [equalVerify] at h
    split at h
    · cases h
      exact Stack.made_nil
    · cases h

theorem hash_replaces (op : HashOp) : Replaces 1 1 (hash op) := by
  refine .of_one rfl ?_ ?_
  · exact fun x rest => rfl
  · intro x new h
    cases h
    exact Stack.made_one rfl

theorem unary_replaces (flags : Flags) (op : UnaryOp) : Replaces 1 1 (unary flags op) := by
  refine .of_one rfl ?_ ?_
  · intro x rest
    simp only [unary]
    split <;> rfl
  · intro x new h
    simp only [unary] at h
    split at h
    · cases h
      exact Stack.made_one rfl
    · cases h

theorem Value.item_provenance (v : Value) (p : Provenance) : (v.item p).provenance = p := by
  cases v <;> rfl

theorem binary_replaces (flags : Flags) (op : BinaryOp) : Replaces 2 1 (binary flags op) := by
  refine .of_two rfl (fun _ => ⟨_, rfl⟩) ?_ ?_
  · intro y x rest
    simp only [binary]
    split
    · split <;> rfl
    · rfl
  · intro y x new h
    simp only [binary] at h
    split at h
    · split at h
      · cases h
        exact Stack.made_one (Value.item_provenance _ _)
      · cases h
    · cases h

theorem numEqualVerify_replaces (flags : Flags) : Replaces 2 0 (numEqualVerify flags) := by
  refine .of_two rfl (fun _ => ⟨_, rfl⟩) ?_ ?_
  · intro y x rest
    simp only [numEqualVerify]
    split
    · split <;> rfl
    · rfl
  · intro y x new h
    simp only [numEqualVerify] at h
    split at h
    · split at h
      · cases h
        exact Stack.made_nil
      · cases h
    · cases h

theorem within_replaces (flags : Flags) : Replaces 3 1 (within flags) where
  le_length := by
    intro s t h
    match s, h with
    | z :: y :: x :: rest, h => exact Nat.le_add_left 3 rest.length
  append := by
    intro xs rest hlength
    obtain ⟨z, y, x, rfl⟩ := List.length_eq_three.mp hlength
    simp only [List.cons_append, List.nil_append, within]
    split
    · split <;> rfl
    · rfl
  made := by
    intro xs new hlength h
    obtain ⟨z, y, x, rfl⟩ := List.length_eq_three.mp hlength
    have hunion : Stack.provenance [z, y, x] =
        (x.provenance.union y.provenance).union z.provenance := by
      rw [Provenance.union_comm x.provenance, Provenance.union_comm _ z.provenance,
        ← Provenance.union_assoc, ← Provenance.literal_union z.provenance]
      rfl
    rw [hunion]
    simp only [within] at h
    split at h
    · split at h
      · cases h
        exact Stack.made_one rfl
      · cases h
    · cases h

/-- The stack after a shift, without regard to what a failure leaves. -/
def shifted (flags : Flags) (d : Direction) : Stack → Except Reason Stack
  | [] => .error .invalidStackOperation
  | count :: rest =>
      match number flags count with
      | .error e => .error e
      | .ok n =>
          if n < 0 then .error .invalidNumberRange
          else
            match rest with
            | [] => .error .invalidStackOperation
            | x :: rest =>
                let shifted := withBytes x (Bytes.shift d (min n.toNat Limits.wordMax) x.bytes)
                .ok (shifted.merge count.provenance :: rest)

theorem shifted_replaces (flags : Flags) (d : Direction) : Replaces 2 1 (shifted flags d) := by
  refine .of_two rfl ?_ ?_ ?_
  · intro x
    simp only [shifted]
    split
    · exact ⟨_, rfl⟩
    · split <;> exact ⟨_, rfl⟩
  · intro y x rest
    simp only [shifted]
    split
    · rfl
    · split <;> rfl
  · intro y x new h
    simp only [shifted] at h
    split at h
    · cases h
    · split at h
      · cases h
      · cases h
        exact Stack.made_one rfl

theorem number_error {flags : Flags} {x : Item} {reason : Reason}
    (h : number flags x = .error reason) : reason ≠ .invalidStackOperation := by
  unfold number at h
  split at h
  · cases h
  · cases h
    exact Reason.noConfusion

/-- A shift that misses one of its operands has taken the other one off. -/
theorem shift_eq (flags : Flags) (d : Direction) (s : State) : shift flags d s =
    match shifted flags d s.stack with
    | .ok stack => .next { s with stack := stack }
    | .error reason => .fail reason
        (if reason = .invalidStackOperation then { s with stack := s.stack.drop 1 } else s) := by
  unfold shift shifted
  cases hstack : s.stack with
  | nil =>
      have hsame : ({ s with stack := [] } : State) = s := by rw [← hstack]
      simp only [if_true, List.drop_nil, hsame]
  | cons count rest =>
      simp only
      cases hn : number flags count with
      | error reason => simp only [number_error hn, if_false]
      | ok n =>
          simp only
          split
          · rfl
          · cases rest <;> rfl

/-! ## Chunks with such operations -/

/-- The operations that replace a fixed number of items on top of the stack. -/
def isReplacing : Operation → Bool
  | .verify => true
  | .cat => true
  | .split => true
  | .numToBin => true
  | .binToNum => true
  | .size => true
  | .invert => true
  | .bitwise _ => true
  | .equal => true
  | .equalVerify => true
  | .shift _ => true
  | .unary _ => true
  | .binary _ => true
  | .numEqualVerify => true
  | .within => true
  | .hash _ => true
  | _ => false

/-- The operation of the chunk puts what `op` says in place of the stack, or it fails as `op` does
or for want of memory. -/
def PerformsBy (ctx : Context) (c : Chunk) (op : Stack → Except Reason Stack) : Prop :=
  ∀ s, (∃ stack, op s.stack = .ok stack ∧ perform ctx c s = .next { s with stack := stack }) ∨
    ∃ reason t, perform ctx c s = .fail reason t ∧
      (op s.stack = .error reason ∨ reason = .stackMemory)

section Performs

variable {ctx : Context} {c : Chunk} {op : Stack → Except Reason Stack}

theorem performsBy_of_withStack (h : ∀ s, perform ctx c s = s.withStack (op s.stack)) :
    PerformsBy ctx c op := by
  intro s
  rw [h s]
  cases op s.stack with
  | ok stack => exact Or.inl ⟨stack, rfl, rfl⟩
  | error reason => exact Or.inr ⟨reason, s, rfl, Or.inl rfl⟩

theorem performsBy_shifted {d : Direction} (hop : c.opcode.operation = .shift d) :
    PerformsBy ctx c (shifted ctx.flags d) := by
  intro s
  have hperform : perform ctx c s = shift ctx.flags d s := by simp only [perform, hop]
  rw [hperform, shift_eq]
  cases shifted ctx.flags d s.stack with
  | ok stack => exact Or.inl ⟨stack, rfl, rfl⟩
  | error reason => exact Or.inr ⟨reason, _, rfl, Or.inl rfl⟩

theorem performsBy_resize (hop : c.opcode.operation = .numToBin) :
    PerformsBy ctx c (resize ctx.flags) := by
  intro s
  have hperform : perform ctx c s =
      s.withStack (numToBin ctx.flags s.altStack s.stack) := by simp only [perform, hop]
  rw [hperform]
  rcases numToBin_cases ctx.flags s.altStack s.stack with hsame | hrefused
  · rw [hsame]
    cases resize ctx.flags s.stack with
    | ok stack => exact Or.inl ⟨stack, rfl, rfl⟩
    | error reason => exact Or.inr ⟨reason, s, rfl, Or.inl rfl⟩
  · rw [hrefused]
    exact Or.inr ⟨_, s, rfl, Or.inr rfl⟩

/-- **Every operation of the kind works on its operands alone**, and marks its results by them. -/
theorem exists_replaces (ctx : Context) (c : Chunk) (h : isReplacing c.opcode.operation = true) :
    ∃ n k op, Replaces n k op ∧ PerformsBy ctx c op := by
  have hplain : ∀ {n k op}, Replaces n k op → (∀ s, perform ctx c s = s.withStack (op s.stack)) →
      ∃ n k op, Replaces n k op ∧ PerformsBy ctx c op :=
    fun hreplaces hperform => ⟨_, _, _, hreplaces, performsBy_of_withStack hperform⟩
  cases hop : c.opcode.operation with
  | shift d => exact ⟨2, 1, _, shifted_replaces ctx.flags d, performsBy_shifted hop⟩
  | numToBin => exact ⟨2, 1, _, resize_replaces ctx.flags, performsBy_resize hop⟩
  | verify => exact hplain (verify_replaces c.opcode) fun s => by simp only [perform, hop]
  | cat => exact hplain (cat_replaces ctx.limits) fun s => by simp only [perform, hop]
  | split => exact hplain (split_replaces ctx.flags) fun s => by simp only [perform, hop]
  | binToNum => exact hplain (binToNum_replaces ctx.limits) fun s => by simp only [perform, hop]
  | size => exact hplain size_replaces fun s => by simp only [perform, hop]
  | invert => exact hplain invert_replaces fun s => by simp only [perform, hop]
  | bitwise op => exact hplain (bitwise_replaces op) fun s => by simp only [perform, hop]
  | equal => exact hplain equal_replaces fun s => by simp only [perform, hop]
  | equalVerify => exact hplain equalVerify_replaces fun s => by simp only [perform, hop]
  | unary op => exact hplain (unary_replaces ctx.flags op) fun s => by simp only [perform, hop]
  | binary op => exact hplain (binary_replaces ctx.flags op) fun s => by simp only [perform, hop]
  | numEqualVerify =>
      exact hplain (numEqualVerify_replaces ctx.flags) fun s => by simp only [perform, hop]
  | within => exact hplain (within_replaces ctx.flags) fun s => by simp only [perform, hop]
  | hash op => exact hplain (hash_replaces op) fun s => by simp only [perform, hop]
  | _ => rw [hop] at h; cases h

end Performs

end Machine

end BitcoinScript
