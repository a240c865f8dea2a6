import BitcoinScript.Proofs.Machine.Failures
import BitcoinScript.Proofs.Machine.Limits
import BitcoinScript.Proofs.Number.Minimal

/-!
# Memory between an operation and its check

The memory of the stacks is checked after an operation, when its results are already there. Once the
limits are lifted, items and numbers have no length of their own, so what an operation may put on
the stack is bounded only by what was there before: moves copy items that exist, the width of a sum
or product is at most that of the operands together (`Number.width_eval_le_add`), and all other
results are short or no longer than an operand. So an operation at most doubles the stack and adds a
little (`AtMostDoubles`).

The one exception is the writing of a number with a given size, where the size is itself a number on
the stack; there the memory is reserved before (`numToBin_memory_le`).
-/

namespace BitcoinScript

/-! ## Memory of parts -/

namespace Stack

theorem cost_eq (x : Item) : cost x = 32 + x.size := rfl

theorem memory_sublist {s t : Stack} (h : s.Sublist t) : memory s ≤ memory t := by
  induction h with
  | slnil => exact Nat.le_refl _
  | cons x _ ih =>
      rw [memory_cons]
      omega
  | cons_cons x _ ih =>
      rw [memory_cons, memory_cons]
      omega

theorem memory_take_add_drop (n : Nat) (s : Stack) :
    memory (s.take n) + memory (s.drop n) = memory s := by
  rw [← memory_append, List.take_append_drop]

theorem cost_le_memory {x : Item} {s : Stack} (h : x ∈ s) : cost x ≤ memory s := by
  have hle := memory_sublist (List.singleton_sublist.mpr h)
  rw [memory_cons, memory_nil] at hle
  exact hle

theorem length_le_memory (s : Stack) : 32 * s.length ≤ memory s := by
  induction s with
  | nil => exact Nat.le_refl _
  | cons x rest ih =>
      rw [List.length_cons, memory_cons, cost_eq]
      omega

end Stack

open Stack

/-! ## Widths -/

namespace Number

/-- The sign bits of two strings together are below that of a string one byte longer than both. -/
theorem two_mul_signWeight_le (i j : Nat) :
    2 * (signWeight i * signWeight j) ≤ signWeight (i + j + 1) := by
  unfold signWeight
  rw [Nat.one_shiftLeft, Nat.one_shiftLeft, Nat.one_shiftLeft, ← Nat.pow_add, Nat.mul_comm,
    ← Nat.pow_succ]
  exact Nat.pow_le_pow_right (by omega) (by omega)

theorem width_le_succ (n : Nat) : width n ≤ n + 1 := by
  rw [width_le_iff (by omega)]
  have hlt : n + 1 < signWeight (n + 1) := lt_signWeight (by omega)
  omega

/-- The result of an operation on two numbers is at most one byte wider than both together. -/
theorem width_eval_le_add {op : BinaryOp} {a b n : Int} {i j : Nat}
    (ha : a.natAbs < signWeight i) (hb : b.natAbs < signWeight j)
    (h : op.eval a b = .ok (.int n)) : width n.natAbs ≤ i + j + 1 := by
  rw [width_le_iff (by omega)]
  exact Nat.lt_of_lt_of_le (BinaryOp.natAbs_eval_lt ha hb h) (two_mul_signWeight_le i j)

theorem width_eval_le_succ (op : UnaryOp) {a : Int} {i : Nat} (ha : a.natAbs < signWeight i) :
    width (op.eval a).natAbs ≤ i + 1 := by
  have hle := op.natAbs_eval_le a
  have hgrows := two_mul_signWeight_le i 0
  have hone : signWeight 0 = 1 := rfl
  rw [hone, Nat.mul_one, Nat.add_zero] at hgrows
  rw [width_le_iff (by omega)]
  omega

end Number

theorem Packed.size_minimize_le (p : Packed) : p.minimize.size ≤ p.size := by
  have hle := Number.length_minimize_le p.bytes
  rw [← Packed.bytes_minimize, Packed.length_bytes, Packed.length_bytes] at hle
  exact hle

namespace Machine

theorem natAbs_lt_signWeight_size {flags : Flags} {x : Item} {n : Int}
    (h : number flags x = .ok n) : n.natAbs < Number.signWeight x.size := by
  unfold number at h
  split at h
  · rename_i m hm
    cases h
    rw [Item.toInt_eq] at hm
    unfold Number.decode at hm
    split at hm
    · cases hm
    · split at hm
      · cases hm
      · cases hm
        rw [← Item.length_bytes]
        exact Number.natAbs_value_lt x.bytes
  · cases h

/-! ## Operations on the stack -/

/-- The second stack has at most twice the items and the memory of the first, and a little more. -/
structure AtMostDoubles (s t : Stack) : Prop where
  length_le : t.length ≤ 2 * s.length + 1
  memory_le : memory t ≤ 2 * memory s + 64

namespace AtMostDoubles

theorem refl (s : Stack) : AtMostDoubles s s := ⟨by omega, by omega⟩

/-- Taking items off makes room. -/
theorem of_sublist {s t : Stack} (h : t.Sublist s) : AtMostDoubles s t := by
  have hlength := h.length_le
  have hmemory := memory_sublist h
  exact ⟨by omega, by omega⟩

/-- There is room for a short item, or for one like those that are there. -/
theorem push {s t : Stack} {x : Item} (hx : cost x ≤ memory s + 64) (h : t.Sublist s) :
    AtMostDoubles s (x :: t) := by
  have hlength := h.length_le
  have hmemory := memory_sublist h
  refine ⟨?_, ?_⟩
  · rw [List.length_cons]
    omega
  · rw [memory_cons]
    omega

end AtMostDoubles

theorem cost_ofBool_le (b : Bool) (p : Provenance) : cost (.ofBool b p) ≤ 33 := by
  have hsize := Item.size_ofBool_le b p
  rw [cost_eq]
  omega

/-- A truth value is short. -/
theorem ofBool_doubles {b : Bool} {p : Provenance} {s t : Stack} (h : t.Sublist s) :
    AtMostDoubles s (.ofBool b p :: t) := by
  have hcost := cost_ofBool_le b p
  exact .push (by omega) h

section Handlers

variable {flags : Flags} {s t : Stack}

theorem verify_doubles {op : Opcode} (h : verify op s = .ok t) : AtMostDoubles s t := by
  unfold verify at h
  split at h
  · cases h
  · rename_i x rest
    split at h
    · cases h
      exact .of_sublist (List.sublist_cons_self x _)
    · cases h

theorem moved_doubles {op : StackOp} (h : moved (op.apply s) = .ok t) : AtMostDoubles s t := by
  cases happly : op.apply s with
  | none => rw [happly] at h; cases h
  | some u =>
      rw [happly] at h
      cases h
      have htake : ∀ n, memory (s.take n) ≤ memory s :=
        fun n => memory_sublist (List.take_sublist n s)
      have hcut := fun n => memory_take_add_drop n s
      cases op with
      | drop n =>
          rw [eq_of_require happly]
          exact .of_sublist (List.drop_sublist n s)
      | dup n =>
          rw [eq_of_require happly]
          refine ⟨?_, ?_⟩
          · rw [List.length_append, List.length_take]
            omega
          · have hle := htake n
            rw [memory_append]
            omega
      | copyOver n =>
          rw [eq_of_require happly]
          have hle : memory ((s.drop n).take n) ≤ memory s :=
            memory_sublist ((List.take_sublist n _).trans (List.drop_sublist n s))
          refine ⟨?_, ?_⟩
          · rw [List.length_append, List.length_take, List.length_drop]
            omega
          · rw [memory_append]
            omega
      | rotate n =>
          rw [eq_of_require happly]
          have hthird := memory_take_add_drop n (s.drop (2 * n))
          rw [List.drop_drop] at hthird
          have hthree : 2 * n + n = 3 * n := by omega
          rw [hthree] at hthird
          have htwo := hcut (2 * n)
          refine ⟨?_, ?_⟩
          · simp only [List.length_append, List.length_take, List.length_drop]
            omega
          · rw [memory_append, memory_append]
            omega
      | swap n =>
          rw [eq_of_require happly]
          have hsecond := memory_take_add_drop n (s.drop n)
          rw [List.drop_drop] at hsecond
          have htwo : n + n = 2 * n := by omega
          rw [htwo] at hsecond
          have hone := hcut n
          refine ⟨?_, ?_⟩
          · simp only [List.length_append, List.length_take, List.length_drop]
            omega
          · rw [memory_append, memory_append]
            omega
      | nip =>
          match s, happly with
          | a :: b :: rest, happly =>
              cases happly
              exact .of_sublist ((List.sublist_cons_self b rest).cons_cons a)
      | tuck =>
          match s, happly with
          | a :: b :: rest, happly =>
              cases happly
              refine ⟨?_, ?_⟩
              · simp only [List.length_cons]
                omega
              · simp only [memory_cons]
                omega

theorem dupIfTrue_doubles (h : dupIfTrue s = .ok t) : AtMostDoubles s t := by
  unfold dupIfTrue at h
  split at h
  · cases h
  · rename_i x rest
    cases h
    split
    · have hcost := cost_le_memory (List.mem_cons_self (a := x) (l := rest))
      exact .push (by omega) (List.Sublist.refl _)
    · exact .refl _

theorem fetch_doubles {takeOut : Bool} (h : fetch flags takeOut s = .ok t) :
    AtMostDoubles s t := by
  unfold fetch at h
  split at h
  · cases h
  · rename_i index rest
    split at h
    · cases h
    · rename_i n hn
      split at h
      · cases h
      · split at h
        · cases h
        · rename_i x hx
          cases h
          have hcost := cost_le_memory (List.mem_of_getElem? hx)
          have hsame : cost (x.merge index.provenance) = cost x := rfl
          have hrest := memory_sublist (List.sublist_cons_self index rest)
          refine .push (by omega) ?_
          split
          · exact (List.eraseIdx_sublist rest n.toNat).trans (List.sublist_cons_self index rest)
          · exact List.sublist_cons_self index rest

theorem cat_doubles {limits : Limits} (h : cat limits s = .ok t) : AtMostDoubles s t := by
  unfold cat at h
  split at h
  · rename_i y x rest
    split at h
    · cases h
    · cases h
      have hsize : (({ x with data := x.data ++ y.data } : Item).merge y.provenance).size =
          x.size + y.size := ByteArray.size_append
      refine ⟨?_, ?_⟩
      · simp only [List.length_cons]
        omega
      · rw [memory_cons, memory_cons, memory_cons, cost_eq, cost_eq, cost_eq, hsize]
        omega
  · cases h

theorem split_doubles (h : split flags s = .ok t) : AtMostDoubles s t := by
  unfold Machine.split at h
  split at h
  · cases h
  · rename_i position rest
    split at h
    · cases h
    · split at h
      · cases h
      · rename_i n hn rest x below
        split at h
        · cases h
          have hleft : (x.data.extract 0 n.toNat).size ≤ x.size := by
            rw [ByteArray.size_extract]
            unfold Item.size
            omega
          have hright : (x.data.extract n.toNat x.size).size ≤ x.size := by
            rw [ByteArray.size_extract]
            unfold Item.size
            omega
          refine ⟨?_, ?_⟩
          · simp only [List.length_cons]
            omega
          · simp only [memory_cons, cost_eq, Item.size] at hleft hright ⊢
            omega
        · cases h

theorem binToNum_doubles {limits : Limits} (h : binToNum limits s = .ok t) :
    AtMostDoubles s t := by
  unfold binToNum at h
  split at h
  · cases h
  · rename_i x rest
    dsimp only at h
    split at h
    · cases h
    · cases h
      have hle : x.data.minimize.size ≤ x.size := Packed.size_minimize_le x.data
      have hcost := cost_le_memory (List.mem_cons_self (a := x) (l := rest))
      refine .push ?_ (List.sublist_cons_self x rest)
      rw [cost_eq] at hcost ⊢
      simp only [Item.size] at hcost hle ⊢
      omega

theorem size_doubles (h : size s = .ok t) : AtMostDoubles s t := by
  unfold size at h
  split at h
  · cases h
  · rename_i x rest
    cases h
    have hwidth := Number.width_le_succ x.size
    have hcost := cost_le_memory (List.mem_cons_self (a := x) (l := rest))
    refine .push ?_ (List.Sublist.refl _)
    rw [cost_eq] at hcost ⊢
    rw [Item.size_ofInt, Int.natAbs_natCast]
    omega

theorem invert_doubles (h : invert s = .ok t) : AtMostDoubles s t := by
  unfold invert at h
  split at h
  · cases h
  · rename_i x rest
    cases h
    have hcost := cost_le_memory (List.mem_cons_self (a := x) (l := rest))
    refine .push ?_ (List.sublist_cons_self x rest)
    rw [cost_eq] at hcost ⊢
    rw [size_withBytes, List.length_map, Item.length_bytes]
    omega

theorem bitwise_doubles {op : BitOp} (h : bitwise op s = .ok t) : AtMostDoubles s t := by
  unfold bitwise at h
  split at h
  · rename_i y x rest
    split at h
    · cases h
      have hcost := cost_le_memory (List.mem_cons_self (a := y) (l := x :: rest))
      refine .push ?_ ((List.sublist_cons_self x rest).trans (List.sublist_cons_self y _))
      rw [cost_eq] at hcost ⊢
      rw [Item.size_merge, size_withBytes, List.length_zipWith, Item.length_bytes,
        Item.length_bytes]
      omega
    · cases h
  · cases h

theorem equal_doubles (h : equal s = .ok t) : AtMostDoubles s t := by
  unfold equal at h
  split at h
  · rename_i y x rest
    cases h
    exact ofBool_doubles ((List.sublist_cons_self x rest).trans (List.sublist_cons_self y _))
  · cases h

theorem equalVerify_doubles (h : equalVerify s = .ok t) : AtMostDoubles s t := by
  unfold equalVerify at h
  split at h
  · rename_i y x rest
    split at h
    · cases h
      exact .of_sublist ((List.sublist_cons_self x _).trans (List.sublist_cons_self y _))
    · cases h
  · cases h

theorem unary_doubles {op : UnaryOp} (h : unary flags op s = .ok t) : AtMostDoubles s t := by
  unfold unary at h
  split at h
  · rename_i x rest
    split at h
    · rename_i a ha
      cases h
      have hwidth := Number.width_eval_le_succ op (natAbs_lt_signWeight_size ha)
      have hcost := cost_le_memory (List.mem_cons_self (a := x) (l := rest))
      refine .push ?_ (List.sublist_cons_self x rest)
      rw [cost_eq] at hcost ⊢
      rw [Item.size_ofInt]
      omega
    · cases h
  · cases h

theorem binary_doubles {op : BinaryOp} (h : binary flags op s = .ok t) : AtMostDoubles s t := by
  unfold binary at h
  split at h
  · rename_i y x rest
    have hsublist : rest.Sublist (y :: x :: rest) :=
      (List.sublist_cons_self x rest).trans (List.sublist_cons_self y _)
    split at h
    · rename_i a b hab
      obtain ⟨ha, hb⟩ := numbers_of_pair hab
      split at h
      · rename_i v hv
        cases h
        cases v with
        | int n =>
            have hwidth := Number.width_eval_le_add (natAbs_lt_signWeight_size ha)
              (natAbs_lt_signWeight_size hb) hv
            refine .push ?_ hsublist
            rw [Value.item, cost_eq, Item.size_ofInt, memory_cons, memory_cons, cost_eq, cost_eq]
            omega
        | bool b => exact ofBool_doubles hsublist
      · cases h
    · cases h
  · cases h

theorem numEqualVerify_doubles (h : numEqualVerify flags s = .ok t) : AtMostDoubles s t := by
  unfold numEqualVerify at h
  split at h
  · rename_i y x rest
    split at h
    · split at h
      · cases h
        exact .of_sublist ((List.sublist_cons_self x _).trans (List.sublist_cons_self y _))
      · cases h
    · cases h
  · cases h

theorem within_doubles (h : within flags s = .ok t) : AtMostDoubles s t := by
  unfold within at h
  split at h
  · rename_i high low x rest
    split at h
    · split at h
      · cases h
        exact ofBool_doubles (((List.sublist_cons_self x rest).trans
          (List.sublist_cons_self low _)).trans (List.sublist_cons_self high _))
      · cases h
    · cases h
  · cases h

theorem hash_doubles {op : HashOp} (h : hash op s = .ok t) : AtMostDoubles s t := by
  unfold hash at h
  split at h
  · cases h
  · rename_i x rest
    cases h
    have hlength := op.length_eval_le x.data
    refine .push ?_ (List.sublist_cons_self x rest)
    rw [cost_eq, size_withBytes]
    omega

theorem depth_doubles (s : Stack) : AtMostDoubles s (depth s) := by
  have hwidth := Number.width_le_succ s.length
  have hlength := length_le_memory s
  refine .push ?_ (List.Sublist.refl s)
  rw [cost_eq, Item.size_ofInt, Int.natAbs_natCast]
  omega

theorem Answered.doubles {rest : Stack} (h : Answered rest t) (hrest : rest.Sublist s) :
    AtMostDoubles s t := by
  rcases h with rfl | ⟨valid, p, rfl⟩
  · exact .of_sublist hrest
  · exact ofBool_doubles hrest

theorem numToBin_length_le {altStack : Stack} (h : numToBin flags altStack s = .ok t) :
    t.length ≤ s.length := by
  unfold numToBin at h
  split at h
  · cases h
  · split at h
    · cases h
    · split at h
      · cases h
      · split at h
        · cases h
        · split at h
          · cases h
          · dsimp only at h
            split at h
            · cases h
            · split at h
              · cases h
                exact Nat.le_succ _
              · cases h
                exact Nat.le_succ _

/-- A number is written with a given size only if the stacks have the memory for it. -/
theorem numToBin_memory_le (hg : flags.genesis = true) {altStack : Stack}
    (h : numToBin flags altStack s = .ok t) : memory t + memory altStack ≤ 100000000 := by
  unfold numToBin at h
  split at h
  · cases h
  · rename_i size rest
    split at h
    · cases h
    · rename_i n hn
      split at h
      · cases h
      · split at h
        · cases h
        · rename_i hreserve
          split at h
          · cases h
          · rename_i x below
            have hbound : 32 + n.toNat + memory below + memory altStack ≤ 100000000 := by
              simp only [reserve, Flags.limits, hg, if_true, Limits.lifted, memory_cons,
                List.take_succ_cons, List.take_zero, memory_nil, Limits.itemOverhead] at hreserve
              split at hreserve
              · cases hreserve
              · omega
            dsimp only at h
            split at h
            · cases h
            · split at h
              · rename_i hexact
                cases h
                rw [memory_cons, cost_eq, Item.size, hexact]
                omega
              · cases h
                rw [memory_cons, cost_eq, Item.size, Packed.size_widen (by omega)]
                omega

end Handlers

/-! ## All operations -/

/-- The items of both stacks. -/
def State.items (s : State) : Stack := s.stack ++ s.altStack

theorem State.memory_items (s : State) : Stack.memory s.items = s.memory := memory_append _ _

/-- What holds of one stack holds of both, if the other one stays. -/
theorem AtMostDoubles.append {s t : Stack} (h : AtMostDoubles s t) (other : Stack) :
    AtMostDoubles (s ++ other) (t ++ other) := by
  obtain ⟨hlength, hmemory⟩ := h
  refine ⟨?_, ?_⟩
  · rw [List.length_append, List.length_append]
    omega
  · rw [memory_append, memory_append]
    omega

theorem Dropped.sublist {flags : Flags} {op : Opcode} {reason : Reason} {s t : Stack}
    (h : Dropped flags op reason s t) : t.Sublist s := by
  cases h with
  | shift hop hcount hnonneg => exact List.nil_sublist _
  | single key sig rest =>
      exact (List.sublist_cons_self sig t).trans (List.sublist_cons_self key _)
  | multiple dummy rest hkeys hsigs =>
      exact (List.sublist_cons_self dummy t).trans (List.sublist_append_right _ _)

/-- A failure puts nothing on the stacks. -/
theorem items_sublist_of_fail {ctx : Context} {c : Chunk} {s t : State} {reason : Reason}
    (h : perform ctx c s = .fail reason t) : t.items.Sublist s.items := by
  obtain ⟨stack, k, calls, rfl, -, hdropped, hkept⟩ := perform_fail h
  apply List.Sublist.append_right
  by_cases hexempt : IsExempt ctx.flags c.opcode reason s.stack
  · exact (hdropped hexempt).sublist
  · have hsame : stack = s.stack := hkept hexempt
    simp [hsame]

section Operations

variable {ctx : Context} {c : Chunk} {s : State}

theorem withStack_doubles {r : Except Reason Stack}
    (h : ∀ stack, r = .ok stack → AtMostDoubles s.stack stack) :
    (s.withStack r).Ensures fun t => AtMostDoubles s.items t.items :=
  withStack_ensures fun stack hstack => (h stack hstack).append s.altStack

theorem shift_doubles (flags : Flags) (d : Direction) (s : State) :
    (shift flags d s).Ensures fun t => AtMostDoubles s.items t.items := by
  unfold shift
  split
  · trivial
  · rename_i count rest hstack
    split
    · trivial
    · split
      · trivial
      · split
        · trivial
        · rename_i n hn hneg x below
          refine AtMostDoubles.append (?_ : AtMostDoubles s.stack _) s.altStack
          rw [hstack]
          have hcost := cost_le_memory (List.mem_cons_of_mem count
            (List.mem_cons_self (a := x) (l := below)))
          refine .push ?_ ((List.sublist_cons_self x below).trans (List.sublist_cons_self count _))
          rw [cost_eq] at hcost ⊢
          rw [Item.size_merge, size_withBytes, Bytes.length_shift, Item.length_bytes]
          omega

theorem openBranch_doubles (negated : Bool) (s : State) :
    (openBranch negated s).Ensures fun t => AtMostDoubles s.items t.items := by
  unfold openBranch
  split
  · split
    · trivial
    · rename_i x rest hstack
      refine AtMostDoubles.append (?_ : AtMostDoubles s.stack rest) s.altStack
      rw [hstack]
      exact .of_sublist (List.sublist_cons_self x rest)
  · exact .refl _

/-- Moving an item from one stack to the other changes neither number nor memory. -/
theorem toAlt_doubles (s : State) :
    (toAlt s).Ensures fun t => AtMostDoubles s.items t.items := by
  unfold toAlt
  split
  · trivial
  · rename_i x rest hstack
    refine ⟨?_, ?_⟩
    · simp only [State.items, hstack, List.length_append, List.length_cons]
      omega
    · simp only [State.items, hstack, memory_append, memory_cons]
      omega

theorem fromAlt_doubles (s : State) :
    (fromAlt s).Ensures fun t => AtMostDoubles s.items t.items := by
  unfold fromAlt
  split
  · trivial
  · rename_i x rest haltStack
    refine ⟨?_, ?_⟩
    · simp only [State.items, haltStack, List.length_append, List.length_cons]
      omega
    · simp only [State.items, haltStack, memory_append, memory_cons]
      omega

theorem perform_doubles (hop : c.opcode.operation ≠ .numToBin) :
    (perform ctx c s).Ensures fun t => AtMostDoubles s.items t.items := by
  unfold perform
  cases hcase : c.opcode.operation with
  | bad => trivial
  | smallInt n =>
      have hnumber : n.natAbs < Number.signWeight 1 :=
        Nat.lt_of_le_of_lt (natAbs_le_of_smallInt hcase) (by decide)
      have hsize := Item.size_ofInt_le (p := .literal) (by omega) hnumber
      refine AtMostDoubles.append (.push ?_ (List.Sublist.refl _)) s.altStack
      rw [cost_eq]
      omega
  | nop => exact .refl _
  | upgradableNop =>
      apply Outcome.ensures_of_state
      dsimp only
      rw [upgradableNop_state]
      exact .refl _
  | lockTime =>
      obtain ⟨calls, hstate⟩ := lockTime_alike ctx c.opcode s
      apply Outcome.ensures_of_state
      dsimp only
      rw [hstate]
      exact .refl _
  | openBranch negated => exact openBranch_doubles negated s
  | turnBranch =>
      dsimp only [turnBranch]
      split
      · trivial
      · exact .refl _
  | closeBranch =>
      dsimp only [closeBranch]
      split
      · trivial
      · exact .refl _
  | verify => exact withStack_doubles fun _ => verify_doubles
  | exit =>
      dsimp only [exit]
      split
      · exact .refl _
      · trivial
  | toAlt => exact toAlt_doubles s
  | fromAlt => exact fromAlt_doubles s
  | stack op => exact withStack_doubles fun _ => moved_doubles
  | dupIfTrue => exact withStack_doubles fun _ => dupIfTrue_doubles
  | depth => exact (depth_doubles s.stack).append s.altStack
  | fetch takeOut => exact withStack_doubles fun _ => fetch_doubles
  | cat => exact withStack_doubles fun _ => cat_doubles
  | split => exact withStack_doubles fun _ => split_doubles
  | numToBin => exact absurd hcase hop
  | binToNum => exact withStack_doubles fun _ => binToNum_doubles
  | size => exact withStack_doubles fun _ => size_doubles
  | invert => exact withStack_doubles fun _ => invert_doubles
  | bitwise op => exact withStack_doubles fun _ => bitwise_doubles
  | equal => exact withStack_doubles fun _ => equal_doubles
  | equalVerify => exact withStack_doubles fun _ => equalVerify_doubles
  | shift d => exact shift_doubles ctx.flags d s
  | unary op => exact withStack_doubles fun _ => unary_doubles
  | binary op => exact withStack_doubles fun _ => binary_doubles
  | numEqualVerify => exact withStack_doubles fun _ => numEqualVerify_doubles
  | within => exact withStack_doubles fun _ => within_doubles
  | hash op => exact withStack_doubles fun _ => hash_doubles
  | codeSeparator => exact .refl _
  | checkSig required =>
      refine checkSig_ensures fun key sig rest stack calls hstack hanswer => ?_
      refine AtMostDoubles.append (hanswer.doubles ?_) s.altStack
      rw [hstack]
      exact (List.sublist_cons_self sig rest).trans (List.sublist_cons_self key _)
  | checkMultiSig required =>
      refine checkMultiSig_ensures fun keyCount operands stack calls _ _ hanswer => ?_
      exact AtMostDoubles.append (hanswer.doubles (List.drop_sublist operands s.stack)) s.altStack

theorem perform_length_le (ctx : Context) (c : Chunk) (s : State) :
    (perform ctx c s).Ensures fun t => t.items.length ≤ 2 * s.items.length + 1 := by
  by_cases hop : c.opcode.operation = .numToBin
  · simp only [perform, hop]
    refine withStack_ensures fun stack hstack => ?_
    have hle := numToBin_length_le hstack
    simp only [State.items, List.length_append]
    omega
  · exact (perform_doubles hop).mono fun t ht => ht.length_le

/-- However an operation ends, the memory is at most doubled beyond what the bound allows. -/
theorem perform_memory_le (hg : ctx.flags.genesis = true) {m : Nat} (hs : s.memory ≤ m)
    (hm : 100000000 ≤ m) : (perform ctx c s).state.memory ≤ 2 * m + 64 := by
  have hsuccess : (perform ctx c s).Ensures fun t => t.memory ≤ 2 * m + 64 := by
    by_cases hop : c.opcode.operation = .numToBin
    · simp only [perform, hop]
      refine withStack_ensures fun stack hstack => ?_
      have hle := numToBin_memory_le hg hstack
      show memory stack + memory s.altStack ≤ 2 * m + 64
      omega
    · refine (perform_doubles hop).mono fun t ht => ?_
      have hle := ht.memory_le
      rw [State.memory_items, State.memory_items] at hle
      omega
  cases hcase : perform ctx c s with
  | next t =>
      rw [hcase] at hsuccess
      exact hsuccess
  | done t =>
      rw [hcase] at hsuccess
      exact hsuccess
  | fail reason t =>
      have hle := memory_sublist (items_sublist_of_fail hcase)
      rw [State.memory_items, State.memory_items] at hle
      rw [Outcome.state_fail]
      omega

end Operations

end Machine

open Machine

/-- **Peak memory is bounded.** Once the limits are lifted, an operation on stacks within their
memory leaves at most twice that memory and 64 bytes more, before any check and whether it fails or
not. -/
theorem peak_memory_bounded {ctx : Context} (hg : ctx.flags.genesis = true) (c : Chunk) {s : State}
    (hs : s.memory ≤ 100000000) : (perform ctx c s).state.memory ≤ 2 * 100000000 + 64 :=
  perform_memory_le hg hs (Nat.le_refl _)

/-- Writing the number one with the largest size for which there is memory. -/
theorem peak_memory_of_widest_number :
    Machine.number { genesis := true } (.literal [0xe0, 0xe0, 0xf5, 0x05]) = .ok 99999968 ∧
      (perform ⟨{ genesis := true }, .absent, []⟩ ⟨⟨0x80⟩, none, 0⟩
        { stack := [.literal [0xe0, 0xe0, 0xf5, 0x05], .literal [0x01]] }).state.memory ≤
          200000064 :=
  ⟨rfl, peak_memory_bounded rfl _ (by decide)⟩

end BitcoinScript
