import BitcoinScript.Proofs.Machine.Below
import BitcoinScript.Proofs.Machine.Flow
import BitcoinScript.Proofs.Machine.PeakMemory

/-!
# Where the marks come from

An item is derived if something it was made from is. `Sources` says for every operation what the new
items are made from: an operation that computes makes them from all its operands (`Computes`), one
that fetches from the item fetched and from its index (`Fetches`), and a few push an item that is
made from nothing on the stack (`Pushes`). All others only move and copy items as they are
(`Moves`).

Only the number of items on the stack is derived without being made from anything derived. So a run
that never counts them and starts from literal items has nothing but literal items on its way
(`provenance_from_sources`).
-/

namespace BitcoinScript

namespace Stack

/-- All items are literal. -/
def AllLiteral (s : Stack) : Prop := ∀ x ∈ s, x.provenance = .literal

theorem provenance_eq_literal_iff {s : Stack} : provenance s = .literal ↔ s.AllLiteral := by
  induction s with
  | nil => exact ⟨fun _ => List.forall_mem_nil _, fun _ => rfl⟩
  | cons x rest ih =>
      rw [provenance_cons, Provenance.union_eq_literal_iff, ih, AllLiteral, AllLiteral,
        List.forall_mem_cons]

variable {s t : Stack}

theorem allLiteral_append : AllLiteral (s ++ t) ↔ s.AllLiteral ∧ t.AllLiteral :=
  List.forall_mem_append

theorem Made.allLiteral {k : Nat} {p : Provenance} (h : Made k p s) (hp : p = .literal) :
    s.AllLiteral := fun x hx => (h.2 x hx).trans hp

end Stack

namespace Machine

/-! ## What new items are made from -/

section Sources

variable (s t : State)

/-- The operands on top give way to `k` items that are as derived as all the operands together. -/
def Computes (operands : Stack) (k : Nat) : Prop :=
  ∃ new rest, s.stack = operands ++ rest ∧ t.stack = new ++ rest ∧ t.altStack = s.altStack ∧
    Stack.Made k (Stack.provenance operands) new

/-- The top `n` items give way to `k` items that are as derived as all of them together. -/
def ComputesFrom (n k : Nat) : Prop := ∃ operands, operands.length = n ∧ Computes s t operands k

/-- An item is put above the top one, and is as derived as that. -/
def Measures : Prop :=
  ∃ x new rest, s.stack = x :: rest ∧ t.stack = new :: x :: rest ∧ t.altStack = s.altStack ∧
    new.provenance = x.provenance

/-- The item to which the index on top points is put in the place of the index. It stays what it
was, but becomes as derived as it and the index together. -/
def Fetches (flags : Flags) (takeOut : Bool) : Prop :=
  ∃ index rest, ∃ n : Nat, ∃ x, s.stack = index :: rest ∧ number flags index = .ok (n : Int) ∧
    rest[n]? = some x ∧ t.altStack = s.altStack ∧
    t.stack = { x with provenance := x.provenance.union index.provenance } ::
      (if takeOut then rest.eraseIdx n else rest)

/-- The keys and the signatures with both their numbers and the item below give way to `k` items
that are as derived as all of them together. -/
def ComputesFromKeys (flags : Flags) (k : Nat) : Prop :=
  ∃ keyCount keys sigCount sigs dummy, number flags keyCount = .ok (List.length keys : Int) ∧
    number flags sigCount = .ok (List.length sigs : Int) ∧
    Computes s t (keyCount :: keys ++ sigCount :: sigs ++ [dummy]) k

/-- An item of the provenance `p` is put on top. -/
def Pushes (p : Provenance) : Prop :=
  ∃ x, x.provenance = p ∧ t.stack = x :: s.stack ∧ t.altStack = s.altStack

/-- Every item there is was there before, with the same provenance. -/
def Moves : Prop := ∀ x ∈ t.items, x ∈ s.items

/-- What the new items are made from that an operation puts on the stacks. -/
def Sources (flags : Flags) : Operation → Prop
  | .cat => ComputesFrom s t 2 1
  | .split => ComputesFrom s t 2 2
  | .numToBin => ComputesFrom s t 2 1
  | .binToNum => ComputesFrom s t 1 1
  | .size => Measures s t
  | .invert => ComputesFrom s t 1 1
  | .bitwise _ => ComputesFrom s t 2 1
  | .equal => ComputesFrom s t 2 1
  | .shift _ => ComputesFrom s t 2 1
  | .unary _ => ComputesFrom s t 1 1
  | .binary _ => ComputesFrom s t 2 1
  | .within => ComputesFrom s t 3 1
  | .hash _ => ComputesFrom s t 1 1
  | .checkSig false => ComputesFrom s t 2 1
  | .checkMultiSig false => ComputesFromKeys s t flags 1
  | .fetch takeOut => Fetches s t flags takeOut
  | .smallInt _ => Pushes s t .literal
  | .depth => Pushes s t .derived
  | _ => Moves s t

end Sources

variable {s t : State}

/-! ## Moves -/

theorem Moves.refl (s : State) : Moves s s := fun _ hx => hx

theorem Moves.of_eq (hstack : t.stack = s.stack) (halt : t.altStack = s.altStack) :
    Moves s t := by
  intro x hx
  rwa [State.items, hstack, halt] at hx

/-- A stack of old items in place of the old stack. -/
theorem moves_withStack {stack : Stack} (h : ∀ x ∈ stack, x ∈ s.stack) :
    Moves s { s with stack := stack } := by
  intro x hx
  rcases List.mem_append.mp hx with hx | hx
  · exact List.mem_append_left _ (h x hx)
  · exact List.mem_append_right _ hx

theorem withStack_moves {r : Except Reason Stack}
    (h : ∀ stack, r = .ok stack → ∀ x ∈ stack, x ∈ s.stack) :
    (s.withStack r).Ensures (Moves s) :=
  withStack_ensures fun stack hstack => moves_withStack (h stack hstack)

/-- An operation without results only takes items off. -/
theorem Computes.moves {operands : Stack} (h : Computes s t operands 0) : Moves s t := by
  obtain ⟨new, rest, hs, ht, halt, hmade⟩ := h
  have hnone : new = [] := List.length_eq_zero_iff.mp hmade.1
  intro x hx
  rw [State.items, ht, hnone, List.nil_append, halt] at hx
  rw [State.items, hs, List.append_assoc]
  exact List.mem_append_right operands hx

theorem ComputesFrom.moves {n : Nat} (h : ComputesFrom s t n 0) : Moves s t := by
  obtain ⟨operands, -, hcomputes⟩ := h
  exact hcomputes.moves

/-- Moves and copies go by the places of items, and so lead from a stack to items of it. -/
theorem mem_of_moved {op : StackOp} {a b : Stack} (h : moved (op.apply a) = .ok b) :
    ∀ x ∈ b, x ∈ a := by
  have hown : List.Forall₂ (fun x _ => x ∈ a) a a := List.forall₂_same.mpr fun x hx => hx
  have hpaired := moved_paired op hown
  rw [h] at hpaired
  cases hpaired with
  | ok hb => exact fun x hx => List.forall₂_same.mp hb x hx

theorem mem_of_dupIfTrue {a b : Stack} (h : dupIfTrue a = .ok b) : ∀ x ∈ b, x ∈ a := by
  cases a with
  | nil => cases h
  | cons y rest =>
      simp only [dupIfTrue] at h
      split at h
      · cases h
        intro x hx
        rcases List.mem_cons.mp hx with rfl | hx
        · exact List.mem_cons_self
        · exact hx
      · cases h
        exact fun x hx => hx

theorem openBranch_moves (negated : Bool) (s : State) :
    (openBranch negated s).Ensures (Moves s) := by
  unfold openBranch
  split
  · split
    · trivial
    · rename_i x rest hstack
      intro y hy
      rw [State.items, hstack]
      exact List.mem_cons_of_mem x hy
  · exact .refl s

theorem toAlt_moves (s : State) : (toAlt s).Ensures (Moves s) := by
  unfold toAlt
  split
  · trivial
  · rename_i x rest hstack
    intro y hy
    rw [State.items, hstack]
    simpa [State.items, or_left_comm] using hy

theorem fromAlt_moves (s : State) : (fromAlt s).Ensures (Moves s) := by
  unfold fromAlt
  split
  · trivial
  · rename_i x rest haltStack
    intro y hy
    rw [State.items, haltStack]
    simpa [State.items, or_left_comm] using hy

/-! ## Results of operands -/

section Computing

variable {ctx : Context} {c : Chunk} {n k : Nat} {op : Stack → Except Reason Stack}

theorem computesFrom_of_replaces (hreplaces : Replaces n k op) (hperforms : PerformsBy ctx c op)
    (s : State) : (perform ctx c s).Ensures fun t => ComputesFrom s t n k := by
  rcases hperforms s with ⟨stack, hstack, hnext⟩ | ⟨reason, u, hfail, -⟩
  · obtain ⟨operands, rest, new, hs, rfl, hlength, hnew⟩ := hreplaces.exists_of_ok hstack
    rw [hnext]
    exact ⟨operands, hlength, new, rest, hs, rfl, rfl, hreplaces.made operands new hlength hnew⟩
  · rw [hfail]
    trivial

end Computing

theorem size_measures (s : State) : (s.withStack (size s.stack)).Ensures (Measures s) := by
  refine withStack_ensures fun stack hstack => ?_
  cases hs : s.stack with
  | nil =>
      rw [hs] at hstack
      cases hstack
  | cons x rest =>
      rw [hs] at hstack
      cases hstack
      exact ⟨x, _, rest, hs, rfl, rfl, rfl⟩

theorem fetch_fetches (flags : Flags) (takeOut : Bool) (s : State) :
    (s.withStack (fetch flags takeOut s.stack)).Ensures fun t => Fetches s t flags takeOut := by
  refine withStack_ensures fun stack hstack => ?_
  cases hs : s.stack with
  | nil =>
      rw [hs] at hstack
      cases hstack
  | cons index rest =>
      rw [hs] at hstack
      simp only [fetch] at hstack
      split at hstack
      · cases hstack
      · rename_i n hn
        split at hstack
        · cases hstack
        · rename_i hnonneg
          split at hstack
          · cases hstack
          · rename_i x hx
            cases hstack
            refine ⟨index, rest, n.toNat, x, hs, ?_, hx, rfl, rfl⟩
            rw [hn, Int.toNat_of_nonneg (Int.not_lt.mp hnonneg)]

/-! ## Signature checks -/

/-- The number of answers that a check pushes. -/
def answers (required : Bool) : Nat := if required then 0 else 1

theorem conclude_computes {op : Opcode} {required valid : Bool} {operands rest : Stack}
    {asked : State} (hs : s.stack = operands ++ rest) (halt : asked.altStack = s.altStack) :
    (conclude op required valid (Stack.provenance operands) rest asked).Ensures fun t =>
      Computes s t operands (answers required) := by
  cases required with
  | false => exact ⟨[_], rest, hs, rfl, halt, Stack.made_one rfl⟩
  | true =>
      cases valid with
      | false => trivial
      | true => exact ⟨[], rest, hs, rfl, halt, Stack.made_nil⟩

theorem checkSig_computes (ctx : Context) (required : Bool) (s : State) :
    (checkSig ctx required s).Ensures fun t => ComputesFrom s t 2 (answers required) := by
  unfold checkSig
  split
  · rename_i key sig rest hstack
    split
    · trivial
    · rename_i valid asked hpair
      obtain ⟨calls, rfl⟩ := checkPair_alike hpair
      have hunion : sig.provenance.union key.provenance = Stack.provenance [key, sig] := by
        rw [Stack.provenance_cons, Stack.provenance_cons, Provenance.union_comm]
        exact congrArg _ (Provenance.union_literal _).symm
      have hcut : s.stack = [key, sig] ++ rest := hstack
      rw [hunion]
      apply (conclude_computes hcut (by rfl)).mono
      exact fun t ht => ⟨[key, sig], rfl, ht⟩
  · trivial

theorem checkMultiSig_computes (ctx : Context) (required : Bool) (s : State) :
    (checkMultiSig ctx required s).Ensures fun t =>
      ComputesFromKeys s t ctx.flags (answers required) := by
  unfold checkMultiSig
  split
  · trivial
  · rename_i keyCount hkeys
    dsimp only
    split
    · trivial
    · split
      · trivial
      · rename_i sigCount hsigs
        split
        · trivial
        · rename_i dummy hdummy
          split
          · trivial
          · rename_i valid asked hmatch
            obtain ⟨calls, rfl⟩ := matchKeys_alike hmatch
            split
            · trivial
            · obtain ⟨n, keys, m, sigs, hn, hm, rfl, rfl, -, hstack⟩ :=
                operands_of_countAt hkeys hsigs hdummy
              have hcut : s.stack = (n :: keys ++ m :: sigs ++ [dummy]) ++
                  s.stack.drop (keys.length + sigs.length + 3) := by
                rw [List.append_assoc]
                exact hstack
              have hlength : (n :: keys ++ m :: sigs ++ [dummy]).length =
                  keys.length + sigs.length + 3 := by
                simp only [List.length_append, List.length_cons, List.length_nil]
                omega
              have htake : s.stack.take (keys.length + sigs.length + 3) =
                  n :: keys ++ m :: sigs ++ [dummy] := by
                rw [hcut]
                exact List.take_left' hlength
              rw [htake]
              apply (conclude_computes hcut (by rfl)).mono
              exact fun t ht => ⟨n, keys, m, sigs, dummy, hn, hm, ht⟩

theorem ComputesFromKeys.moves {flags : Flags} (h : ComputesFromKeys s t flags 0) :
    Moves s t := by
  obtain ⟨n, keys, m, sigs, dummy, -, -, hcomputes⟩ := h
  exact hcomputes.moves

/-! ## All operations -/

section Operations

variable {ctx : Context} {c : Chunk}

/-- What an operation on operands puts in their place is made from all of them. -/
theorem replacing_sources (hc : isReplacing c.opcode.operation = true) (s : State) :
    (perform ctx c s).Ensures fun t => Sources s t ctx.flags c.opcode.operation := by
  have hplain : ∀ {n k op}, Replaces n k op → (∀ u, perform ctx c u = u.withStack (op u.stack)) →
      (perform ctx c s).Ensures fun t => ComputesFrom s t n k :=
    fun hreplaces h => computesFrom_of_replaces hreplaces (performsBy_of_withStack h) s
  cases hop : c.opcode.operation with
  | shift d =>
      exact computesFrom_of_replaces (shifted_replaces ctx.flags d) (performsBy_shifted hop) s
  | numToBin =>
      exact computesFrom_of_replaces (resize_replaces ctx.flags) (performsBy_resize hop) s
  | size =>
      have hperform : perform ctx c s = s.withStack (size s.stack) := by simp only [perform, hop]
      rw [hperform]
      exact size_measures s
  | verify =>
      have hcomputes := hplain (verify_replaces c.opcode) fun u => by simp only [perform, hop]
      exact hcomputes.mono fun t ht => ht.moves
  | equalVerify =>
      have hcomputes := hplain equalVerify_replaces fun u => by simp only [perform, hop]
      exact hcomputes.mono fun t ht => ht.moves
  | numEqualVerify =>
      have hcomputes := hplain (numEqualVerify_replaces ctx.flags) fun u => by
        simp only [perform, hop]
      exact hcomputes.mono fun t ht => ht.moves
  | cat => exact hplain (cat_replaces ctx.limits) fun u => by simp only [perform, hop]
  | split => exact hplain (split_replaces ctx.flags) fun u => by simp only [perform, hop]
  | binToNum => exact hplain (binToNum_replaces ctx.limits) fun u => by simp only [perform, hop]
  | invert => exact hplain invert_replaces fun u => by simp only [perform, hop]
  | bitwise op => exact hplain (bitwise_replaces op) fun u => by simp only [perform, hop]
  | equal => exact hplain equal_replaces fun u => by simp only [perform, hop]
  | unary op => exact hplain (unary_replaces ctx.flags op) fun u => by simp only [perform, hop]
  | binary op => exact hplain (binary_replaces ctx.flags op) fun u => by simp only [perform, hop]
  | within => exact hplain (within_replaces ctx.flags) fun u => by simp only [perform, hop]
  | hash op => exact hplain (hash_replaces op) fun u => by simp only [perform, hop]
  | _ => rw [hop] at hc; cases hc

/-- Every operation that succeeds makes its items from what the table says. -/
theorem perform_sources (ctx : Context) (c : Chunk) (s : State) :
    (perform ctx c s).Ensures fun t => Sources s t ctx.flags c.opcode.operation := by
  cases hreplacing : isReplacing c.opcode.operation with
  | true => exact replacing_sources hreplacing s
  | false =>
      unfold perform
      cases hop : c.opcode.operation with
      | bad => trivial
      | smallInt n => exact ⟨_, rfl, rfl, rfl⟩
      | depth => exact ⟨_, rfl, rfl, rfl⟩
      | nop => exact .refl s
      | codeSeparator => exact .of_eq rfl rfl
      | upgradableNop =>
          apply Outcome.ensures_of_state
          dsimp only
          rw [upgradableNop_state]
          exact .refl s
      | lockTime =>
          apply Outcome.ensures_of_state
          obtain ⟨calls, hstate⟩ := lockTime_alike ctx c.opcode s
          dsimp only
          rw [hstate]
          exact .of_eq rfl rfl
      | openBranch negated => exact openBranch_moves negated s
      | turnBranch =>
          dsimp only [turnBranch]
          split
          · trivial
          · exact .of_eq rfl rfl
      | closeBranch =>
          dsimp only [closeBranch]
          split
          · trivial
          · exact .of_eq rfl rfl
      | exit =>
          dsimp only [exit]
          split
          · exact .refl s
          · trivial
      | toAlt => exact toAlt_moves s
      | fromAlt => exact fromAlt_moves s
      | stack op => exact withStack_moves fun _ => mem_of_moved
      | dupIfTrue => exact withStack_moves fun _ => mem_of_dupIfTrue
      | fetch takeOut => exact fetch_fetches ctx.flags takeOut s
      | checkSig required =>
          have hcomputes := checkSig_computes ctx required s
          cases required with
          | false => exact hcomputes
          | true => exact hcomputes.mono fun t ht => ht.moves
      | checkMultiSig required =>
          have hcomputes := checkMultiSig_computes ctx required s
          cases required with
          | false => exact hcomputes
          | true => exact hcomputes.mono fun t ht => ht.moves
      | _ => rw [hop] at hreplacing; cases hreplacing

end Operations

/-! ## Literal items -/

section Literal

variable {flags : Flags} {op : Operation}

theorem Computes.allLiteral {operands : Stack} {k : Nat} (h : Computes s t operands k)
    (hs : s.items.AllLiteral) : t.items.AllLiteral := by
  obtain ⟨new, rest, hstack, ht, halt, hmade⟩ := h
  rw [State.items, hstack, Stack.allLiteral_append, Stack.allLiteral_append] at hs
  obtain ⟨⟨hoperands, hrest⟩, haltStack⟩ := hs
  have hnew := hmade.allLiteral (Stack.provenance_eq_literal_iff.mpr hoperands)
  rw [State.items, ht, halt, Stack.allLiteral_append, Stack.allLiteral_append]
  exact ⟨⟨hnew, hrest⟩, haltStack⟩

/-- One item more, or one in the place of another. -/
theorem allLiteral_of_top {x : Item} {rest : Stack} (ht : t.stack = x :: rest)
    (halt : t.altStack = s.altStack) (hs : s.items.AllLiteral) (hx : x.provenance = .literal)
    (hrest : ∀ y ∈ rest, y ∈ s.stack) : t.items.AllLiteral := by
  rw [State.items, Stack.allLiteral_append] at hs
  rw [State.items, ht, halt, Stack.allLiteral_append]
  refine ⟨?_, hs.2⟩
  intro y hy
  rcases List.mem_cons.mp hy with rfl | hy
  · exact hx
  · exact hs.1 y (hrest y hy)

theorem Measures.allLiteral (h : Measures s t) (hs : s.items.AllLiteral) :
    t.items.AllLiteral := by
  obtain ⟨x, new, rest, hstack, ht, halt, hnew⟩ := h
  have hx : x.provenance = .literal := hs x (by simp [State.items, hstack])
  refine allLiteral_of_top ht halt hs (hnew.trans hx) ?_
  rw [hstack]
  exact fun y hy => hy

theorem Fetches.allLiteral {takeOut : Bool} (h : Fetches s t flags takeOut)
    (hs : s.items.AllLiteral) : t.items.AllLiteral := by
  obtain ⟨index, rest, n, x, hstack, -, hx, halt, ht⟩ := h
  have hindex : index.provenance = .literal := hs index (by simp [State.items, hstack])
  have hmem : x ∈ rest := List.mem_of_getElem? hx
  have hfetched : x.provenance = .literal := hs x (by simp [State.items, hstack, hmem])
  refine allLiteral_of_top ht halt hs (Provenance.union_eq_literal_iff.mpr ⟨hfetched, hindex⟩) ?_
  intro y hy
  rw [hstack]
  cases takeOut with
  | false => exact List.mem_cons_of_mem index hy
  | true => exact List.mem_cons_of_mem index (List.mem_of_mem_eraseIdx hy)

theorem Pushes.allLiteral (h : Pushes s t .literal) (hs : s.items.AllLiteral) :
    t.items.AllLiteral := by
  obtain ⟨x, hx, ht, halt⟩ := h
  exact allLiteral_of_top ht halt hs hx fun y hy => hy

theorem Moves.allLiteral (h : Moves s t) (hs : s.items.AllLiteral) : t.items.AllLiteral :=
  fun x hx => hs x (h x hx)

/-- Only the number of items is derived without being made from anything derived. -/
theorem Sources.allLiteral (h : Sources s t flags op) (hop : op ≠ .depth)
    (hs : s.items.AllLiteral) : t.items.AllLiteral := by
  have hfrom : ∀ {n k}, ComputesFrom s t n k → t.items.AllLiteral := by
    rintro n k ⟨operands, -, hcomputes⟩
    exact hcomputes.allLiteral hs
  cases op with
  | depth => exact absurd rfl hop
  | cat => exact hfrom h
  | split => exact hfrom h
  | numToBin => exact hfrom h
  | binToNum => exact hfrom h
  | invert => exact hfrom h
  | bitwise op => exact hfrom h
  | equal => exact hfrom h
  | shift d => exact hfrom h
  | unary op => exact hfrom h
  | binary op => exact hfrom h
  | within => exact hfrom h
  | hash op => exact hfrom h
  | size => exact Measures.allLiteral h hs
  | fetch takeOut => exact Fetches.allLiteral h hs
  | smallInt n => exact Pushes.allLiteral h hs
  | checkSig required =>
      cases required with
      | false => exact hfrom h
      | true => exact Moves.allLiteral h hs
  | checkMultiSig required =>
      cases required with
      | false =>
          obtain ⟨n, keys, m, sigs, dummy, -, -, hcomputes⟩ := h
          exact hcomputes.allLiteral hs
      | true => exact Moves.allLiteral h hs
  | _ => exact Moves.allLiteral h hs

end Literal

/-! ## Runs -/

section Runs

variable {ctx : Context} {c : Chunk}

theorem perform_allLiteral (hop : c.opcode.operation ≠ .depth) (hs : s.items.AllLiteral) :
    (perform ctx c s).state.items.AllLiteral := by
  have hsources := perform_sources ctx c s
  cases hcase : perform ctx c s with
  | next t =>
      rw [hcase] at hsources
      exact Sources.allLiteral hsources hop hs
  | done t =>
      rw [hcase] at hsources
      exact Sources.allLiteral hsources hop hs
  | fail reason t =>
      intro x hx
      exact hs x ((items_sublist_of_fail hcase).subset hx)

theorem execute_allLiteral (hop : c.payload = none → s.executing = true →
    c.opcode.operation ≠ .depth) (hs : s.items.AllLiteral) :
    (execute ctx c s).state.items.AllLiteral := by
  unfold execute
  split
  · split
    · split
      · exact hs
      · rename_i data hpayload hexecuting hminimal
        exact Pushes.allLiteral ⟨.literal data, rfl, rfl, rfl⟩ hs
    · exact hs
  · rename_i hpayload
    split
    · rename_i hperformed
      refine perform_allLiteral ?_ hs
      intro hdepth
      -- the number of items is no conditional, and so not performed in skipped code
      have hexecuting : s.executing = true := by
        rw [isPerformed, Opcode.eq_depth_of_operation hdepth, Bool.or_eq_true] at hperformed
        exact hperformed.resolve_right (by decide)
      exact hop hpayload hexecuting hdepth
    · exact hs

theorem counted_items (c : Chunk) (s : State) : (counted c s).items = s.items := by
  rw [State.items, State.items, counted_stack, counted_altStack]

/-- However a step ends, it leaves literal items only, unless it counts the items. -/
theorem step_allLiteral {cs : List Chunk} {start : State} {n : Nat}
    (hreach : Reaches ctx cs start n c s) (hdepth : Executes ctx cs start n c s → c.opcode ≠ .depth)
    (hs : s.items.AllLiteral) : (step ctx c s).state.items.AllLiteral := by
  unfold step
  split
  · rename_i reason t ht
    rcases state_of_accept_error ht with rfl | rfl
    · exact hs
    · rw [← counted_items c s] at hs
      exact hs
  · rename_i t ht
    obtain ⟨-, -, -, rfl⟩ := accept_eq_ok_iff.mp ht
    rw [← counted_items c s] at hs
    rw [bounded_state]
    refine execute_allLiteral ?_ hs
    intro hpayload hexecuting hop
    have hexecutes : Executes ctx cs start n c s :=
      ⟨hreach, hpayload, (counted_executing c s).symm.trans hexecuting, ht⟩
    exact hdepth hexecutes (Opcode.eq_depth_of_operation hop)

end Runs

end Machine

open Machine

/-- **Marks are the union of what was read.** Every operation that succeeds, in any state, makes its
items from what the table `Sources` says. Hence a run from literal items that executes no `OP_DEPTH`
has only literal items on both stacks, in every state on its way and in the last one. -/
theorem provenance_from_sources (ctx : Context) (cs : List Chunk) (start : State) :
    (∀ c s, (perform ctx c s).Ensures fun t => Sources s t ctx.flags c.opcode.operation) ∧
      (start.items.AllLiteral →
        (∀ n c s, Executes ctx cs start n c s → c.opcode ≠ .depth) →
          (∀ n s, after? ctx (cs.take n) start = some s → s.items.AllLiteral) ∧
            (run ctx cs start).state.items.AllLiteral) := by
  refine ⟨perform_sources ctx, ?_⟩
  intro hstart hdepth
  have hway : ∀ n s, after? ctx (cs.take n) start = some s → s.items.AllLiteral := by
    intro n s h
    refine after?_invariant_of_reaches (P := fun s => s.items.AllLiteral) hstart ?_ h
    exact fun n c s hreach hs =>
      Outcome.ensures_of_state (step_allLiteral hreach (hdepth n c s) hs)
  refine ⟨hway, ?_⟩
  rcases run_state_cases ctx cs start with hend | ⟨n, c, s, hreach, hstate⟩
  · exact hway cs.length _ (by rwa [List.take_length])
  · rw [hstate]
    exact step_allLiteral hreach (hdepth n c s) (hway n s hreach.2)

/-- The chunks of `DUP 1 NOTIF DEPTH ENDIF ADD`. -/
def doubled : List Chunk :=
  [⟨⟨0x76⟩, none, 0⟩, ⟨.one, none, 1⟩, ⟨.ifFalse, none, 2⟩, ⟨.depth, none, 3⟩, ⟨.endIf, none, 4⟩,
    ⟨⟨0x93⟩, none, 5⟩]

/-- A literal number is doubled, and stays literal: the items are counted only in a branch that is
skipped. -/
theorem provenance_of_doubled :
    Stack.AllLiteral [.literal [3]] ∧
      (∀ n c s, Executes ⟨{}, .absent, []⟩ doubled { stack := [.literal [3]] } n c s →
        c.opcode ≠ .depth) ∧
      (run ⟨{}, .absent, []⟩ doubled { stack := [.literal [3]] }).state.items =
        [.ofInt 6 .literal] ∧
      Stack.AllLiteral
        (run ⟨{}, .absent, []⟩ doubled { stack := [.literal [3]] }).state.items := by
  have hliteral : Stack.AllLiteral [.literal [3]] := List.forall_mem_singleton.mpr rfl
  have hdepth : ∀ n c s, Executes ⟨{}, .absent, []⟩ doubled { stack := [.literal [3]] } n c s →
      c.opcode ≠ .depth := by
    rintro n c s ⟨⟨hc, hs⟩, -, hexecuting, -⟩ hop
    -- the operation has index three, and is reached inside the branch
    have hindex : ∀ i : Fin 6, (doubled.get i).opcode = .depth → i = 3 := by decide
    obtain ⟨hlt, rfl⟩ := List.getElem?_eq_some_iff.mp hc
    obtain rfl : n = 3 := congrArg Fin.val (hindex ⟨n, hlt⟩ hop)
    have hskipped : after? ⟨{}, .absent, []⟩ (doubled.take 3) { stack := [.literal [3]] } =
        some { stack := [.literal [3], .literal [3]], branches := [false], opCount := 2 } := rfl
    rw [hskipped, Option.some.injEq] at hs
    rw [← hs] at hexecuting
    cases hexecuting
  refine ⟨hliteral, hdepth, rfl, ?_⟩
  exact ((provenance_from_sources ⟨{}, .absent, []⟩ doubled { stack := [.literal [3]] }).2
    hliteral hdepth).2

end BitcoinScript
