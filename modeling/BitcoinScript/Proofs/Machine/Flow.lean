import BitcoinScript.Proofs.Machine.Branches
import BitcoinScript.Proofs.Machine.Failures
import BitcoinScript.Proofs.Machine.Marks

/-!
# The flow of derived values

Take two stacks that agree in the provenance of all items and in the bytes of literal ones, while
derived items may differ. An operation that replaces its operands marks the results as derived
unless all operands are literal, and then these have the same bytes in both stacks. So the stacks
left agree in the same way, and no literal item depends on what was derived
(`literals_independent`).

That is not so of operations whose operands steer what becomes of other items
(`Opcode.steering`): conditionals, the fetching of an item out of its place, and checks of several
signatures, which take a number of items off that they read from the stack.
-/

namespace BitcoinScript

/-! ## Agreement of items -/

namespace Provenance

variable {p q : Provenance}

theorem union_eq_literal_iff : p.union q = .literal ↔ p = .literal ∧ q = .literal := by
  cases p <;> cases q <;> decide

theorem eq_derived_of_ne_literal (h : p ≠ .literal) : p = .derived := by
  cases p with
  | literal => exact absurd rfl h
  | derived => rfl

end Provenance

/-- The items have one provenance, and the same bytes if they are literal. -/
structure Item.Agrees (x y : Item) : Prop where
  provenance : x.provenance = y.provenance
  bytes : x.provenance = .literal → x.SameBytes y

namespace Item.Agrees

variable {x y : Item}

theorem of_derived (hx : x.provenance = .derived) (hy : y.provenance = .derived) :
    x.Agrees y where
  provenance := hx.trans hy.symm
  bytes := by
    intro hliteral
    rw [hx] at hliteral
    cases hliteral

theorem refl (x : Item) : x.Agrees x := ⟨rfl, fun _ => rfl⟩

theorem merge (h : x.Agrees y) (p : Provenance) : (x.merge p).Agrees (y.merge p) where
  provenance := congrArg (·.union p) h.provenance
  bytes := by
    intro hliteral
    exact h.bytes (Provenance.union_eq_literal_iff.mp hliteral).1

end Item.Agrees

namespace Stack

theorem foldl_union (s : Stack) (p : Provenance) :
    s.foldl (fun q x => q.union x.provenance) p = p.union (provenance s) := by
  induction s generalizing p with
  | nil => exact (Provenance.union_literal p).symm
  | cons x rest ih =>
      rw [provenance, List.foldl_cons, List.foldl_cons, ih, ih, Provenance.literal_union,
        Provenance.union_assoc]

theorem provenance_cons (x : Item) (s : Stack) :
    provenance (x :: s) = x.provenance.union (provenance s) := by
  rw [provenance, List.foldl_cons, foldl_union, Provenance.literal_union]

variable {s t : Stack}

theorem provenance_eq_of_agrees (h : List.Forall₂ Item.Agrees s t) :
    provenance s = provenance t := by
  induction h with
  | nil => rfl
  | cons hx hrest ih => rw [provenance_cons, provenance_cons, ih, hx.provenance]

/-- Literal items that agree have the same bytes. -/
theorem sameBytes_of_agrees (h : List.Forall₂ Item.Agrees s t)
    (hliteral : provenance s = .literal) : List.Forall₂ Item.SameBytes s t := by
  induction h with
  | nil => exact .nil
  | cons hx hrest ih =>
      rw [provenance_cons, Provenance.union_eq_literal_iff] at hliteral
      exact .cons (hx.bytes hliteral.1) (ih hliteral.2)

/-- New items agree if they are derived, or have the same bytes. -/
theorem Made.agrees {k : Nat} {p : Provenance} (hs : Made k p s) (ht : Made k p t)
    (hbytes : p = .literal → List.Forall₂ Item.SameBytes s t) : List.Forall₂ Item.Agrees s t := by
  refine List.forall₂_iff_zip.mpr ⟨hs.1.trans ht.1.symm, ?_⟩
  intro x y hxy
  have hmem := List.of_mem_zip hxy
  have hx : x.provenance = p := hs.2 x hmem.1
  have hy : y.provenance = p := ht.2 y hmem.2
  refine ⟨hx.trans hy.symm, ?_⟩
  intro hliteral
  exact List.forall₂_zip (hbytes (hx.symm.trans hliteral)) hxy

end Stack

namespace Machine

/-- The states agree in all but derived items and the questions asked. -/
abbrev Agree : State → State → Prop := State.Related Item.Agrees fun _ _ => True

/-- Any reason to fail. -/
def AnyReason (_ : Reason) : Prop := True

/-! ## Operations on operands -/

section Operands

variable {ctx : Context} {c : Chunk} {n k : Nat} {op : Stack → Except Reason Stack}

/-- Operands with the same bytes are replaced by items with the same bytes. -/
theorem replaced_sameBytes (hreplaces : Replaces n k op) (hperforms : PerformsBy ctx c op)
    {s t : State} {xs ys rest new new' : Stack} (hs : s.stack = xs ++ rest)
    (hnext : perform ctx c s = .next t) (ht : t.stack = new ++ rest) (hys : ys.length = n)
    (hnew' : op ys = .ok new') (hlength : new.length = new'.length)
    (h : List.Forall₂ Item.SameBytes xs ys) : List.Forall₂ Item.SameBytes new new' := by
  -- the operation is performed on the second operands above the rest of the first stack
  have hmixed : s.Related Item.SameBytes Eq { s with stack := ys ++ rest } := by
    refine ⟨?_, List.forall₂_refl _, rfl, rfl, rfl, rfl⟩
    rw [hs]
    exact List.rel_append h (List.forall₂_refl rest)
  have hresult : op (ys ++ rest) = .ok (new' ++ rest) := by
    rw [hreplaces.append ys rest hys, hnew']
    rfl
  have hmatches := perform_sameBytes ctx c hmixed
  rw [hnext] at hmatches
  rcases hperforms { s with stack := ys ++ rest } with ⟨stack, hstack, hmix⟩ | ⟨r, u, hfail, -⟩
  · rw [hresult, Except.ok.injEq] at hstack
    rw [hmix, ← hstack] at hmatches
    cases hmatches with
    | next hrelated =>
        have hboth : List.Forall₂ Item.SameBytes (new ++ rest) (new' ++ rest) := by
          rw [← ht]
          exact hrelated.stack
        have htake := List.forall₂_take new.length hboth
        rwa [List.take_left, hlength, List.take_left] at htake
  · rw [hfail] at hmatches
    cases hmatches

theorem replaced_agrees (hreplaces : Replaces n k op) (hperforms : PerformsBy ctx c op)
    {s t : State} (h : Agree s t) :
    (perform ctx c s).Tracks Agree AnyReason (perform ctx c t) := by
  rcases hperforms s with ⟨a, ha, hs⟩ | ⟨reason, u, hfail, -⟩
  · rcases hperforms t with ⟨b, hb, ht⟩ | ⟨reason, u, hfail, -⟩
    · obtain ⟨xs, rest, new, hxs, rfl, hn, hnew⟩ := hreplaces.exists_of_ok ha
      obtain ⟨ys, rest', new', hys, rfl, hn', hnew'⟩ := hreplaces.exists_of_ok hb
      have hstack := h.stack
      rw [hxs, hys] at hstack
      have hoperands : List.Forall₂ Item.Agrees xs ys := by
        have htake := List.forall₂_take n hstack
        rwa [List.take_left' hn, List.take_left' hn'] at htake
      have hrest : List.Forall₂ Item.Agrees rest rest' := by
        have hdrop := List.forall₂_drop n hstack
        rwa [List.drop_left' hn, List.drop_left' hn'] at hdrop
      have hmade := hreplaces.made xs new hn hnew
      have hmade' := hreplaces.made ys new' hn' hnew'
      rw [← Stack.provenance_eq_of_agrees hoperands] at hmade'
      have hnews : List.Forall₂ Item.Agrees new new' := by
        refine hmade.agrees hmade' ?_
        intro hliteral
        exact replaced_sameBytes hreplaces hperforms hxs hs rfl hn' hnew'
          (hmade.1.trans hmade'.1.symm) (Stack.sameBytes_of_agrees hoperands hliteral)
      rw [hs, ht]
      exact .next { h with stack := List.rel_append hnews hrest }
    · rw [hfail]
      exact .fails _ _ trivial
  · rw [hfail]
    exact .failed _ _ _

end Operands

/-! ## Operations of other kinds -/

section Operations

variable {ctx : Context} {s t : State}

/-- A copy is as derived as its index. A literal index is the same number in both stacks, which
points at items that agree. -/
theorem exists_of_fetch {flags : Flags} {index : Item} {rest a : Stack}
    (h : fetch flags false (index :: rest) = .ok a) :
    ∃ n x, number flags index = .ok n ∧ rest[n.toNat]? = some x ∧
      a = x.merge index.provenance :: rest := by
  simp only [fetch] at h
  split at h
  · cases h
  · rename_i n hn
    split at h
    · cases h
    · split at h
      · cases h
      · rename_i x hx
        cases h
        exact ⟨n, x, hn, hx, rfl⟩

theorem fetch_agrees {flags : Flags} {a b a' b' : Stack} (h : List.Forall₂ Item.Agrees a b)
    (ha : fetch flags false a = .ok a') (hb : fetch flags false b = .ok b') :
    List.Forall₂ Item.Agrees a' b' := by
  cases h with
  | nil => cases ha
  | @cons index index' rest rest' hindex hrest =>
      obtain ⟨n, x, hn, hx, rfl⟩ := exists_of_fetch ha
      obtain ⟨m, y, hm, hy, rfl⟩ := exists_of_fetch hb
      refine .cons ?_ hrest
      rw [← hindex.provenance]
      by_cases hliteral : index.provenance = .literal
      · have hsame := (hindex.bytes hliteral).number_eq flags
        rw [hn, hm, Except.ok.injEq] at hsame
        subst hsame
        rcases forall₂_getElem? hrest n.toNat with ⟨hnone, -⟩ | ⟨u, v, hu, hv, huv⟩
        · rw [hnone] at hx
          cases hx
        · rw [hx, Option.some.injEq] at hu
          rw [hy, Option.some.injEq] at hv
          rw [hu, hv]
          exact huv.merge _
      · rw [Provenance.eq_derived_of_ne_literal hliteral]
        exact .of_derived (Provenance.union_derived _) (Provenance.union_derived _)

theorem withStack_agrees (h : Agree s t) {r r' : Except Reason Stack}
    (hr : ∀ a b, r = .ok a → r' = .ok b → List.Forall₂ Item.Agrees a b) :
    (s.withStack r).Tracks Agree AnyReason (t.withStack r') := by
  cases r with
  | error reason => exact .failed _ _ _
  | ok a =>
      cases r' with
      | error reason => exact .fails _ _ trivial
      | ok b => exact .next { h with stack := hr a b rfl rfl }

/-- A lock time is read and left where it is. -/
theorem lockTime_agrees (ctx : Context) (op : Opcode) (h : Agree s t) :
    (lockTime ctx op s).Tracks Agree AnyReason (lockTime ctx op t) := by
  have hs := lockTime_alike ctx op s
  have ht := lockTime_alike ctx op t
  have hdone := lockTime_ne_done ctx op s
  have hdone' := lockTime_ne_done ctx op t
  generalize lockTime ctx op s = o at hs hdone ⊢
  generalize lockTime ctx op t = o' at ht hdone' ⊢
  cases o with
  | fail reason u => exact .failed _ _ _
  | done u => exact absurd rfl (hdone u)
  | next u =>
      cases o' with
      | fail reason v => exact .fails _ _ trivial
      | done v => exact absurd rfl (hdone' v)
      | next v =>
          obtain ⟨calls, rfl⟩ := hs
          obtain ⟨calls', rfl⟩ := ht
          exact .next { h with calls := trivial }

theorem conclude_agrees {op : Opcode} {required valid valid' : Bool} {p p' : Provenance}
    {rest rest' : Stack} (h : Agree { s with stack := rest } { t with stack := rest' })
    (hanswer : (Item.ofBool valid p).Agrees (.ofBool valid' p')) :
    (conclude op required valid p rest s).Tracks Agree AnyReason
      (conclude op required valid' p' rest' t) := by
  unfold conclude
  split
  · split
    · split
      · exact .next h
      · exact .fails _ _ trivial
    · exact .failed _ _ _
  · exact .next (h.push hanswer)

theorem valid_eq_of_sameBytes {code : Bytes} {sig sig' key key' : Item} {u v : State}
    {valid valid' : Bool} (hsig : sig.SameBytes sig') (hkey : key.SameBytes key')
    (hs : checkPair ctx (withoutSignatures code [sig]) sig key s = (.ok valid, u))
    (ht : checkPair ctx (withoutSignatures code [sig']) sig' key' t = (.ok valid', v)) :
    valid = valid' := by
  rw [withoutSignatures_sameBytes code (.cons hsig .nil)] at hs
  obtain ⟨answer, w, w', hs', ht', -⟩ := checkPair_matches ctx (withoutSignatures code [sig'])
    (Q := fun _ _ => True) (s := s) (t := t) (fun _ _ _ _ => trivial) hsig hkey trivial
  rw [hs] at hs'
  rw [ht] at ht'
  cases hs'
  cases ht'
  rfl

/-- The answer for a literal signature and a literal key is the same in both states. -/
theorem checkSig_agrees (ctx : Context) (required : Bool) (h : Agree s t) :
    (checkSig ctx required s).Tracks Agree AnyReason (checkSig ctx required t) := by
  have hstack := h.stack
  unfold checkSig
  rw [← h.scriptCode_eq]
  generalize s.stack = a at hstack ⊢
  generalize t.stack = b at hstack ⊢
  rcases hstack with _ | ⟨hkey, _ | ⟨hsig, hrest⟩⟩
  · exact .failed _ _ _
  · exact .failed _ _ _
  · dsimp only
    split
    · exact .failed _ _ _
    · rename_i valid u hs
      split
      · exact .fails _ _ trivial
      · rename_i valid' v ht
        obtain ⟨calls, rfl⟩ := checkPair_alike hs
        obtain ⟨calls', rfl⟩ := checkPair_alike ht
        refine conclude_agrees { h with stack := hrest, calls := trivial } ?_
        rw [← hsig.provenance, ← hkey.provenance]
        refine ⟨rfl, ?_⟩
        intro hliteral
        obtain ⟨hsigLiteral, hkeyLiteral⟩ := Provenance.union_eq_literal_iff.mp hliteral
        rw [valid_eq_of_sameBytes (hsig.bytes hsigLiteral) (hkey.bytes hkeyLiteral) hs ht]
        rfl

/-- The operations whose operands decide what becomes of other items. -/
def isSteering : Operation → Bool
  | .openBranch _ => true
  | .dupIfTrue => true
  | .fetch takeOut => takeOut
  | .checkMultiSig _ => true
  | _ => false

/-- An operation that does not steer keeps the agreement. -/
theorem perform_agrees (ctx : Context) {c : Chunk} (hc : isSteering c.opcode.operation = false)
    (h : Agree s t) : (perform ctx c s).Tracks Agree AnyReason (perform ctx c t) := by
  cases hreplacing : isReplacing c.opcode.operation with
  | true =>
      obtain ⟨n, k, op, hreplaces, hperforms⟩ := exists_replaces ctx c hreplacing
      exact replaced_agrees hreplaces hperforms h
  | false =>
      unfold perform
      cases hop : c.opcode.operation with
      | bad => exact .failed _ _ _
      | smallInt n => exact .next (h.push (.refl _))
      | nop => exact .next h
      | upgradableNop => exact (upgradableNop_matches ctx.flags c.opcode h).tracks
      | lockTime => exact lockTime_agrees ctx c.opcode h
      | turnBranch => exact (turnBranch_matches h).tracks
      | closeBranch => exact (closeBranch_matches h).tracks
      | exit => exact (exit_matches ctx.flags h).tracks
      | toAlt => exact (toAlt_matches h).tracks
      | fromAlt => exact (fromAlt_matches h).tracks
      | stack op => exact (withStack_matches h (moved_paired op h.stack)).tracks
      | depth => exact .next (h.push (.of_derived rfl rfl))
      | codeSeparator => exact .next { h with codeStart := rfl }
      | checkSig required => exact checkSig_agrees ctx required h
      | fetch takeOut =>
          rw [hop, isSteering] at hc
          rw [hc]
          exact withStack_agrees h fun a b => fetch_agrees h.stack
      | openBranch negated => rw [hop] at hc; cases hc
      | dupIfTrue => rw [hop] at hc; cases hc
      | checkMultiSig required => rw [hop] at hc; cases hc
      | _ => rw [hop] at hreplacing; cases hreplacing

end Operations

/-! ## Runs -/

theorem step_agrees {ctx : Context} {c : Chunk} (hc : isSteering c.opcode.operation = false)
    (s t : State) (h : Agree s t) : (step ctx c s).Tracks Agree AnyReason (step ctx c t) := by
  have hcounted := h.counted c
  refine step_tracks trivial trivial h.opCount ?_
  exact execute_tracks hcounted hcounted.executing (fun data => hcounted.push (.refl _))
    (perform_agrees ctx hc hcounted)

theorem run_agrees {ctx : Context} {cs : List Chunk}
    (hcs : ∀ c ∈ cs, isSteering c.opcode.operation = false) {s t : State} (h : Agree s t)
    (hs : (run ctx cs s).failure = none) (ht : (run ctx cs t).failure = none) :
    Agree (run ctx cs s).state (run ctx cs t).state := by
  rcases run_tracks (fun _ _ h => h.branches) (fun c hc => step_agrees (hcs c hc)) h hs with
    ⟨-, hagree⟩ | ⟨reason, location, hfail, -⟩
  · exact hagree
  · rw [ht] at hfail
    cases hfail

end Machine

namespace Opcode

/-- Copies the top item if it is true. -/
def dupIfTrue : Opcode := ⟨0x73⟩

/-- Moves the item at an index to the top. -/
def roll : Opcode := ⟨0x7a⟩

/-- The opcodes whose operands decide what becomes of other items. -/
def steering : List Opcode :=
  [ifTrue, ifFalse, dupIfTrue, roll, checkMultiSig, checkMultiSigVerify]

theorem isSteering_of_not_mem {op : Opcode} (h : op ∉ steering) :
    Machine.isSteering op.operation = false := by
  have htable : ∀ e ∈ operations, Machine.isSteering e.2 = true → (⟨e.1⟩ : Opcode) ∈ steering := by
    decide
  rcases op.operation_cases with ⟨n, -, hop⟩ | hop | hmem
  · rw [hop]
    rfl
  · rw [hop]
    rfl
  · rw [← Bool.not_eq_true]
    exact fun hsteering => h (htable _ hmem hsteering)

end Opcode

/-- **No literal item depends on what was derived.** Let a program without opcodes that steer
succeed on two stacks that agree in the provenance of all items and in the bytes of literal ones.
Then the stacks left agree so too. -/
theorem literals_independent {checker : Checker} {flags : Flags} {p : Program}
    (hp : ∀ c ∈ p.chunks, c.opcode ∉ Opcode.steering) {stack stack' : Stack}
    (h : List.Forall₂ Item.Agrees stack stack') {b b' : Bool}
    (hb : (evaluate checker flags p stack).outcome = .ok b)
    (hb' : (evaluate checker flags p stack').outcome = .ok b') :
    List.Forall₂ Item.Agrees (evaluate checker flags p stack).stack
      (evaluate checker flags p stack').stack := by
  obtain ⟨hsize, r, rfl, hnone, -⟩ := evaluate_eq_ok_iff.mp hb
  obtain ⟨-, r', rfl, hnone', -⟩ := evaluate_eq_ok_iff.mp hb'
  have hstart : Machine.Agree { stack := stack } { stack := stack' } :=
    ⟨h, .nil, rfl, rfl, rfl, trivial⟩
  have hplain : ∀ c ∈ p.chunks, Machine.isSteering c.opcode.operation = false :=
    fun c hc => Opcode.isSteering_of_not_mem (hp c hc)
  rw [evaluate_stack hsize, evaluate_stack hsize]
  exact (Machine.run_agrees hplain hstart hnone hnone').stack

/-- The program `1ADD 1 PICK 1ADD`. -/
def incrementBoth : Program where
  chunks := [⟨⟨0x8b⟩, none, 0⟩, ⟨.one, none, 1⟩, ⟨⟨0x79⟩, none, 2⟩, ⟨⟨0x8b⟩, none, 3⟩]
  bytes := [0x8b, 0x51, 0x79, 0x8b]

/-- A derived number is incremented and so is a copy of the literal one below, which becomes the
same number whatever the derived one is. -/
theorem literals_independent_of_increment :
    (∀ c ∈ incrementBoth.chunks, c.opcode ∉ Opcode.steering) ∧
      List.Forall₂ Item.Agrees [.ofInt 1 .derived, .literal [3]]
        [.ofInt 2 .derived, .literal [3]] ∧
      (evaluate .absent {} incrementBoth [.ofInt 1 .derived, .literal [3]]).outcome = .ok true ∧
      (evaluate .absent {} incrementBoth [.ofInt 2 .derived, .literal [3]]).outcome = .ok true ∧
      List.Forall₂ Item.Agrees
        (evaluate .absent {} incrementBoth [.ofInt 1 .derived, .literal [3]]).stack
        (evaluate .absent {} incrementBoth [.ofInt 2 .derived, .literal [3]]).stack := by
  have hplain : ∀ c ∈ incrementBoth.chunks, c.opcode ∉ Opcode.steering := by decide
  have hstacks : List.Forall₂ Item.Agrees [.ofInt 1 .derived, .literal [3]]
      [.ofInt 2 .derived, .literal [3]] :=
    .cons (.of_derived rfl rfl) (.cons (.refl _) .nil)
  have hone : (evaluate .absent {} incrementBoth
      [.ofInt 1 .derived, .literal [3]]).outcome = .ok true := rfl
  have htwo : (evaluate .absent {} incrementBoth
      [.ofInt 2 .derived, .literal [3]]).outcome = .ok true := rfl
  exact ⟨hplain, hstacks, hone, htwo, literals_independent hplain hstacks hone htwo⟩

end BitcoinScript
