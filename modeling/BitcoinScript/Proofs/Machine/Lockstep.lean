import Mathlib.Data.List.Forall2
import BitcoinScript.Proofs.Machine.Frame

/-!
# Two machines in lockstep

Two machines run the same chunks from different states. `Outcome.Tracks Q P` compares what comes of
one chunk: unless the first machine fails, the second is left in a state with `Q`, or fails for a
reason with `P`. `Outcome.Matches Q` also asks for the same failures. Both are carried from the
execution of a chunk to its step, and from steps to runs (`run_tracks`, `run_matches`).

Signature checks go by the bytes of items and add the same questions on both sides
(`checkPair_matches`, `matchKeys_matches`), so any relation that survives a question survives them.

The states compared are mostly those of one shape with pairwise related items (`State.Related`).
Operations that only move items, or look at no item at all, keep them related whatever the relation
is.
-/

namespace BitcoinScript

/-- The items have the same bytes, whatever they are marked as. -/
def Item.SameBytes (x y : Item) : Prop := x.bytes = y.bytes

instance : Std.Refl Item.SameBytes := ⟨fun x => Eq.refl x.bytes⟩

theorem Item.SameBytes.size_eq {x y : Item} (h : x.SameBytes y) : x.size = y.size := by
  rw [← x.length_bytes, ← y.length_bytes, h]

namespace Machine

namespace Outcome

/-- Unless the first outcome is a failure, the second one is of its kind, in a state with `Q`, or it
is a failure with `P`. -/
inductive Tracks (Q : State → State → Prop) (P : Reason → Prop) : Outcome → Outcome → Prop
  | next {s t : State} (h : Q s t) : Tracks Q P (.next s) (.next t)
  | done {s t : State} (h : Q s t) : Tracks Q P (.done s) (.done t)
  | failed (reason : Reason) (s : State) (o : Outcome) : Tracks Q P (.fail reason s) o
  | fails {reason : Reason} (o : Outcome) (t : State) (h : P reason) :
      Tracks Q P o (.fail reason t)

/-- Both outcomes are of one kind, with one reason if they are failures, in states with `Q`. -/
inductive Matches (Q : State → State → Prop) : Outcome → Outcome → Prop
  | next {s t : State} (h : Q s t) : Matches Q (.next s) (.next t)
  | done {s t : State} (h : Q s t) : Matches Q (.done s) (.done t)
  | fail (reason : Reason) {s t : State} (h : Q s t) : Matches Q (.fail reason s) (.fail reason t)

theorem Matches.tracks {Q : State → State → Prop} {P : Reason → Prop} {o o' : Outcome}
    (h : o.Matches Q o') : o.Tracks Q P o' := by
  cases h with
  | next h => exact .next h
  | done h => exact .done h
  | fail reason h => exact .failed reason _ _

end Outcome

/-! ## Steps -/

section Steps

variable {ctx : Context} {c : Chunk} {s t : State} {Q : State → State → Prop} {P : Reason → Prop}

theorem counted_opCount_eq (h : s.opCount = t.opCount) :
    (counted c s).opCount = (counted c t).opCount := by
  unfold counted
  split
  · exact congrArg (· + 1) h
  · exact h

theorem checkBound_error {reason : Reason} (h : checkBound ctx s = .error reason) :
    reason = .stackSize ∨ reason = .stackMemory := by
  unfold checkBound at h
  split at h
  · split at h
    · cases h
      exact Or.inl rfl
    · cases h
  · split at h
    · cases h
      exact Or.inr rfl
    · cases h

/-- The second machine may exceed the bound where the first does not. -/
theorem bounded_tracks (hsize : P .stackSize) (hmemory : P .stackMemory) {o o' : Outcome}
    (h : o.Tracks Q P o') : (bounded ctx o).Tracks Q P (bounded ctx o') := by
  have hbound : ∀ {t reason}, checkBound ctx t = .error reason → P reason := by
    intro t reason herror
    rcases checkBound_error herror with rfl | rfl
    · exact hsize
    · exact hmemory
  cases h with
  | failed reason s => exact .failed reason s _
  | fails o t h => exact .fails _ t h
  | next h =>
      simp only [bounded]
      split
      · split
        · exact .next h
        · rename_i herror
          exact .fails _ _ (hbound herror)
      · exact .failed _ _ _
  | done h =>
      simp only [bounded]
      split
      · split
        · exact .done h
        · rename_i herror
          exact .fails _ _ (hbound herror)
      · exact .failed _ _ _

theorem bounded_matches (hbound : ∀ s t, Q s t → checkBound ctx s = checkBound ctx t)
    {o o' : Outcome} (h : o.Matches Q o') : (bounded ctx o).Matches Q (bounded ctx o') := by
  cases h with
  | fail reason h => exact .fail reason h
  | next h =>
      simp only [bounded, hbound _ _ h]
      split
      · exact .next h
      · exact .fail _ h
  | done h =>
      simp only [bounded, hbound _ _ h]
      split
      · exact .done h
      · exact .fail _ h

theorem execute_tracks (h : Q s t) (hexecuting : s.executing = t.executing)
    (hpush : ∀ data, Q { s with stack := .literal data :: s.stack }
      { t with stack := .literal data :: t.stack })
    (hperform : (perform ctx c s).Tracks Q P (perform ctx c t)) :
    (execute ctx c s).Tracks Q P (execute ctx c t) := by
  unfold execute isPerformed
  rw [← hexecuting]
  split
  · split
    · split
      · exact .failed _ _ _
      · exact .next (hpush _)
    · exact .next h
  · split
    · exact hperform
    · exact .next h

theorem execute_matches (h : Q s t) (hexecuting : s.executing = t.executing)
    (hpush : ∀ data, Q { s with stack := .literal data :: s.stack }
      { t with stack := .literal data :: t.stack })
    (hperform : (perform ctx c s).Matches Q (perform ctx c t)) :
    (execute ctx c s).Matches Q (execute ctx c t) := by
  unfold execute isPerformed
  rw [← hexecuting]
  split
  · split
    · split
      · exact .fail _ h
      · exact .next (hpush _)
    · exact .next h
  · split
    · exact hperform
    · exact .next h

theorem step_tracks (hsize : P .stackSize) (hmemory : P .stackMemory)
    (hcount : s.opCount = t.opCount)
    (hexecute : (execute ctx c (counted c s)).Tracks Q P (execute ctx c (counted c t))) :
    (step ctx c s).Tracks Q P (step ctx c t) := by
  cases haccept : accept ctx c s with
  | error failure =>
      simp only [step, haccept]
      exact .failed _ _ _
  | ok u =>
      obtain ⟨hlong, hdisabled, hoperations, -⟩ := accept_eq_ok_iff.mp haccept
      rw [step_of_accepted hlong hdisabled hoperations,
        step_of_accepted hlong hdisabled (hcount ▸ hoperations)]
      exact bounded_tracks hsize hmemory hexecute

theorem step_matches (hbound : ∀ s t, Q s t → checkBound ctx s = checkBound ctx t) (h : Q s t)
    (hcounted : Q (counted c s) (counted c t)) (hcount : s.opCount = t.opCount)
    (hexecute : (execute ctx c (counted c s)).Matches Q (execute ctx c (counted c t))) :
    (step ctx c s).Matches Q (step ctx c t) := by
  unfold step
  rw [accept_eq, accept_eq, counted_opCount_eq hcount]
  by_cases hlong : isTooLong ctx.limits c = true
  · rw [if_pos hlong, if_pos hlong]
    exact .fail _ h
  rw [if_neg hlong, if_neg hlong]
  by_cases hmany : (c.opcode.isCounted &&
      decide ((counted c t).opCount > ctx.limits.operations)) = true
  · rw [if_pos hmany, if_pos hmany]
    exact .fail _ hcounted
  rw [if_neg hmany, if_neg hmany]
  by_cases hdisabled : c.opcode.isDisabled ctx.flags = true
  · rw [if_pos hdisabled, if_pos hdisabled]
    exact .fail _ hcounted
  rw [if_neg hdisabled, if_neg hdisabled]
  exact bounded_matches hbound hexecute

end Steps

/-! ## Runs -/

section Runs

variable {ctx : Context} {cs : List Chunk} {s t : State} {Q : State → State → Prop}

/-- Unless the first run fails, the second one ends in a state with `Q`, or fails for a reason with
`P`. -/
theorem run_tracks {P : Reason → Prop} (hbranches : ∀ s t, Q s t → s.branches = t.branches)
    (hstep : ∀ c ∈ cs, ∀ s t, Q s t → (step ctx c s).Tracks Q P (step ctx c t)) (h : Q s t)
    (hrun : (run ctx cs s).failure = none) :
    ((run ctx cs t).failure = none ∧ Q (run ctx cs s).state (run ctx cs t).state) ∨
      ∃ reason location, (run ctx cs t).failure = some (reason, location) ∧ P reason := by
  induction cs generalizing s t with
  | nil =>
      simp only [run, ← hbranches s t h] at hrun ⊢
      split
      · exact Or.inl ⟨rfl, h⟩
      · rename_i hopen
        rw [if_neg hopen] at hrun
        cases hrun
  | cons c rest ih =>
      have hfirst := hstep c List.mem_cons_self s t h
      simp only [run] at hrun ⊢
      generalize step ctx c s = o at hfirst hrun ⊢
      generalize step ctx c t = o' at hfirst ⊢
      cases hfirst with
      | next h => exact ih (fun d hd => hstep d (List.mem_cons_of_mem c hd)) h hrun
      | done h => exact Or.inl ⟨rfl, h⟩
      | failed reason s => cases hrun
      | fails o t h => exact Or.inr ⟨_, _, rfl, h⟩

/-- Both runs end in states with `Q`, and in the same failure if they fail. -/
theorem run_matches (hbranches : ∀ s t, Q s t → s.branches = t.branches)
    (hstep : ∀ c ∈ cs, ∀ s t, Q s t → (step ctx c s).Matches Q (step ctx c t)) (h : Q s t) :
    (run ctx cs s).failure = (run ctx cs t).failure ∧
      Q (run ctx cs s).state (run ctx cs t).state := by
  induction cs generalizing s t with
  | nil =>
      simp only [run, ← hbranches s t h]
      split <;> exact ⟨rfl, h⟩
  | cons c rest ih =>
      have hfirst := hstep c List.mem_cons_self s t h
      simp only [run]
      generalize step ctx c s = o at hfirst ⊢
      generalize step ctx c t = o' at hfirst ⊢
      cases hfirst with
      | next h => exact ih (fun d hd => hstep d (List.mem_cons_of_mem c hd)) h
      | done h => exact ⟨rfl, h⟩
      | fail reason h => exact ⟨rfl, h⟩

end Runs

/-! ## Questions to the checker -/

section Questions

variable {Q : State → State → Prop} {s t : State}

/-- Whether a signature is good goes by the bytes of the two items. -/
theorem checkPair_matches (ctx : Context) (code : Bytes)
    (hrecord : ∀ s t call, Q s t → Q (s.record call) (t.record call))
    {sig sig' key key' : Item} (hsig : sig.SameBytes sig') (hkey : key.SameBytes key')
    (h : Q s t) : ∃ answer u v, checkPair ctx code sig key s = (answer, u) ∧
      checkPair ctx code sig' key' t = (answer, v) ∧ Q u v := by
  have hsize : sig'.size = sig.size := hsig.size_eq.symm
  unfold checkPair
  rw [← hsig, ← hkey, hsize]
  split
  · exact ⟨_, s, t, rfl, rfl, h⟩
  · split
    · exact ⟨_, s, t, rfl, rfl, h⟩
    · split
      · exact ⟨_, s, t, rfl, rfl, h⟩
      · dsimp only
        split
        · exact ⟨_, _, _, rfl, rfl, hrecord s t _ h⟩
        · exact ⟨_, _, _, rfl, rfl, hrecord s t _ h⟩

theorem matchKeys_matches (ctx : Context) (code : Bytes)
    (hrecord : ∀ s t call, Q s t → Q (s.record call) (t.record call))
    {sigs sigs' keys keys' : List Item} (hsigs : List.Forall₂ Item.SameBytes sigs sigs')
    (hkeys : List.Forall₂ Item.SameBytes keys keys') (h : Q s t) :
    ∃ answer u v, matchKeys ctx code sigs keys s = (answer, u) ∧
      matchKeys ctx code sigs' keys' t = (answer, v) ∧ Q u v := by
  induction hkeys generalizing sigs sigs' s t with
  | nil => cases hsigs <;> exact ⟨_, s, t, rfl, rfl, h⟩
  | @cons key key' keys keys' hkey hkeys ih =>
      cases hsigs with
      | nil => exact ⟨_, s, t, rfl, rfl, h⟩
      | @cons sig sig' sigs sigs' hsig hsigs =>
          obtain ⟨answer, u, v, hs, ht, huv⟩ := checkPair_matches ctx code hrecord hsig hkey h
          simp only [matchKeys, hs, ht]
          cases answer with
          | error reason => exact ⟨_, u, v, rfl, rfl, huv⟩
          | ok valid =>
              have hleft : List.Forall₂ Item.SameBytes (if valid then sigs else sig :: sigs)
                  (if valid then sigs' else sig' :: sigs') := by
                cases valid with
                | true => exact hsigs
                | false => exact .cons hsig hsigs
              dsimp only
              generalize (if valid = true then sigs else sig :: sigs) = left at hleft ⊢
              generalize (if valid = true then sigs' else sig' :: sigs') = left' at hleft ⊢
              rw [← hleft.length_eq, ← hkeys.length_eq]
              split
              · exact ⟨_, u, v, rfl, rfl, huv⟩
              · exact ih hleft huv

theorem conclude_matches {op : Opcode} {required valid : Bool} {p p' : Provenance}
    {rest rest' : Stack} (hrest : Q { s with stack := rest } { t with stack := rest' })
    (hanswer : Q { s with stack := .ofBool valid p :: rest }
      { t with stack := .ofBool valid p' :: rest' }) :
    (conclude op required valid p rest s).Matches Q (conclude op required valid p' rest' t) := by
  unfold conclude
  split
  · split
    · exact .next hrest
    · exact .fail _ hrest
  · exact .next hanswer

end Questions

/-! ## Related items -/

section Forall₂

variable {α β : Type} {R : α → β → Prop} {a : List α} {b : List β}

theorem forall₂_getElem? (h : List.Forall₂ R a b) (i : Nat) :
    (a[i]? = none ∧ b[i]? = none) ∨ ∃ x y, a[i]? = some x ∧ b[i]? = some y ∧ R x y := by
  induction h generalizing i with
  | nil => exact Or.inl ⟨rfl, rfl⟩
  | @cons x y a b hxy hrest ih =>
      cases i with
      | zero => exact Or.inr ⟨x, y, rfl, rfl, hxy⟩
      | succ i => exact ih i

theorem forall₂_eraseIdx (h : List.Forall₂ R a b) (i : Nat) :
    List.Forall₂ R (a.eraseIdx i) (b.eraseIdx i) := by
  rw [List.eraseIdx_eq_take_drop_succ, List.eraseIdx_eq_take_drop_succ]
  exact List.rel_append (List.forall₂_take i h) (List.forall₂_drop (i + 1) h)

end Forall₂

/-- Both are stacks with pairwise related items, or both are failures for one reason. -/
inductive Paired (R : Item → Item → Prop) : Except Reason Stack → Except Reason Stack → Prop
  | ok {s t : Stack} (h : List.Forall₂ R s t) : Paired R (.ok s) (.ok t)
  | error (reason : Reason) : Paired R (.error reason) (.error reason)

/-- The states agree in all but the items on the stacks, which are pairwise related, and the
questions asked. -/
structure State.Related (R : Item → Item → Prop) (K : List Call → List Call → Prop)
    (s t : State) : Prop where
  stack : List.Forall₂ R s.stack t.stack
  altStack : List.Forall₂ R s.altStack t.altStack
  branches : s.branches = t.branches
  opCount : s.opCount = t.opCount
  codeStart : s.codeStart = t.codeStart
  calls : K s.calls t.calls

section Related

variable {R : Item → Item → Prop} {K : List Call → List Call → Prop} {s t : State}

namespace State.Related

theorem executing (h : s.Related R K t) : s.executing = t.executing := by
  unfold State.executing
  rw [h.branches]

theorem scriptCode_eq (h : s.Related R K t) (ctx : Context) :
    scriptCode ctx s = scriptCode ctx t := by
  unfold scriptCode
  rw [h.codeStart]

theorem counted (h : s.Related R K t) (c : Chunk) :
    (counted c s).Related R K (counted c t) := by
  unfold Machine.counted
  split
  · exact { h with opCount := congrArg (· + 1) h.opCount }
  · exact h

theorem push (h : s.Related R K t) {x y : Item} (hxy : R x y) :
    ({ s with stack := x :: s.stack } : State).Related R K { t with stack := y :: t.stack } :=
  { h with stack := .cons hxy h.stack }

end State.Related

theorem withStack_matches (h : s.Related R K t) {r r' : Except Reason Stack}
    (hr : Paired R r r') :
    (s.withStack r).Matches (State.Related R K) (t.withStack r') := by
  cases hr with
  | ok hstack => exact .next { h with stack := hstack }
  | error reason => exact .fail reason h

theorem upgradableNop_matches (flags : Flags) (op : Opcode) (h : s.Related R K t) :
    (upgradableNop flags op s).Matches (State.Related R K) (upgradableNop flags op t) := by
  unfold upgradableNop
  split
  · exact .fail _ h
  · exact .next h

theorem exit_matches (flags : Flags) (h : s.Related R K t) :
    (exit flags s).Matches (State.Related R K) (exit flags t) := by
  unfold exit
  split
  · exact .done h
  · exact .fail _ h

theorem turnBranch_matches (h : s.Related R K t) :
    (turnBranch s).Matches (State.Related R K) (turnBranch t) := by
  unfold turnBranch
  rw [← h.branches]
  split
  · exact .fail _ h
  · exact .next { h with branches := rfl }

theorem closeBranch_matches (h : s.Related R K t) :
    (closeBranch s).Matches (State.Related R K) (closeBranch t) := by
  unfold closeBranch
  rw [← h.branches]
  split
  · exact .fail _ h
  · exact .next { h with branches := rfl }

theorem toAlt_matches (h : s.Related R K t) :
    (toAlt s).Matches (State.Related R K) (toAlt t) := by
  have hstack := h.stack
  unfold toAlt
  generalize s.stack = a at hstack ⊢
  generalize t.stack = b at hstack ⊢
  cases hstack with
  | nil => exact .fail _ h
  | cons hxy hrest => exact .next { h with stack := hrest, altStack := .cons hxy h.altStack }

theorem fromAlt_matches (h : s.Related R K t) :
    (fromAlt s).Matches (State.Related R K) (fromAlt t) := by
  have hstack := h.altStack
  unfold fromAlt
  generalize s.altStack = a at hstack ⊢
  generalize t.altStack = b at hstack ⊢
  cases hstack with
  | nil => exact .fail _ h
  | cons hxy hrest => exact .next { h with stack := .cons hxy h.stack, altStack := hrest }

/-! ### Moves -/

theorem require_paired {a b a' b' : Stack} (n : Nat) (hstack : List.Forall₂ R a b)
    (h : List.Forall₂ R a' b') :
    Paired R (moved (Stack.require n a a')) (moved (Stack.require n b b')) := by
  unfold Stack.require
  rw [hstack.length_eq]
  split
  · exact .ok h
  · exact .error _

/-- Moves and copies go by the places of items, whatever these are. -/
theorem moved_paired (op : StackOp) {a b : Stack} (h : List.Forall₂ R a b) :
    Paired R (moved (op.apply a)) (moved (op.apply b)) := by
  have htake : ∀ n, List.Forall₂ R (a.take n) (b.take n) := fun n => List.forall₂_take n h
  have hdrop : ∀ n, List.Forall₂ R (a.drop n) (b.drop n) := fun n => List.forall₂_drop n h
  have hblock : ∀ n m, List.Forall₂ R ((a.drop n).take m) ((b.drop n).take m) :=
    fun n m => List.forall₂_take m (hdrop n)
  cases op with
  | drop n => exact require_paired n h (hdrop n)
  | dup n => exact require_paired n h (List.rel_append (htake n) h)
  | copyOver n => exact require_paired (2 * n) h (List.rel_append (hblock n n) h)
  | rotate n =>
      exact require_paired (3 * n) h
        (List.rel_append (hblock (2 * n) n) (List.rel_append (htake (2 * n)) (hdrop (3 * n))))
  | swap n =>
      exact require_paired (2 * n) h
        (List.rel_append (hblock n n) (List.rel_append (htake n) (hdrop (2 * n))))
  | nip =>
      rcases h with _ | ⟨hx, _ | ⟨hy, hrest⟩⟩
      · exact .error _
      · exact .error _
      · exact .ok (.cons hx hrest)
  | tuck =>
      rcases h with _ | ⟨hx, _ | ⟨hy, hrest⟩⟩
      · exact .error _
      · exact .error _
      · exact .ok (.cons hx (.cons hy (.cons hx hrest)))

end Related

end Machine

end BitcoinScript
