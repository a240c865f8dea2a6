import BitcoinScript.Proofs.Machine.Frame

/-!
# The questions asked of the checker

Three kinds of operations ask the checker something, and all that they ask is a `Question`: about a
lock time, or about a signature that stands where the operation looks for signatures
(`SignaturesAt`), for a script code from which all the signatures there are deleted.

A step only adds questions to those asked before (`step_asks`), and every question of a run is asked
by the step of one of its chunks (`exists_asked_of_run`).
-/

namespace BitcoinScript

namespace Machine

/-- On the way from one state to another only questions with `P` are asked. -/
def Asked (P : Call → Prop) (s t : State) : Prop :=
  ∃ asked, t.calls = s.calls ++ asked ∧ ∀ call ∈ asked, P call

namespace Asked

variable {P Q : Call → Prop} {s t u : State}

theorem of_eq (h : t.calls = s.calls) : Asked P s t := by
  refine ⟨[], by rw [h, List.append_nil], ?_⟩
  intro call hcall
  cases hcall

theorem trans (hst : Asked P s t) (htu : Asked P t u) : Asked P s u := by
  obtain ⟨a, ha, hPa⟩ := hst
  obtain ⟨b, hb, hPb⟩ := htu
  refine ⟨a ++ b, by rw [hb, ha, List.append_assoc], ?_⟩
  intro call hcall
  rcases List.mem_append.mp hcall with h | h
  · exact hPa call h
  · exact hPb call h

theorem record {call : Call} (h : P call) : Asked P s (s.record call) :=
  ⟨[call], rfl, List.forall_mem_singleton.mpr h⟩

theorem mono (h : Asked P s t) (hPQ : ∀ call, P call → Q call) : Asked Q s t := by
  obtain ⟨asked, hcalls, hP⟩ := h
  exact ⟨asked, hcalls, fun call hcall => hPQ call (hP call hcall)⟩

end Asked

/-! ## Signatures and keys -/

/-- A question about a signature and a key that have the form the flags require. -/
structure PairCall (ctx : Context) (code : Bytes) (sig key : Item) (call : Call) : Prop where
  call_eq : call = .signature sig.bytes key.bytes code ctx.flags
    (ctx.checker.checkSignature sig.bytes key.bytes code ctx.flags)
  size_ne_zero : sig.size ≠ 0
  signature_ok : Encoding.checkSignature sig.bytes ctx.flags = .ok ()
  key_ok : Encoding.checkPublicKey key.bytes ctx.flags = .ok ()

theorem checkPair_asks (ctx : Context) (code : Bytes) (sig key : Item) (s : State) :
    Asked (PairCall ctx code sig key) s (checkPair ctx code sig key s).2 := by
  unfold checkPair
  split
  · exact .of_eq rfl
  · rename_i hsig
    split
    · exact .of_eq rfl
    · rename_i hkey
      split
      · exact .of_eq rfl
      · rename_i hsize
        have hasked : Asked (PairCall ctx code sig key) s
            (s.record (.signature sig.bytes key.bytes code ctx.flags
              (ctx.checker.checkSignature sig.bytes key.bytes code ctx.flags))) :=
          .record ⟨rfl, hsize, hsig, hkey⟩
        dsimp only
        split
        · exact hasked
        · exact hasked

theorem matchKeys_asks (ctx : Context) (code : Bytes) (sigs keys : List Item) (s : State) :
    Asked (fun call => ∃ sig ∈ sigs, ∃ key ∈ keys, PairCall ctx code sig key call) s
      (matchKeys ctx code sigs keys s).2 := by
  induction keys generalizing sigs s with
  | nil => cases sigs <;> exact .of_eq rfl
  | cons key keys ih =>
      cases sigs with
      | nil => exact .of_eq rfl
      | cons sig sigs =>
          have hfirst : Asked (fun call => ∃ x ∈ sig :: sigs, ∃ y ∈ key :: keys,
              PairCall ctx code x y call) s (checkPair ctx code sig key s).2 :=
            (checkPair_asks ctx code sig key s).mono fun call hcall =>
              ⟨sig, List.mem_cons_self, key, List.mem_cons_self, hcall⟩
          simp only [matchKeys]
          split
          · rename_i e asked hpair
            rw [hpair] at hfirst
            exact hfirst
          · rename_i valid asked hpair
            rw [hpair] at hfirst
            have hleft : ∀ x ∈ (if valid = true then sigs else sig :: sigs), x ∈ sig :: sigs := by
              intro x hx
              cases valid with
              | true => exact List.mem_cons_of_mem sig hx
              | false => exact hx
            generalize (if valid = true then sigs else sig :: sigs) = left at hleft ⊢
            split
            · exact hfirst
            · refine hfirst.trans ((ih left asked).mono ?_)
              rintro call ⟨x, hx, y, hy, hcall⟩
              exact ⟨x, hleft x hx, y, List.mem_cons_of_mem key hy, hcall⟩

/-- The signatures that an operation checks lie on the stack: one below its key, or several below
their number and the keys. -/
inductive SignaturesAt (flags : Flags) : Operation → Stack → List Item → Prop
  | single (required : Bool) (key sig : Item) (rest : Stack) :
      SignaturesAt flags (.checkSig required) (key :: sig :: rest) [sig]
  | multiple (required : Bool) (keyCount sigCount : Item) (keys sigs : List Item) (rest : Stack)
      (hkeys : number flags keyCount = .ok keys.length)
      (hsigs : number flags sigCount = .ok sigs.length) :
      SignaturesAt flags (.checkMultiSig required)
        (keyCount :: keys ++ sigCount :: sigs ++ rest) sigs

/-- The questions that an operation may ask about a stack, where `signed` is the signed part of the
script. -/
inductive Question (ctx : Context) (signed : Bytes) (stack : Stack) : Operation → Call → Prop
  | lockTime (time : Int) :
      Question ctx signed stack .lockTime (.lockTime time (ctx.checker.checkLockTime time))
  | signature {op : Operation} {sigs : List Item} {sig key : Item} {call : Call}
      (hsigs : SignaturesAt ctx.flags op stack sigs) (hsig : sig ∈ sigs)
      (hpair : PairCall ctx (withoutSignatures signed sigs) sig key call) :
      Question ctx signed stack op call

theorem signatures_of_question {ctx : Context} {signed : Bytes} {stack : Stack} {op : Operation}
    {sig key code : Bytes} {f : Flags} {answer : Except DigestError Bool}
    (h : Question ctx signed stack op (.signature sig key code f answer)) :
    ∃ sigs x y, SignaturesAt ctx.flags op stack sigs ∧ x ∈ sigs ∧
      PairCall ctx (withoutSignatures signed sigs) x y (.signature sig key code f answer) := by
  cases h with
  | signature hsigs hsig hpair => exact ⟨_, _, _, hsigs, hsig, hpair⟩

theorem conclude_calls (op : Opcode) (required valid : Bool) (p : Provenance) (rest : Stack)
    (s : State) : (conclude op required valid p rest s).state.calls = s.calls := by
  obtain ⟨stack, hstate⟩ := conclude_state op required valid p rest s
  rw [hstate]

theorem checkSig_asks (ctx : Context) (required : Bool) (s : State) :
    Asked (Question ctx (scriptCode ctx s) s.stack (.checkSig required)) s
      (checkSig ctx required s).state := by
  unfold checkSig
  split
  · rename_i key sig rest hstack
    have hpair := checkPair_asks ctx (withoutSignatures (scriptCode ctx s) [sig]) sig key s
    have hasked : Asked (Question ctx (scriptCode ctx s) s.stack (.checkSig required)) s
        (checkPair ctx (withoutSignatures (scriptCode ctx s) [sig]) sig key s).2 := by
      refine hpair.mono fun call hcall => .signature ?_ List.mem_cons_self hcall
      rw [hstack]
      exact .single required key sig rest
    split
    · rename_i e asked hx
      rw [hx] at hasked
      exact hasked
    · rename_i valid asked hx
      rw [hx] at hasked
      exact hasked.trans (.of_eq (conclude_calls _ _ _ _ _ _))
  · exact .of_eq rfl

/-- A signature check whose operands pass asks one question. -/
theorem checkSig_calls (ctx : Context) (required : Bool) {s : State} {key sig : Item}
    {rest : Stack} (hstack : s.stack = key :: sig :: rest)
    (hsig : Encoding.checkSignature sig.bytes ctx.flags = .ok ())
    (hkey : Encoding.checkPublicKey key.bytes ctx.flags = .ok ()) (hsize : sig.size ≠ 0) :
    ∃ code, (checkSig ctx required s).state.calls = s.calls ++ [.signature sig.bytes key.bytes code
      ctx.flags (ctx.checker.checkSignature sig.bytes key.bytes code ctx.flags)] := by
  refine ⟨withoutSignatures (scriptCode ctx s) [sig], ?_⟩
  simp only [checkSig, hstack, checkPair, hsig, hkey, hsize, if_false]
  cases ctx.checker.checkSignature sig.bytes key.bytes (withoutSignatures (scriptCode ctx s) [sig])
    ctx.flags with
  | error e => rfl
  | ok valid =>
      dsimp only
      rw [conclude_calls]
      rfl

theorem drop_eq_cons_of_getElem? {s : Stack} {i : Nat} {x : Item} (h : s[i]? = some x) :
    s.drop i = x :: s.drop (i + 1) := by
  obtain ⟨hlt, rfl⟩ := List.getElem?_eq_some_iff.mp h
  exact List.drop_eq_getElem_cons hlt

/-- Where the counts are read, the operands lie as they should. -/
theorem operands_of_countAt {flags : Flags} {bound keyCount sigCount : Nat}
    {e₁ e₂ : MultiSigError} {stack : Stack} {dummy : Item}
    (hkeys : countAt flags 0 bound e₁ stack = .ok keyCount)
    (hsigs : countAt flags (keyCount + 1) keyCount e₂ stack = .ok sigCount)
    (hdummy : stack[keyCount + sigCount + 2]? = some dummy) :
    ∃ n keys m sigs, number flags n = .ok keyCount ∧ number flags m = .ok sigCount ∧
      keys.length = keyCount ∧ sigs.length = sigCount ∧
      sigs = (stack.drop (keyCount + 2)).take sigCount ∧
      stack = n :: keys ++ m :: sigs ++ dummy :: stack.drop (keyCount + sigCount + 3) := by
  obtain ⟨n, hn, hnumber, -⟩ := countAt_eq_ok hkeys
  obtain ⟨m, hm, hnumber', -⟩ := countAt_eq_ok hsigs
  obtain ⟨hlong, -⟩ := List.getElem?_eq_some_iff.mp hdummy
  refine ⟨n, (stack.drop 1).take keyCount, m, _, hnumber, hnumber', ?_, ?_, rfl, ?_⟩
  · rw [List.length_take, List.length_drop]
    omega
  · rw [List.length_take, List.length_drop]
    omega
  · have hfirst : stack = n :: stack.drop 1 := drop_eq_cons_of_getElem? hn
    have hcut : ∀ i k, stack.drop i = (stack.drop i).take k ++ stack.drop (i + k) := by
      intro i k
      rw [← List.drop_drop, List.take_append_drop]
    have hkeys' : stack.drop 1 = (stack.drop 1).take keyCount ++ stack.drop (keyCount + 1) := by
      rw [Nat.add_comm keyCount 1]
      exact hcut 1 keyCount
    have hsigs' : stack.drop (keyCount + 2) = (stack.drop (keyCount + 2)).take sigCount ++
        stack.drop (keyCount + sigCount + 2) := by
      rw [Nat.add_right_comm keyCount sigCount 2]
      exact hcut (keyCount + 2) sigCount
    calc stack = n :: stack.drop 1 := hfirst
      _ = n :: ((stack.drop 1).take keyCount ++ stack.drop (keyCount + 1)) := by rw [← hkeys']
      _ = n :: ((stack.drop 1).take keyCount ++ m :: stack.drop (keyCount + 2)) := by
          rw [drop_eq_cons_of_getElem? hm]
      _ = n :: ((stack.drop 1).take keyCount ++ m :: ((stack.drop (keyCount + 2)).take sigCount ++
            stack.drop (keyCount + sigCount + 2))) := by rw [← hsigs']
      _ = n :: (stack.drop 1).take keyCount ++ m :: (stack.drop (keyCount + 2)).take sigCount ++
            dummy :: stack.drop (keyCount + sigCount + 3) := by
          rw [drop_eq_cons_of_getElem? hdummy, List.append_assoc, List.cons_append,
            List.cons_append]

theorem signaturesAt_of_countAt {flags : Flags} {required : Bool} {bound keyCount sigCount : Nat}
    {e₁ e₂ : MultiSigError} {stack : Stack} {dummy : Item}
    (hkeys : countAt flags 0 bound e₁ stack = .ok keyCount)
    (hsigs : countAt flags (keyCount + 1) keyCount e₂ stack = .ok sigCount)
    (hdummy : stack[keyCount + sigCount + 2]? = some dummy) :
    SignaturesAt flags (.checkMultiSig required) stack
      ((stack.drop (keyCount + 2)).take sigCount) := by
  obtain ⟨n, keys, m, sigs, hn, hm, hk, hs, hsigs', hstack⟩ :=
    operands_of_countAt hkeys hsigs hdummy
  rw [← hk] at hn
  rw [← hs] at hm
  have hmultiple := SignaturesAt.multiple required n m keys sigs
    (dummy :: stack.drop (keyCount + sigCount + 3)) hn hm
  rw [← hstack] at hmultiple
  rw [← hsigs']
  exact hmultiple

theorem checkMultiSig_asks (ctx : Context) (required : Bool) (s : State) :
    Asked (Question ctx (scriptCode ctx s) s.stack (.checkMultiSig required)) s
      (checkMultiSig ctx required s).state := by
  unfold checkMultiSig
  split
  · exact .of_eq rfl
  · rename_i keyCount hkeys
    dsimp only
    split
    · exact .of_eq rfl
    · split
      · exact .of_eq rfl
      · rename_i sigCount hsigs
        split
        · exact .of_eq rfl
        · rename_i dummy hdummy
          have hat : SignaturesAt ctx.flags (.checkMultiSig required) s.stack
              ((s.stack.drop (keyCount + 2)).take sigCount) :=
            signaturesAt_of_countAt hkeys hsigs hdummy
          generalize (s.stack.drop (keyCount + 2)).take sigCount = sigs at hat ⊢
          generalize (s.stack.drop 1).take keyCount = keys
          rw [show scriptCode ctx { s with opCount := s.opCount + keyCount } = scriptCode ctx s
            from rfl]
          have hmatch := matchKeys_asks ctx (withoutSignatures (scriptCode ctx s) sigs) sigs keys
            { s with opCount := s.opCount + keyCount }
          have hasked : Asked (Question ctx (scriptCode ctx s) s.stack (.checkMultiSig required)) s
              (matchKeys ctx (withoutSignatures (scriptCode ctx s) sigs) sigs keys
                { s with opCount := s.opCount + keyCount }).2 := by
            refine (Asked.of_eq rfl).trans (hmatch.mono ?_)
            rintro call ⟨sig, hsig, key, -, hcall⟩
            exact .signature hat hsig hcall
          split
          · rename_i e asked hx
            rw [hx] at hasked
            exact hasked
          · rename_i valid asked hx
            rw [hx] at hasked
            split
            · exact hasked
            · exact hasked.trans (.of_eq (conclude_calls _ _ _ _ _ _))

theorem lockTime_asks (ctx : Context) (op : Opcode) (signed : Bytes) (s : State) :
    Asked (Question ctx signed s.stack .lockTime) s (lockTime ctx op s).state := by
  unfold lockTime
  split
  · rw [upgradableNop_state]
    exact .of_eq rfl
  · split
    · exact .of_eq rfl
    · split
      · exact .of_eq rfl
      · rename_i time htime
        split
        · exact .of_eq rfl
        · have hasked : Asked (Question ctx signed s.stack .lockTime) s
              (s.record (.lockTime time (ctx.checker.checkLockTime time))) :=
            .record (.lockTime time)
          dsimp only
          split
          · exact hasked
          · exact hasked

/-! ## Steps and runs -/

theorem perform_asks (ctx : Context) (c : Chunk) (s : State) :
    Asked (Question ctx (scriptCode ctx s) s.stack c.opcode.operation) s
      (perform ctx c s).state := by
  cases hlocal : isLocal c.opcode.operation with
  | true =>
      obtain ⟨stack, altStack, branches, hstate⟩ := perform_of_local ctx s hlocal
      exact .of_eq (by rw [hstate])
  | false =>
      unfold perform
      cases hop : c.opcode.operation with
      | lockTime => exact lockTime_asks ctx c.opcode _ s
      | codeSeparator => exact .of_eq rfl
      | checkSig required => exact checkSig_asks ctx required s
      | checkMultiSig required => exact checkMultiSig_asks ctx required s
      | _ => rw [hop] at hlocal; cases hlocal

theorem execute_asks (ctx : Context) (c : Chunk) (s : State) :
    Asked (Question ctx (scriptCode ctx s) s.stack c.opcode.operation) s
      (execute ctx c s).state := by
  rcases execute_cases ctx c s with ⟨-, -, hsame⟩ | ⟨stack, hnext⟩ | ⟨reason, hfail⟩
  · rw [hsame]
    exact perform_asks ctx c s
  · rw [hnext]
    exact .of_eq rfl
  · rw [hfail]
    exact .of_eq rfl

/-- A step only adds questions, and only those of its operation. -/
theorem step_asks (ctx : Context) (c : Chunk) (s : State) :
    Asked (Question ctx (scriptCode ctx s) s.stack c.opcode.operation) s (step ctx c s).state := by
  unfold step
  split
  · rename_i reason t ht
    rcases state_of_accept_error ht with rfl | rfl
    · exact .of_eq rfl
    · exact .of_eq (counted_calls c s)
  · rename_i t ht
    obtain ⟨-, -, -, rfl⟩ := accept_eq_ok_iff.mp ht
    have hexecute := execute_asks ctx c (counted c s)
    rw [scriptCode, counted_codeStart, counted_stack] at hexecute
    rw [bounded_state]
    exact (Asked.of_eq (counted_calls c s)).trans hexecute

/-- The questions asked by the step of a chunk. -/
def askedBy (ctx : Context) (c : Chunk) (s : State) : List Call :=
  (step ctx c s).state.calls.drop s.calls.length

theorem step_calls (ctx : Context) (c : Chunk) (s : State) :
    (step ctx c s).state.calls = s.calls ++ askedBy ctx c s := by
  obtain ⟨asked, hcalls, -⟩ := step_asks ctx c s
  rw [askedBy, hcalls, List.drop_left]

theorem question_of_askedBy {ctx : Context} {c : Chunk} {s : State} {call : Call}
    (h : call ∈ askedBy ctx c s) :
    Question ctx (scriptCode ctx s) s.stack c.opcode.operation call := by
  obtain ⟨asked, hcalls, hasked⟩ := step_asks ctx c s
  rw [askedBy, hcalls, List.drop_left] at h
  exact hasked call h

/-- Every question of a run is an old one, or asked by the step of some chunk. -/
theorem exists_asked_of_run {ctx : Context} {cs : List Chunk} {s : State} {call : Call}
    (h : call ∈ (run ctx cs s).state.calls) :
    call ∈ s.calls ∨ ∃ n c t, Reaches ctx cs s n c t ∧ call ∈ askedBy ctx c t := by
  induction cs generalizing s with
  | nil =>
      simp only [run] at h
      split at h
      · exact Or.inl h
      · exact Or.inl h
  | cons c rest ih =>
      -- the step of `c` asks its questions at index zero
      have hfirst : call ∈ (step ctx c s).state.calls → call ∈ s.calls ∨
          ∃ n d t, Reaches ctx (c :: rest) s n d t ∧ call ∈ askedBy ctx d t := by
        intro hcall
        rw [step_calls] at hcall
        rcases List.mem_append.mp hcall with hold | hnew
        · exact Or.inl hold
        · exact Or.inr ⟨0, c, s, ⟨rfl, rfl⟩, hnew⟩
      simp only [run] at h
      split at h
      · rename_i t ht
        rcases ih h with hstep | ⟨n, d, u, ⟨hd, hu⟩, hcall⟩
        · exact hfirst (by rw [ht]; exact hstep)
        · refine Or.inr ⟨n + 1, d, u, ⟨hd, ?_⟩, hcall⟩
          rw [List.take_succ_cons, after?_cons ht, hu]
      · rename_i t ht
        exact hfirst (by rw [ht]; exact h)
      · rename_i reason t ht
        exact hfirst (by rw [ht]; exact h)

/-- A run forgets no question. -/
theorem run_calls (ctx : Context) (cs : List Chunk) (s : State) :
    ∃ asked, (run ctx cs s).state.calls = s.calls ++ asked := by
  induction cs generalizing s with
  | nil =>
      refine ⟨[], ?_⟩
      rw [List.append_nil, run]
      split <;> rfl
  | cons c rest ih =>
      have hstep := step_calls ctx c s
      simp only [run]
      split
      · rename_i t ht
        obtain ⟨asked, hasked⟩ := ih t
        rw [ht] at hstep
        exact ⟨askedBy ctx c s ++ asked, by rw [hasked, ← List.append_assoc, ← hstep]; rfl⟩
      · rename_i t ht
        rw [ht] at hstep
        exact ⟨_, hstep⟩
      · rename_i reason t ht
        rw [ht] at hstep
        exact ⟨_, hstep⟩

/-- What the step of a chunk asks, the run that comes to it has asked. -/
theorem mem_calls_of_reaches {ctx : Context} {cs : List Chunk} {start s : State} {n : Nat}
    {c : Chunk} {call : Call} (h : Reaches ctx cs start n c s) (hcall : call ∈ askedBy ctx c s) :
    call ∈ (run ctx cs start).state.calls := by
  obtain ⟨rest, hrun⟩ := exists_run_of_reaches h
  have hmem : call ∈ (step ctx c s).state.calls := by
    rw [step_calls]
    exact List.mem_append_right _ hcall
  rw [hrun, run]
  cases hstep : step ctx c s with
  | next t =>
      obtain ⟨asked, hasked⟩ := run_calls ctx rest t
      rw [hstep] at hmem
      dsimp only
      rw [hasked]
      exact List.mem_append_left _ hmem
  | done t =>
      rw [hstep] at hmem
      exact hmem
  | fail reason t =>
      rw [hstep] at hmem
      exact hmem

end Machine

theorem exists_asked_of_evaluate {checker : Checker} {flags : Flags} {p : Program} {stack : Stack}
    {call : Call} (h : call ∈ (evaluate checker flags p stack).calls) :
    ∃ n c t, Machine.Reaches ⟨flags, checker, p.bytes⟩ p.chunks { stack := stack } n c t ∧
      call ∈ Machine.askedBy ⟨flags, checker, p.bytes⟩ c t := by
  unfold evaluate at h
  split at h
  · cases h
  · rcases Machine.exists_asked_of_run h with hold | hnew
    · cases hold
    · exact hnew

theorem mem_calls_of_evaluate {checker : Checker} {flags : Flags} {p : Program} {stack : Stack}
    {n : Nat} {c : Chunk} {s : Machine.State} {call : Call}
    (hsize : p.size ≤ flags.limits.scriptSize)
    (hreach : Machine.Reaches ⟨flags, checker, p.bytes⟩ p.chunks { stack := stack } n c s)
    (hcall : call ∈ Machine.askedBy ⟨flags, checker, p.bytes⟩ c s) :
    call ∈ (evaluate checker flags p stack).calls := by
  rw [evaluate, if_neg (Nat.not_lt.mpr hsize)]
  exact Machine.mem_calls_of_reaches hreach hcall

end BitcoinScript
