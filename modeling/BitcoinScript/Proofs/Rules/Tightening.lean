import BitcoinScript.Proofs.Machine.Frame
import BitcoinScript.Proofs.Verification.Verdict
import BitcoinScript.Rules.RuleSet

/-!
# Tightening the rules

Most flags only add ways to fail, and three only take some away. `Flags.Relaxes f g` says that `f`
asks for no more than `g`: it has fewer of the first and more of the second, and agrees with `g` on
the two flags that change what a success is. Two flags interact with others. Without its own flag,
the lock time check is one of the opcodes reserved for upgrades, so it is discouraged along with
them; and the rule of the clean stack looks at another stack where scripts behind a hash are run.

A machine under `f` follows one under `g` step by step as long as the latter does not fail
(`step_follows`): the states agree in all but the questions asked of the checker, which carry the
flags and, for lock times, may not be asked at all.
-/

namespace BitcoinScript

/-- The flags that only add ways to fail. -/
def Flag.restricting : List Flag :=
  [.p2sh, .strictEncoding, .derSignatures, .lowS, .nullDummy, .minimalData,
    .discourageUpgradableNops, .cleanStack, .checkLockTime]

/-- The flags that only take away ways to fail. -/
def Flag.permitting : List Flag := [.monolith, .magnetic, .chronicle]

/-- `f` asks for no more than `g`. -/
structure Flags.Relaxes (f g : Flags) : Prop where
  genesis : f.genesis = g.genesis
  forkId : f.forkId = g.forkId
  restricting : ∀ x ∈ Flag.restricting, f.has x = true → g.has x = true
  permitting : ∀ x ∈ Flag.permitting, g.has x = true → f.has x = true
  lockTime : f.discourageUpgradableNops = true → f.checkLockTime = g.checkLockTime
  scriptHash : f.cleanStack = true → f.p2sh = g.p2sh

namespace Flags.Relaxes

variable {f g : Flags}

theorem minimalData (h : f.Relaxes g) (hf : f.minimalData = true) : g.minimalData = true :=
  h.restricting .minimalData (by decide) hf

theorem monolithOpcodes (h : f.Relaxes g) (hg : g.monolithOpcodes = true) :
    f.monolithOpcodes = true := by
  have h1 := h.permitting .monolith (by decide)
  have h2 := h.permitting .magnetic (by decide)
  have h3 := h.permitting .chronicle (by decide)
  simp only [Flags.has] at h1 h2 h3
  simp only [Flags.monolithOpcodes, Bool.or_eq_true, h.genesis] at hg ⊢
  rcases hg with ((hg | hg) | hg) | hg
  · exact Or.inl (Or.inl (Or.inl (h1 hg)))
  · exact Or.inl (Or.inl (Or.inr (h2 hg)))
  · exact Or.inl (Or.inr hg)
  · exact Or.inr (h3 hg)

/-- The limits agree, but for the number of operations, which may only grow. -/
theorem limits (h : f.Relaxes g) :
    f.limits = { g.limits with operations := f.limits.operations } ∧
      g.limits.operations ≤ f.limits.operations := by
  have hmagnetic := h.permitting .magnetic (by decide)
  simp only [Flags.has] at hmagnetic
  unfold Flags.limits
  rw [h.genesis]
  cases g.genesis with
  | true => exact ⟨rfl, Nat.le_refl _⟩
  | false =>
      refine ⟨rfl, ?_⟩
      simp only [Bool.false_eq_true, if_false, Limits.standard]
      cases hg : g.magnetic with
      | true => simp [hmagnetic hg]
      | false => cases f.magnetic <;> decide

theorem scriptSize (h : f.Relaxes g) : f.limits.scriptSize = g.limits.scriptSize := by
  rw [h.limits.1]

theorem elementSize (h : f.Relaxes g) : f.limits.elementSize = g.limits.elementSize := by
  rw [h.limits.1]

theorem numberSize (h : f.Relaxes g) : f.limits.numberSize = g.limits.numberSize := by
  rw [h.limits.1]

theorem multiSigKeys (h : f.Relaxes g) : f.limits.multiSigKeys = g.limits.multiSigKeys := by
  rw [h.limits.1]

theorem stackBound (h : f.Relaxes g) : f.limits.stack = g.limits.stack := by
  rw [h.limits.1]

end Flags.Relaxes

/-- The checker gives the same answers about signatures under both sets of flags. -/
def Checker.AgreesOn (checker : Checker) (f g : Flags) : Prop :=
  ∀ sig key code, checker.checkSignature sig key code f = checker.checkSignature sig key code g

/-- The checker of a spend looks at one flag only. -/
theorem Spend.checker_agreesOn (spend : Spend) {f g : Flags} (h : f.forkId = g.forkId) :
    spend.checker.AgreesOn f g := by
  have hdigest : ∀ code t, Digest.signatureDigest spend.tx spend.input code spend.amount t f =
      Digest.signatureDigest spend.tx spend.input code spend.amount t g := by
    intro code t
    rw [Digest.signatureDigest, Digest.signatureDigest, Digest.usesFork, Digest.usesFork, h]
  intro sig key code
  simp only [Spend.checker, Spend.checkSignature]
  split
  · rfl
  · rw [hdigest]

/-! ## The form of signatures and keys -/

namespace Encoding

variable {f g : Flags}

theorem checkStrict_of_relaxes (h : f.Relaxes g) {sig : Bytes} (hg : checkStrict sig g = .ok ()) :
    checkStrict sig f = .ok () := by
  have hlow := h.restricting .lowS (by decide)
  simp only [Flags.has] at hlow
  unfold checkStrict at hg ⊢
  cases hs : strictS sig with
  | error cause => rw [hs] at hg; cases hg
  | ok s =>
      simp only [hs] at hg ⊢
      split at hg
      · cases hg
      · rename_i hno
        rw [if_neg]
        intro hf
        simp only [Bool.and_eq_true] at hf hno
        exact hno ⟨hlow hf.1, hf.2⟩

theorem checkHashType_of_relaxes (h : f.Relaxes g) (t : HashType) :
    checkHashType t f = checkHashType t g := by
  simp only [checkHashType, h.forkId]

theorem checkSignature_of_relaxes (h : f.Relaxes g) {sig : Bytes}
    (hg : checkSignature sig g = .ok ()) : checkSignature sig f = .ok () := by
  have hder := h.restricting .derSignatures (by decide)
  have hlow := h.restricting .lowS (by decide)
  have henc := h.restricting .strictEncoding (by decide)
  simp only [Flags.has] at hder hlow henc
  unfold checkSignature at hg ⊢
  cases hlast : sig.getLast? with
  | none => rfl
  | some hashByte =>
      simp only [hlast] at hg ⊢
      -- the two rules are checked one after the other, so both hold under `g`
      have hstrict : (if (f.derSignatures || f.lowS || f.strictEncoding) = true
          then checkStrict sig f else .ok ()) = .ok () := by
        split
        · rename_i hf
          have hg' : (g.derSignatures || g.lowS || g.strictEncoding) = true := by
            simp only [Bool.or_eq_true] at hf ⊢
            rcases hf with (hf | hf) | hf
            · exact Or.inl (Or.inl (hder hf))
            · exact Or.inl (Or.inr (hlow hf))
            · exact Or.inr (henc hf)
          rw [if_pos hg'] at hg
          apply checkStrict_of_relaxes h
          cases hx : checkStrict sig g with
          | error e => rw [hx] at hg; cases hg
          | ok u => rfl
        · rfl
      rw [hstrict]
      simp only
      split
      · rename_i hf
        rw [checkHashType_of_relaxes h]
        rw [if_pos (henc hf)] at hg
        split at hg
        · cases hg
        · exact hg
      · rfl

theorem checkPublicKey_of_relaxes (h : f.Relaxes g) {key : Bytes}
    (hg : checkPublicKey key g = .ok ()) : checkPublicKey key f = .ok () := by
  have henc := h.restricting .strictEncoding (by decide)
  simp only [Flags.has] at henc
  unfold checkPublicKey at hg ⊢
  split at hg
  · cases hg
  · rename_i hno
    rw [if_neg]
    intro hf
    simp only [Bool.and_eq_true] at hf hno
    exact hno ⟨henc hf.1, hf.2⟩

end Encoding

namespace Machine

variable {f g : Flags}

/-! ## Results on the stack -/

/-- Every result of `x` is one of `y`. -/
def Keeps {α : Type} (x y : Except Reason α) : Prop := ∀ a, x = .ok a → y = .ok a

theorem Keeps.refl {α : Type} (x : Except Reason α) : Keeps x x := fun _ h => h

theorem toInt_of_relaxes (h : f.Relaxes g) {x : Item} {maxSize : Nat} {n : Int}
    (hx : x.toInt g.minimalData maxSize = .ok n) : x.toInt f.minimalData maxSize = .ok n := by
  simp only [Item.toInt_eq, Number.decode] at hx ⊢
  split at hx
  · cases hx
  · rename_i hsize
    rw [if_neg hsize]
    split at hx
    · cases hx
    · rename_i hno
      rw [if_neg, hx]
      intro hf
      simp only [Bool.and_eq_true] at hf hno
      exact hno ⟨h.minimalData hf.1, hf.2⟩

/-- A number that is accepted under `g` is the same number under `f`. -/
theorem number_keeps (h : f.Relaxes g) (x : Item) : Keeps (number g x) (number f x) := by
  intro n hn
  unfold number at hn ⊢
  rw [h.numberSize]
  split at hn
  · rename_i a ha
    rw [toInt_of_relaxes h ha]
    exact hn
  · cases hn

theorem pair_keeps (h : f.Relaxes g) (x y : Item) : Keeps (pair g x y) (pair f x y) := by
  intro ab hab
  unfold pair at hab ⊢
  split at hab
  · rename_i a ha
    rw [number_keeps h x a ha]
    split at hab
    · rename_i b hb
      rw [number_keeps h y b hb]
      exact hab
    · cases hab
  · cases hab

theorem fetch_keeps (h : f.Relaxes g) (takeOut : Bool) (s : Stack) :
    Keeps (fetch g takeOut s) (fetch f takeOut s) := by
  intro t ht
  unfold fetch at ht ⊢
  split at ht
  · cases ht
  · rename_i index rest
    split at ht
    · cases ht
    · rename_i n hn
      simp only [number_keeps h index n hn]
      exact ht

theorem split_keeps (h : f.Relaxes g) (s : Stack) : Keeps (split g s) (split f s) := by
  intro t ht
  unfold Machine.split at ht ⊢
  split at ht
  · cases ht
  · rename_i position rest
    split at ht
    · cases ht
    · rename_i n hn
      simp only [number_keeps h position n hn]
      exact ht

theorem numToBin_keeps (h : f.Relaxes g) (alt s : Stack) :
    Keeps (numToBin g alt s) (numToBin f alt s) := by
  intro t ht
  unfold numToBin at ht ⊢
  split at ht
  · cases ht
  · rename_i size rest
    split at ht
    · cases ht
    · rename_i n hn
      simp only [number_keeps h size n hn, h.elementSize, h.stackBound]
      exact ht

theorem unary_keeps (h : f.Relaxes g) (op : UnaryOp) (s : Stack) :
    Keeps (unary g op s) (unary f op s) := by
  intro t ht
  unfold unary at ht ⊢
  split at ht
  · rename_i x rest
    split at ht
    · rename_i a ha
      simp only [number_keeps h x a ha]
      exact ht
    · cases ht
  · cases ht

theorem binary_keeps (h : f.Relaxes g) (op : BinaryOp) (s : Stack) :
    Keeps (binary g op s) (binary f op s) := by
  intro t ht
  unfold binary at ht ⊢
  split at ht
  · rename_i y x rest
    split at ht
    · rename_i a b hab
      simp only [pair_keeps h x y _ hab]
      exact ht
    · cases ht
  · cases ht

theorem numEqualVerify_keeps (h : f.Relaxes g) (s : Stack) :
    Keeps (numEqualVerify g s) (numEqualVerify f s) := by
  intro t ht
  unfold numEqualVerify at ht ⊢
  split at ht
  · rename_i y x rest
    split at ht
    · rename_i a b hab
      simp only [pair_keeps h x y _ hab]
      exact ht
    · cases ht
  · cases ht

theorem within_keeps (h : f.Relaxes g) (s : Stack) : Keeps (within g s) (within f s) := by
  intro t ht
  unfold within at ht ⊢
  split at ht
  · rename_i high low x rest
    split at ht
    · rename_i n a hna
      split at ht
      · rename_i b hb
        simp only [pair_keeps h x low _ hna, number_keeps h high b hb]
        exact ht
      · cases ht
    · cases ht
  · cases ht

theorem cat_keeps (h : f.Relaxes g) (s : Stack) : Keeps (cat g.limits s) (cat f.limits s) := by
  intro t ht
  unfold cat at ht ⊢
  rw [h.elementSize]
  exact ht

theorem binToNum_keeps (h : f.Relaxes g) (s : Stack) :
    Keeps (binToNum g.limits s) (binToNum f.limits s) := by
  intro t ht
  unfold binToNum at ht ⊢
  rw [h.numberSize]
  exact ht

theorem countAt_keeps (h : f.Relaxes g) (i bound : Nat) (e : MultiSigError) (s : Stack) :
    Keeps (countAt g i bound e s) (countAt f i bound e s) := by
  intro n hn
  unfold countAt at hn ⊢
  split at hn
  · cases hn
  · rename_i x hx
    split at hn
    · cases hn
    · rename_i m hm
      simp only [number_keeps h x m hm]
      exact hn

/-! ## One machine following another -/

/-- Unless the first outcome is a failure, the second one is the same, questions aside. -/
def Follows : Outcome → Outcome → Prop
  | .next s, .next t => Alike s t
  | .done s, .done t => Alike s t
  | .fail _ _, _ => True
  | _, _ => False

theorem withStack_follows {s t : State} (hst : Alike s t) {x y : Except Reason Stack}
    (h : Keeps x y) : Follows (s.withStack x) (t.withStack y) := by
  obtain ⟨calls, rfl⟩ := hst
  cases x with
  | error e => trivial
  | ok stack =>
      rw [h stack rfl]
      exact ⟨calls, rfl⟩

theorem upgradableNop_follows (h : f.Relaxes g) (op : Opcode) {s t : State} (hst : Alike s t) :
    Follows (upgradableNop g op s) (upgradableNop f op t) := by
  have hnops := h.restricting .discourageUpgradableNops (by decide)
  simp only [Flags.has] at hnops
  unfold upgradableNop
  split
  · trivial
  · rename_i hg
    rw [if_neg (fun hf => hg (hnops hf))]
    exact hst

/-! ### Operations on more than the stack -/

theorem openBranch_follows (negated : Bool) {s t : State} (hst : Alike s t) :
    Follows (openBranch negated s) (openBranch negated t) := by
  obtain ⟨calls, rfl⟩ := hst
  unfold openBranch State.executing
  dsimp only
  cases s.branches.all id with
  | false => exact ⟨calls, rfl⟩
  | true =>
      cases s.stack with
      | nil => trivial
      | cons x rest => exact ⟨calls, rfl⟩

theorem turnBranch_follows {s t : State} (hst : Alike s t) :
    Follows (turnBranch s) (turnBranch t) := by
  obtain ⟨calls, rfl⟩ := hst
  unfold turnBranch
  dsimp only
  cases s.branches with
  | nil => trivial
  | cons b rest => exact ⟨calls, rfl⟩

theorem closeBranch_follows {s t : State} (hst : Alike s t) :
    Follows (closeBranch s) (closeBranch t) := by
  obtain ⟨calls, rfl⟩ := hst
  unfold closeBranch
  dsimp only
  cases s.branches with
  | nil => trivial
  | cons b rest => exact ⟨calls, rfl⟩

theorem exit_follows (h : f.Relaxes g) {s t : State} (hst : Alike s t) :
    Follows (exit g s) (exit f t) := by
  unfold exit
  rw [h.genesis]
  cases g.genesis with
  | false => trivial
  | true => exact hst

theorem toAlt_follows {s t : State} (hst : Alike s t) : Follows (toAlt s) (toAlt t) := by
  obtain ⟨calls, rfl⟩ := hst
  unfold toAlt
  dsimp only
  cases s.stack with
  | nil => trivial
  | cons x rest => exact ⟨calls, rfl⟩

theorem fromAlt_follows {s t : State} (hst : Alike s t) : Follows (fromAlt s) (fromAlt t) := by
  obtain ⟨calls, rfl⟩ := hst
  unfold fromAlt
  dsimp only
  cases s.altStack with
  | nil => trivial
  | cons x rest => exact ⟨calls, rfl⟩

theorem shift_follows (h : f.Relaxes g) (d : Direction) {s t : State} (hst : Alike s t) :
    Follows (shift g d s) (shift f d t) := by
  obtain ⟨calls, rfl⟩ := hst
  unfold shift
  dsimp only
  cases s.stack with
  | nil => trivial
  | cons count rest =>
      dsimp only
      cases hn : number g count with
      | error e => trivial
      | ok n =>
          rw [number_keeps h count n hn]
          dsimp only
          split
          · trivial
          · cases rest with
            | nil => trivial
            | cons x below => exact ⟨calls, rfl⟩

section Contexts

variable {checker : Checker} {script : Bytes}

/-- Under the looser rules lock times may not be checked at all; then the opcode does nothing, as it
is not discouraged either. -/
theorem lockTime_follows (h : f.Relaxes g) (op : Opcode) {s t : State} (hst : Alike s t) :
    Follows (lockTime ⟨g, checker, script⟩ op s) (lockTime ⟨f, checker, script⟩ op t) := by
  have hlock := h.restricting .checkLockTime (by decide)
  simp only [Flags.has] at hlock
  unfold lockTime
  simp only [h.genesis]
  by_cases hoff : (!g.checkLockTime || g.genesis) = true
  · have hoff' : (!f.checkLockTime || g.genesis) = true := by
      simp only [Bool.or_eq_true, Bool.not_eq_true'] at hoff ⊢
      rcases hoff with hg | hg
      · exact Or.inl (by
          cases hf : f.checkLockTime with
          | false => rfl
          | true => rw [hlock hf] at hg; cases hg)
      · exact Or.inr hg
    rw [if_pos hoff, if_pos hoff']
    exact upgradableNop_follows h op hst
  · rw [if_neg hoff]
    simp only [Bool.or_eq_true, Bool.not_eq_true', not_or, Bool.not_eq_false] at hoff
    obtain ⟨calls, rfl⟩ := hst
    split
    · trivial
    · rename_i x rest hx
      split
      · trivial
      · rename_i time htime
        split
        · trivial
        · rename_i hpos
          split
          · rename_i hanswer
            by_cases hf : f.checkLockTime = true
            · simp only [hf, Bool.not_true, Bool.false_or, hoff.2, hx, if_false,
                toInt_of_relaxes h htime, hpos, hanswer, if_true]
              exact ⟨calls ++ [.lockTime time true], by simp only [State.record, hx]⟩
            · have hnops : ¬ f.discourageUpgradableNops = true := by
                intro hnops
                exact hf ((h.lockTime hnops).trans hoff.1)
              simp only [hf, Bool.not_false, Bool.true_or, if_true, upgradableNop, hnops]
              exact ⟨calls, rfl⟩
          · trivial

/-- A signature check that does not fail has the same answer under the looser rules. -/
theorem checkPair_follows (h : f.Relaxes g) (hc : checker.AgreesOn f g)
    {code : Bytes} {sig key : Item} {s t s' : State} {valid : Bool} (hst : Alike s t)
    (hg : checkPair ⟨g, checker, script⟩ code sig key s = (.ok valid, s')) :
    ∃ t', checkPair ⟨f, checker, script⟩ code sig key t = (.ok valid, t') ∧ Alike s' t' := by
  unfold checkPair at hg ⊢
  simp only at hg ⊢
  split at hg
  · cases hg
  · rename_i hsig
    rw [Encoding.checkSignature_of_relaxes h hsig]
    split at hg
    · cases hg
    · rename_i hkey
      rw [Encoding.checkPublicKey_of_relaxes h hkey]
      simp only
      split at hg
      · rename_i hempty
        cases hg
        exact ⟨t, by rw [if_pos hempty], hst⟩
      · rename_i hsome
        rw [if_neg hsome, hc sig.bytes key.bytes code]
        split at hg
        · cases hg
        · rename_i v hv
          cases hg
          exact ⟨_, by rw [hv], hst.record _ _⟩

theorem matchKeys_follows (h : f.Relaxes g) (hc : checker.AgreesOn f g)
    {code : Bytes} {sigs keys : List Item} {s t s' : State} {valid : Bool} (hst : Alike s t)
    (hg : matchKeys ⟨g, checker, script⟩ code sigs keys s = (.ok valid, s')) :
    ∃ t', matchKeys ⟨f, checker, script⟩ code sigs keys t = (.ok valid, t') ∧ Alike s' t' := by
  induction keys generalizing sigs s t with
  | nil =>
      cases sigs with
      | nil =>
          simp only [matchKeys] at hg ⊢
          cases hg
          exact ⟨t, rfl, hst⟩
      | cons sig sigs =>
          simp only [matchKeys] at hg ⊢
          cases hg
          exact ⟨t, rfl, hst⟩
  | cons key keys ih =>
      cases sigs with
      | nil =>
          simp only [matchKeys] at hg ⊢
          cases hg
          exact ⟨t, rfl, hst⟩
      | cons sig sigs =>
          simp only [matchKeys] at hg ⊢
          split at hg
          · cases hg
          · rename_i v asked hpair
            obtain ⟨t₁, ht₁, halike⟩ := checkPair_follows h hc hst hpair
            simp only [ht₁]
            generalize (if v = true then sigs else sig :: sigs) = left at hg ⊢
            split at hg
            · rename_i hleft
              cases hg
              exact ⟨t₁, by rw [if_pos hleft], halike⟩
            · rename_i hleft
              rw [if_neg hleft]
              exact ih halike hg

theorem conclude_follows (op : Opcode) (required valid : Bool) (p : Provenance) (rest : Stack)
    {s t : State} (hst : Alike s t) :
    Follows (conclude op required valid p rest s) (conclude op required valid p rest t) := by
  obtain ⟨calls, rfl⟩ := hst
  unfold conclude
  split
  · split
    · exact ⟨calls, rfl⟩
    · trivial
  · exact ⟨calls, rfl⟩

theorem checkSig_follows (h : f.Relaxes g) (hc : checker.AgreesOn f g) (required : Bool)
    {s t : State} (hst : Alike s t) :
    Follows (checkSig ⟨g, checker, script⟩ required s)
      (checkSig ⟨f, checker, script⟩ required t) := by
  obtain ⟨calls, rfl⟩ := hst
  unfold checkSig
  simp only [scriptCode]
  split
  · rename_i key sig rest hstack
    split
    · trivial
    · rename_i valid asked hpair
      obtain ⟨t', ht', halike⟩ := checkPair_follows h hc ⟨calls, rfl⟩ hpair
      rw [ht']
      exact conclude_follows _ _ _ _ _ halike
  · trivial

theorem checkMultiSig_follows (h : f.Relaxes g) (hc : checker.AgreesOn f g) (required : Bool)
    {s t : State} (hst : Alike s t) :
    Follows (checkMultiSig ⟨g, checker, script⟩ required s)
      (checkMultiSig ⟨f, checker, script⟩ required t) := by
  have hdummy := h.restricting .nullDummy (by decide)
  simp only [Flags.has] at hdummy
  have hops := h.limits.2
  obtain ⟨calls, rfl⟩ := hst
  unfold checkMultiSig
  simp only [Context.limits, h.multiSigKeys, scriptCode]
  split
  · trivial
  · rename_i keyCount hkeys
    simp only [countAt_keeps h _ _ _ _ _ hkeys]
    split
    · trivial
    · rename_i hcount
      rw [if_neg (by omega)]
      split
      · trivial
      · rename_i sigCount hsigs
        simp only [countAt_keeps h _ _ _ _ _ hsigs]
        split
        · trivial
        · rename_i dummy hitem
          split
          · trivial
          · rename_i valid asked hmatch
            obtain ⟨t', ht', halike⟩ := matchKeys_follows h hc ⟨calls, rfl⟩ hmatch
            simp only [ht']
            split
            · trivial
            · rename_i hno
              rw [if_neg]
              · exact conclude_follows _ _ _ _ _ halike
              · intro hf
                simp only [Bool.and_eq_true] at hf hno
                exact hno ⟨hdummy hf.1, hf.2⟩

theorem perform_follows (h : f.Relaxes g) (hc : checker.AgreesOn f g) (c : Chunk) {s t : State}
    (hst : Alike s t) :
    Follows (perform ⟨g, checker, script⟩ c s) (perform ⟨f, checker, script⟩ c t) := by
  obtain ⟨calls, rfl⟩ := hst
  have hst : Alike s { s with calls := calls } := ⟨calls, rfl⟩
  unfold perform
  cases c.opcode.operation with
  | bad => trivial
  | smallInt n => exact ⟨calls, rfl⟩
  | nop => exact hst
  | upgradableNop => exact upgradableNop_follows h c.opcode hst
  | lockTime => exact lockTime_follows h c.opcode hst
  | openBranch negated => exact openBranch_follows negated hst
  | turnBranch => exact turnBranch_follows hst
  | closeBranch => exact closeBranch_follows hst
  | verify => exact withStack_follows hst (Keeps.refl _)
  | exit => exact exit_follows h hst
  | toAlt => exact toAlt_follows hst
  | fromAlt => exact fromAlt_follows hst
  | stack op => exact withStack_follows hst (Keeps.refl _)
  | dupIfTrue => exact withStack_follows hst (Keeps.refl _)
  | depth => exact ⟨calls, rfl⟩
  | fetch takeOut => exact withStack_follows hst (fetch_keeps h takeOut s.stack)
  | cat => exact withStack_follows hst (cat_keeps h s.stack)
  | split => exact withStack_follows hst (split_keeps h s.stack)
  | numToBin => exact withStack_follows hst (numToBin_keeps h s.altStack s.stack)
  | binToNum => exact withStack_follows hst (binToNum_keeps h s.stack)
  | size => exact withStack_follows hst (Keeps.refl _)
  | invert => exact withStack_follows hst (Keeps.refl _)
  | bitwise op => exact withStack_follows hst (Keeps.refl _)
  | equal => exact withStack_follows hst (Keeps.refl _)
  | equalVerify => exact withStack_follows hst (Keeps.refl _)
  | shift d => exact shift_follows h d hst
  | unary op => exact withStack_follows hst (unary_keeps h op s.stack)
  | binary op => exact withStack_follows hst (binary_keeps h op s.stack)
  | numEqualVerify => exact withStack_follows hst (numEqualVerify_keeps h s.stack)
  | within => exact withStack_follows hst (within_keeps h s.stack)
  | hash op => exact withStack_follows hst (Keeps.refl _)
  | codeSeparator => exact ⟨calls, rfl⟩
  | checkSig required => exact checkSig_follows h hc required hst
  | checkMultiSig required => exact checkMultiSig_follows h hc required hst

/-! ### Steps and runs -/

theorem isDisabled_of_relaxes (h : f.Relaxes g) {op : Opcode} (hg : op.isDisabled g = false) :
    op.isDisabled f = false := by
  simp only [Opcode.isDisabled, Bool.or_eq_false_iff, Bool.and_eq_false_iff,
    Bool.not_eq_false'] at hg ⊢
  exact ⟨hg.1, hg.2.imp id h.monolithOpcodes⟩

theorem accept_of_relaxes (h : f.Relaxes g) {c : Chunk} {s t s' : State} (hst : Alike s t)
    (hg : accept ⟨g, checker, script⟩ c s = .ok s') :
    ∃ t', accept ⟨f, checker, script⟩ c t = .ok t' ∧ Alike s' t' := by
  have hops := h.limits.2
  obtain ⟨calls, rfl⟩ := hst
  obtain ⟨hlong, hdisabled, hcount, rfl⟩ := accept_eq_ok_iff.mp hg
  refine ⟨counted c { s with calls := calls }, accept_eq_ok_iff.mpr ⟨?_, ?_, ?_, rfl⟩, ?_⟩
  · unfold isTooLong Context.limits at hlong ⊢
    rw [h.elementSize]
    exact hlong
  · exact isDisabled_of_relaxes h hdisabled
  · intro hcounted
    exact Nat.lt_of_lt_of_le (hcount hcounted) hops
  · unfold counted
    split
    · exact ⟨calls, rfl⟩
    · exact ⟨calls, rfl⟩

theorem execute_follows (h : f.Relaxes g) (hc : checker.AgreesOn f g) (c : Chunk) {s t : State}
    (hst : Alike s t) :
    Follows (execute ⟨g, checker, script⟩ c s) (execute ⟨f, checker, script⟩ c t) := by
  have hexec : t.executing = s.executing := by
    obtain ⟨calls, rfl⟩ := hst
    rfl
  unfold execute isPerformed
  cases c.payload with
  | some data =>
      dsimp only
      rw [hexec]
      split
      · split
        · trivial
        · rename_i hminimal
          rw [if_neg]
          · obtain ⟨calls, rfl⟩ := hst
            exact ⟨calls, rfl⟩
          · intro hf
            simp only [Bool.and_eq_true] at hf hminimal
            exact hminimal ⟨h.minimalData hf.1, hf.2⟩
      · exact hst
  | none =>
      dsimp only
      rw [hexec]
      split
      · exact perform_follows h hc c hst
      · exact hst

theorem checkBound_of_relaxes (h : f.Relaxes g) {s t : State} (hst : Alike s t) :
    checkBound ⟨f, checker, script⟩ t = checkBound ⟨g, checker, script⟩ s := by
  obtain ⟨calls, rfl⟩ := hst
  simp only [checkBound, Context.limits, h.stackBound]
  rfl

theorem bounded_follows (h : f.Relaxes g) {o o' : Outcome} (ho : Follows o o') :
    Follows (bounded ⟨g, checker, script⟩ o) (bounded ⟨f, checker, script⟩ o') := by
  cases o with
  | fail reason s => trivial
  | next s =>
      cases o' with
      | next t =>
          simp only [bounded, checkBound_of_relaxes h ho]
          split
          · exact ho
          · trivial
      | done t => exact ho.elim
      | fail reason t => exact ho.elim
  | done s =>
      cases o' with
      | done t =>
          simp only [bounded, checkBound_of_relaxes h ho]
          split
          · exact ho
          · trivial
      | next t => exact ho.elim
      | fail reason t => exact ho.elim

/-- One step under the looser rules follows one under the stricter rules. -/
theorem step_follows (h : f.Relaxes g) (hc : checker.AgreesOn f g) (c : Chunk) {s t : State}
    (hst : Alike s t) :
    Follows (step ⟨g, checker, script⟩ c s) (step ⟨f, checker, script⟩ c t) := by
  unfold step
  split
  · trivial
  · rename_i s' hs'
    obtain ⟨t', ht', halike⟩ := accept_of_relaxes h hst hs'
    rw [ht']
    exact bounded_follows h (execute_follows h hc c halike)

/-- A run that does not fail ends alike under the looser rules. -/
theorem run_follows (h : f.Relaxes g) (hc : checker.AgreesOn f g) {cs : List Chunk} {s t : State}
    (hst : Alike s t) (hg : (run ⟨g, checker, script⟩ cs s).failure = none) :
    (run ⟨f, checker, script⟩ cs t).failure = none ∧
      Alike (run ⟨g, checker, script⟩ cs s).state (run ⟨f, checker, script⟩ cs t).state := by
  induction cs generalizing s t with
  | nil =>
      have hbranches : t.branches = s.branches := by
        obtain ⟨calls, rfl⟩ := hst
        rfl
      simp only [run, hbranches] at hg ⊢
      split
      · exact ⟨rfl, hst⟩
      · rename_i hopen
        rw [if_neg hopen] at hg
        cases hg
  | cons c rest ih =>
      have hstep : Follows (step ⟨g, checker, script⟩ c s) (step ⟨f, checker, script⟩ c t) :=
        step_follows h hc c hst
      simp only [run] at hg ⊢
      cases hs : step ⟨g, checker, script⟩ c s with
      | fail reason s' => rw [hs] at hg; cases hg
      | next s' =>
          cases ht : step ⟨f, checker, script⟩ c t with
          | next t' =>
              rw [hs, ht] at hstep
              rw [hs] at hg
              exact ih hstep hg
          | done t' => rw [hs, ht] at hstep; exact hstep.elim
          | fail reason t' => rw [hs, ht] at hstep; exact hstep.elim
      | done s' =>
          cases ht : step ⟨f, checker, script⟩ c t with
          | done t' =>
              rw [hs, ht] at hstep
              exact ⟨rfl, hstep⟩
          | next t' => rw [hs, ht] at hstep; exact hstep.elim
          | fail reason t' => rw [hs, ht] at hstep; exact hstep.elim

end Contexts

end Machine

/-! ## Evaluations and spends -/

section Verdicts

variable {f g : Flags} {checker : Checker}

theorem evaluate_of_relaxes (h : f.Relaxes g) (hc : checker.AgreesOn f g) {p : Program}
    {stack : Stack} {b : Bool} (hg : (evaluate checker g p stack).outcome = .ok b) :
    (evaluate checker f p stack).outcome = .ok b ∧
      (evaluate checker f p stack).stack = (evaluate checker g p stack).stack := by
  obtain ⟨hsize, r, hr, hnone, htop⟩ := evaluate_eq_ok_iff.mp hg
  subst hr
  obtain ⟨hnone', calls, hstate⟩ := Machine.run_follows h hc (Machine.Alike.refl _) hnone
  have hstack := congrArg Machine.State.stack hstate
  have hsize' : p.size ≤ f.limits.scriptSize := by rw [h.scriptSize]; exact hsize
  refine ⟨evaluate_eq_ok_iff.mpr ⟨hsize', _, rfl, hnone', ?_⟩, ?_⟩
  · rw [hstack]
    exact htop
  · rw [evaluate_stack hsize', evaluate_stack hsize, hstack]

namespace Verification

theorem finish_of_relaxes (h : f.Relaxes g) {stack : Stack}
    (hg : (finish g stack []).verdict = .ok ()) : (finish f stack []).verdict = .ok () := by
  have hclean := h.restricting .cleanStack (by decide)
  rw [finish_verdict_iff] at hg ⊢
  intro hf
  exact hg (hclean hf)

theorem redeem_of_relaxes (h : f.Relaxes g) (hc : checker.AgreesOn f g) {pushed : Stack}
    (hg : (redeem checker g pushed []).verdict = .ok ()) :
    (redeem checker f pushed []).verdict = .ok () := by
  have hclean := h.restricting .cleanStack (by decide)
  rw [redeem_verdict_iff] at hg ⊢
  obtain ⟨r, below, p, hpushed, hp, htrue, hlast⟩ := hg
  obtain ⟨htrue', hstack⟩ := evaluate_of_relaxes h hc htrue
  refine ⟨r, below, p, hpushed, hp, htrue', ?_⟩
  intro hf
  rw [hstack]
  exact hlast (hclean hf)

theorem ofPrograms_of_relaxes (h : f.Relaxes g) (hc : checker.AgreesOn f g)
    {unlocking locking : Program}
    (hg : (ofPrograms checker g unlocking locking).verdict = .ok ()) :
    (ofPrograms checker f unlocking locking).verdict = .ok () := by
  have hp2sh := h.restricting .p2sh (by decide)
  rw [ofPrograms_verdict_iff] at hg ⊢
  obtain ⟨hpush, b, hfirst, hsecond, hend⟩ := hg
  obtain ⟨hfirst', hstack⟩ := evaluate_of_relaxes h hc hfirst
  obtain ⟨hsecond', hlast⟩ := evaluate_of_relaxes h hc hsecond
  rw [hstack, hlast, h.genesis]
  refine ⟨hpush, b, hfirst', hsecond', ?_⟩
  by_cases hf : (f.p2sh && !g.genesis && locking.isP2sh) = true
  · have hg : (g.p2sh && !g.genesis && locking.isP2sh) = true := by
      simp only [Bool.and_eq_true] at hf ⊢
      exact ⟨⟨hp2sh hf.1.1, hf.1.2⟩, hf.2⟩
    rw [if_pos hg] at hend
    rw [if_pos hf]
    exact ⟨hend.1, redeem_of_relaxes h hc hend.2⟩
  · rw [if_neg hf]
    by_cases hg : (g.p2sh && !g.genesis && locking.isP2sh) = true
    · -- only the stricter rules run the script behind the hash, so the looser ones cannot ask for
      -- a clean stack
      rw [finish_verdict_iff]
      intro hclean
      rw [← h.scriptHash hclean] at hg
      exact absurd hg hf
    · rw [if_neg hg] at hend
      exact finish_of_relaxes h hend

end Verification

/-- **Tightening the rules never makes an invalid spend valid.** What succeeds under `g` succeeds
under rules `f` that ask for no more, with the same answer and the same stack, for every checker
that does not tell the two apart; the checker of a spend does not. -/
theorem success_of_tightened_rules (h : f.Relaxes g) :
    (∀ spend : Spend, spend.checker.AgreesOn f g) ∧
    ∀ checker : Checker, checker.AgreesOn f g →
      (∀ (p : Program) (stack : Stack) (b : Bool),
        (evaluate checker g p stack).outcome = .ok b →
          (evaluate checker f p stack).outcome = .ok b ∧
            (evaluate checker f p stack).stack = (evaluate checker g p stack).stack) ∧
      ∀ unlocking locking : Bytes,
        (verifySpend checker g unlocking locking).verdict = .ok () →
          (verifySpend checker f unlocking locking).verdict = .ok () := by
  refine ⟨fun spend => spend.checker_agreesOn h.forkId, fun checker hc => ⟨?_, ?_⟩⟩
  · intro p stack b hg
    exact evaluate_of_relaxes h hc hg
  · intro unlocking locking hg
    rw [verifySpend_verdict_iff] at hg ⊢
    obtain ⟨u, l, hu, hl, hverdict⟩ := hg
    exact ⟨u, l, hu, hl, Verification.ofPrograms_of_relaxes h hc hverdict⟩

end Verdicts

/-- Relay policy only tightens the rules it is applied to. -/
theorem RuleSet.relaxes_withPolicy (r : RuleSet) : r.flags.Relaxes r.withPolicy.flags where
  genesis := by simp [RuleSet.withPolicy, Flags.union, Flags.ofPred, Flags.ofList, Flags.has]
  forkId := by simp [RuleSet.withPolicy, Flags.union, Flags.ofPred, Flags.ofList, Flags.has]
  restricting := by
    intro x _ hx
    simp [RuleSet.withPolicy, hx]
  permitting := by
    intro x hx hpolicy
    have hcases : r.flags.has x = true ∨ x = .minimalData ∨ x = .discourageUpgradableNops := by
      simpa [RuleSet.withPolicy, Flags.ofList] using hpolicy
    rcases hcases with h | rfl | rfl
    · exact h
    · exact absurd hx (by decide)
    · exact absurd hx (by decide)
  lockTime := by simp [RuleSet.withPolicy, Flags.union, Flags.ofPred, Flags.ofList, Flags.has]
  scriptHash := by simp [RuleSet.withPolicy, Flags.union, Flags.ofPred, Flags.ofList, Flags.has]

/-- A script that succeeds under the policy of the magnetic rules succeeds under these rules. -/
theorem success_of_magnetic_policy :
    (RuleSet.ofEpoch .magnetic).flags.Relaxes (RuleSet.ofEpoch .magnetic).withPolicy.flags ∧
      (evaluate .absent (RuleSet.ofEpoch .magnetic).flags
        ⟨[⟨⟨0x51⟩, none, 0⟩], [0x51]⟩ []).outcome = .ok true :=
  have h := RuleSet.relaxes_withPolicy (.ofEpoch .magnetic)
  ⟨h, (((success_of_tightened_rules h).2 .absent (fun _ _ _ => rfl)).1
    ⟨[⟨⟨0x51⟩, none, 0⟩], [0x51]⟩ [] true rfl).1⟩

end BitcoinScript
