import Mathlib.Data.List.NodupEquivFin
import BitcoinScript.Proofs.Machine.Calls

/-!
# Which signatures match which keys

A check of several signatures goes once through the keys. It keeps the first signature that has no
key yet, tries it on the next key, and goes on with the next signature if the key fits. It gives up
when fewer keys than signatures are left.

That never misses anything: if the signatures can be assigned to keys in order at all, then also
with the first key that fits the first signature (`sublistForall₂_cons_cons_iff`), since whatever
comes later in the assignment comes after that key too. So the answer is whether there is a strictly
increasing map from the positions of the signatures to those of their keys.
-/

namespace BitcoinScript

open List

/-! ## Assignments in order -/

section Assignments

variable {α β : Type} {R : α → β → Prop} {x : α} {y : β} {xs : List α} {ys : List β}

theorem length_le_of_sublistForall₂ (h : SublistForall₂ R xs ys) : xs.length ≤ ys.length := by
  obtain ⟨zs, hpairs, hsublist⟩ := sublistForall₂_iff.mp h
  have hlength := hpairs.length_eq
  have hle := hsublist.length_le
  omega

/-- Without its first element, a list is still assigned in order. -/
theorem sublistForall₂_of_cons (h : SublistForall₂ R (x :: xs) ys) : SublistForall₂ R xs ys := by
  induction ys with
  | nil => cases h
  | cons y ys ih =>
      cases h with
      | cons hxy hrest => exact hrest.cons_right
      | cons_right hrest => exact (ih hrest).cons_right

/-- The first element may take the first partner it is related to: whatever assignment there is, the
others have later partners. -/
theorem sublistForall₂_cons_cons_iff (h : R x y) :
    SublistForall₂ R (x :: xs) (y :: ys) ↔ SublistForall₂ R xs ys := by
  constructor
  · intro hassigned
    cases hassigned with
    | cons hxy hrest => exact hrest
    | cons_right hrest => exact sublistForall₂_of_cons hrest
  · intro hrest
    exact .cons h hrest

theorem sublistForall₂_cons_cons_iff_of_not (h : ¬ R x y) :
    SublistForall₂ R (x :: xs) (y :: ys) ↔ SublistForall₂ R (x :: xs) ys := by
  constructor
  · intro hassigned
    cases hassigned with
    | cons hxy hrest => exact absurd hxy h
    | cons_right hrest => exact hrest
  · intro hrest
    exact hrest.cons_right

/-- A list is assigned in order if a strictly increasing map takes positions to positions of
partners. -/
theorem sublistForall₂_iff_strictMono :
    SublistForall₂ R xs ys ↔
      ∃ p : Fin xs.length → Fin ys.length, StrictMono p ∧ ∀ i, R (xs.get i) (ys.get (p i)) := by
  rw [sublistForall₂_iff]
  constructor
  · rintro ⟨zs, hpairs, hsublist⟩
    obtain ⟨f, hf⟩ := sublist_iff_exists_fin_orderEmbedding_get_eq.mp hsublist
    obtain ⟨hlength, hget⟩ := forall₂_iff_get.mp hpairs
    refine ⟨fun i => f (Fin.cast hlength i), ?_, ?_⟩
    · intro i j hij
      exact f.strictMono hij
    · intro i
      rw [← hf]
      exact hget i.val i.isLt (Fin.cast hlength i).isLt
  · rintro ⟨p, hmono, hrel⟩
    have hlength : (ofFn fun i => ys.get (p i)).length = xs.length := length_ofFn
    refine ⟨ofFn fun i => ys.get (p i), forall₂_iff_get.mpr ⟨hlength.symm, ?_⟩, ?_⟩
    · intro i hi hi'
      rw [get_ofFn]
      exact hrel ⟨i, hi⟩
    · apply sublist_iff_exists_fin_orderEmbedding_get_eq.mpr
      have hcast : StrictMono fun i => p (Fin.cast hlength i) := fun i j hij => hmono hij
      refine ⟨OrderEmbedding.ofStrictMono _ hcast, ?_⟩
      intro i
      rw [get_ofFn]
      rfl

end Assignments

namespace Machine

/-! ## The walk through the keys -/

/-- The signature is not empty, and the checker accepts it for the key and the script code. -/
def Signs (ctx : Context) (code : Bytes) (sig key : Item) : Prop :=
  sig.size ≠ 0 ∧ ctx.checker.checkSignature sig.bytes key.bytes code ctx.flags = .ok true

section Walk

variable {ctx : Context} {code : Bytes} {s t : State} {valid : Bool}

theorem valid_iff_signs {sig key : Item} (h : checkPair ctx code sig key s = (.ok valid, t)) :
    valid = true ↔ Signs ctx code sig key := by
  unfold checkPair at h
  split at h
  · cases h
  · split at h
    · cases h
    · split at h
      · rename_i hempty
        cases h
        constructor
        · intro hfalse
          cases hfalse
        · intro hsigns
          exact absurd hempty hsigns.1
      · rename_i hsize
        dsimp only at h
        split at h
        · cases h
        · rename_i answer hanswer
          cases h
          unfold Signs
          rw [hanswer]
          constructor
          · rintro rfl
            exact ⟨hsize, rfl⟩
          · rintro ⟨-, hok⟩
            cases hok
            rfl

/-- A walk that is not broken off by an error tells whether the signatures are assigned to keys in
order, whatever the keys that it does not come to. -/
theorem valid_iff_assigned {sigs keys : List Item}
    (h : matchKeys ctx code sigs keys s = (.ok valid, t)) :
    valid = true ↔ SublistForall₂ (Signs ctx code) sigs keys := by
  induction keys generalizing sigs s with
  | nil =>
      cases sigs with
      | nil =>
          cases h
          exact ⟨fun _ => .nil, fun _ => rfl⟩
      | cons sig sigs =>
          cases h
          constructor
          · intro hfalse
            cases hfalse
          · intro hassigned
            cases hassigned
  | cons key keys ih =>
      cases sigs with
      | nil =>
          cases h
          exact ⟨fun _ => .nil, fun _ => rfl⟩
      | cons sig sigs =>
          simp only [matchKeys] at h
          split at h
          · cases h
          · rename_i fits asked hpair
            have hfits := valid_iff_signs hpair
            -- what is left to assign, to the keys after this one
            have hleft : SublistForall₂ (Signs ctx code) (sig :: sigs) (key :: keys) ↔
                SublistForall₂ (Signs ctx code) (if fits = true then sigs else sig :: sigs)
                  keys := by
              by_cases hsigns : Signs ctx code sig key
              · rw [if_pos (hfits.mpr hsigns)]
                exact sublistForall₂_cons_cons_iff hsigns
              · rw [if_neg fun hf => hsigns (hfits.mp hf)]
                exact sublistForall₂_cons_cons_iff_of_not hsigns
            rw [hleft]
            generalize (if fits = true then sigs else sig :: sigs) = left at h ⊢
            split at h
            · rename_i htoomany
              cases h
              constructor
              · intro hfalse
                cases hfalse
              · intro hassigned
                have hle := length_le_of_sublistForall₂ hassigned
                omega
            · exact ih h

end Walk

/-! ## The operation -/

theorem number_eq_countAt {flags : Flags} {i bound n : Nat} {e : MultiSigError} {s : Stack}
    {x : Item} (hx : s[i]? = some x) (hn : number flags x = .ok (n : Int)) (hbound : n ≤ bound) :
    countAt flags i bound e s = .ok n := by
  have hrange : (0 : Int) ≤ n ∧ (n : Int) ≤ bound := by omega
  simp only [countAt, hx, hn, hrange, and_self, if_true, Int.toNat_natCast]

/-- The operands of a check of several signatures whose counts are accepted, from the top of the
stack down. -/
structure Accepted (ctx : Context) (s : State) (keys sigs : List Item) (dummy : Item)
    (rest : Stack) : Prop where
  operands : ∃ keyCount sigCount, number ctx.flags keyCount = .ok (keys.length : Int) ∧
    number ctx.flags sigCount = .ok (sigs.length : Int) ∧
    s.stack = keyCount :: keys ++ sigCount :: sigs ++ dummy :: rest
  keys_le : keys.length ≤ ctx.limits.multiSigKeys
  sigs_le : sigs.length ≤ keys.length
  counted : s.opCount + keys.length ≤ ctx.limits.operations

/-- Where the operands are accepted, the operation is the walk and what it makes of its answer. -/
theorem checkMultiSig_of_accepted {ctx : Context} {s : State} {keys sigs : List Item}
    {dummy : Item} {rest : Stack} (h : Accepted ctx s keys sigs dummy rest) (required : Bool) :
    checkMultiSig ctx required s =
      match matchKeys ctx (withoutSignatures (scriptCode ctx s) sigs) sigs keys
          { s with opCount := s.opCount + keys.length } with
      | (.error e, asked) => .fail e asked
      | (.ok valid, asked) =>
          if ctx.flags.nullDummy && dummy.size != 0 then
            .fail (.multiSig (.dummy dummy.size)) asked
          else
            conclude Opcode.checkMultiSigVerify required valid
              (Stack.provenance (s.stack.take (keys.length + sigs.length + 3))) rest asked := by
  obtain ⟨⟨keyCount, sigCount, hkeys, hsigs, hstack⟩, hkeysLe, hsigsLe, hcounted⟩ := h
  have hsecond : s.stack[keys.length + 1]? = some sigCount := by simp [hstack]
  have hfirst := number_eq_countAt (e := .keyCount)
    (show s.stack[0]? = some keyCount by simp [hstack]) hkeys hkeysLe
  have hsecond' := number_eq_countAt (e := .signatureCount) hsecond hsigs hsigsLe
  have hdummy : s.stack[keys.length + sigs.length + 2]? = some dummy := by
    have hindex : keys.length + sigs.length + 2 =
        (keyCount :: keys ++ sigCount :: sigs).length := by
      simp
      omega
    rw [hstack, hindex, List.getElem?_append_right (Nat.le_refl _), Nat.sub_self]
    rfl
  have htake : (s.stack.drop 1).take keys.length = keys := by simp [hstack]
  have hdrop : (s.stack.drop (keys.length + 2)).take sigs.length = sigs := by
    have hlength : keys.length + 2 = (keyCount :: keys ++ [sigCount]).length := by simp
    have hcut : keyCount :: keys ++ sigCount :: sigs ++ dummy :: rest =
        (keyCount :: keys ++ [sigCount]) ++ (sigs ++ dummy :: rest) := by simp
    rw [hstack, hcut, hlength, List.drop_left, List.take_left]
  have hrest : s.stack.drop (keys.length + sigs.length + 3) = rest := by
    have hlength : keys.length + sigs.length + 3 =
        (keyCount :: keys ++ sigCount :: sigs ++ [dummy]).length := by
      simp
      omega
    have hcut : keyCount :: keys ++ sigCount :: sigs ++ dummy :: rest =
        (keyCount :: keys ++ sigCount :: sigs ++ [dummy]) ++ rest := by simp
    rw [hstack, hcut, hlength, List.drop_left]
  have hnot : ¬ s.opCount + keys.length > ctx.limits.operations := by omega
  simp only [checkMultiSig, hfirst, hnot, if_false, hsecond', hdummy, htake, hdrop, hrest]
  rfl

end Machine

open Machine

/-- **The check of several signatures decides matching in order.** Where its operands are accepted,
it goes through the keys. If no error breaks that off, the answer is whether a strictly increasing
map takes every signature to a key that it signs for, and that answer is what the operation
concludes with, once the extra item has passed. -/
theorem multisig_decides_matching {ctx : Context} {s asked : State} {keys sigs : List Item}
    {dummy : Item} {rest : Stack} {valid : Bool} (h : Accepted ctx s keys sigs dummy rest)
    (hwalk : matchKeys ctx (withoutSignatures (scriptCode ctx s) sigs) sigs keys
      { s with opCount := s.opCount + keys.length } = (.ok valid, asked)) :
    (valid = true ↔ ∃ p : Fin sigs.length → Fin keys.length, StrictMono p ∧
      ∀ i, Signs ctx (withoutSignatures (scriptCode ctx s) sigs) (sigs.get i) (keys.get (p i))) ∧
    ∀ required, checkMultiSig ctx required s =
      if ctx.flags.nullDummy && dummy.size != 0 then .fail (.multiSig (.dummy dummy.size)) asked
      else
        conclude Opcode.checkMultiSigVerify required valid
          (Stack.provenance (s.stack.take (keys.length + sigs.length + 3))) rest asked := by
  constructor
  · rw [valid_iff_assigned hwalk, sublistForall₂_iff_strictMono]
  · intro required
    rw [checkMultiSig_of_accepted h, hwalk]

/-- The machine with a checker that accepts two pairs of a signature and a key. -/
def twoPairs : Context := ⟨{}, .listed [([0x01], [0x0b]), ([0x02], [0x0c])] none, []⟩

/-- Three keys, of which the checker knows the last two. -/
def threeKeys : List Item := [.literal [0x0a], .literal [0x0b], .literal [0x0c]]

/-- The signatures for these two. -/
def twoSignatures : List Item := [.literal [0x01], .literal [0x02]]

/-- The operands of their check. -/
def twoOfThree : State where
  stack := .literal [0x03] :: threeKeys ++ .literal [0x02] :: twoSignatures ++ .literal [] :: []

theorem accepted_twoOfThree :
    Accepted twoPairs twoOfThree threeKeys twoSignatures (.literal []) [] :=
  ⟨⟨.literal [0x03], .literal [0x02], rfl, rfl, rfl⟩, by decide, by decide, by decide⟩

theorem listed_of_signs {code : Bytes} {sig key : Item} (h : Signs twoPairs code sig key) :
    (sig.bytes, key.bytes) ∈ [([0x01], [0x0b]), ([0x02], [0x0c])] :=
  List.contains_iff_mem.mp (Except.ok.inj h.2)

/-- Two signatures that sign for the last two of three keys. -/
theorem multisig_of_last_keys :
    ∃ p : Fin 2 → Fin 3, StrictMono p ∧
      ∀ i, (([[0x01], [0x02]] : List Bytes).get i, ([[0x0a], [0x0b], [0x0c]] : List Bytes).get (p i))
        ∈ [([0x01], [0x0b]), ([0x02], [0x0c])] := by
  obtain ⟨p, hmono, hsigns⟩ := (multisig_decides_matching accepted_twoOfThree rfl).1.mp rfl
  have hsig : ∀ i : Fin 2, (twoSignatures.get i).bytes = [[0x01], [0x02]].get i := by decide
  have hkey : ∀ i : Fin 3, (threeKeys.get i).bytes = [[0x0a], [0x0b], [0x0c]].get i := by decide
  refine ⟨p, hmono, fun i => ?_⟩
  have hpair := congrArg₂ Prod.mk (hsig i) (hkey (p i))
  exact hpair ▸ listed_of_signs (hsigns i)

end BitcoinScript
