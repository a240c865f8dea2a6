import BitcoinScript.Signature.Digest

/-!
# What a digest depends on

A hash type leaves parts of the transaction open. `Digest.Agree t index tx tx'` says that two
transactions agree in all the other parts: version, lock time and the signing input always, all
spent outpoints unless anyone can pay, all sequences if moreover all outputs are signed, and the
outputs that are signed. Both digests are then the same (`digests_eq_of_agree`), although one is
made by blanking a copy of the transaction and the other from hashes of its parts.

Neither digest depends on the scripts and witnesses of the inputs, and the first one not on the
amount.
-/

namespace BitcoinScript

/-- The transaction with other unlocking scripts and witnesses. -/
def Transaction.withUnlocking (tx : Transaction) (script : Nat → Bytes)
    (witness : Nat → List Bytes) : Transaction :=
  { tx with
    inputs := tx.inputs.mapIdx fun n i => { i with script := script n, witness := witness n } }

namespace Digest

/-- Two transactions agree on all that a signature for input `index` commits to. -/
structure Agree (t : HashType) (index : Nat) (tx tx' : Transaction) : Prop where
  version : tx.version = tx'.version
  lockTime : tx.lockTime = tx'.lockTime
  previousAt : tx.inputs[index]?.map TxInput.previous = tx'.inputs[index]?.map TxInput.previous
  sequenceAt : tx.inputs[index]?.map TxInput.sequence = tx'.inputs[index]?.map TxInput.sequence
  previous : t.anyoneCanPay = false →
    tx.inputs.map TxInput.previous = tx'.inputs.map TxInput.previous
  sequences : t.anyoneCanPay = false → t.isNone = false → t.isSingle = false →
    tx.inputs.map TxInput.sequence = tx'.inputs.map TxInput.sequence
  outputs : t.isNone = false → t.isSingle = false → tx.outputs = tx'.outputs
  outputAt : t.isSingle = true → tx.outputs[index]? = tx'.outputs[index]?

section Parts

variable {t : HashType} {index : Nat} {tx tx' : Transaction}

/-- The signing inputs are there, and agree in what is signed of them. -/
theorem Agree.signing (h : Agree t index tx tx') (hindex : index < tx.inputs.length) :
    ∃ i i', tx.inputs[index]? = some i ∧ tx'.inputs[index]? = some i' ∧
      i.previous = i'.previous ∧ i.sequence = i'.sequence := by
  have hprevious := h.previousAt
  have hsequence := h.sequenceAt
  rw [List.getElem?_eq_getElem hindex] at hprevious hsequence
  cases hi : tx'.inputs[index]? with
  | none =>
      rw [hi] at hprevious
      cases hprevious
  | some i' =>
      rw [hi] at hprevious hsequence
      simp only [Option.map_some, Option.some.injEq] at hprevious hsequence
      exact ⟨_, i', List.getElem?_eq_getElem hindex, rfl, hprevious, hsequence⟩

/-! ## The blanked copy -/

theorem blankInput_congr {code : Bytes} {position : Nat} {i i' : TxInput}
    (hprevious : i.previous = i'.previous)
    (hsequence : position = index ∨ (t.isNone = false ∧ t.isSingle = false) →
      i.sequence = i'.sequence) :
    blankInput index code t position i = blankInput index code t position i' := by
  unfold blankInput
  split
  · rename_i hposition
    rw [hprevious, hsequence (Or.inl hposition)]
  · by_cases hopen : (t.isNone || t.isSingle) = true
    · rw [if_pos hopen, if_pos hopen, hprevious]
    · have hsigned : t.isNone = false ∧ t.isSingle = false := by
        simpa only [Bool.or_eq_true, not_or, Bool.not_eq_true] using hopen
      rw [if_neg hopen, if_neg hopen, hprevious, hsequence (Or.inr hsigned)]

theorem blankInput_self (code : Bytes) (i : TxInput) :
    blankInput index code t index i = ⟨i.previous, code, i.sequence, []⟩ := by
  simp only [blankInput, if_true]

theorem take_one_drop {α : Type} {xs : List α} {n : Nat} {x : α} (h : xs[n]? = some x) :
    (xs.drop n).take 1 = [x] := by
  obtain ⟨hlt, rfl⟩ := List.getElem?_eq_some_iff.mp h
  rw [List.drop_eq_getElem_cons hlt, List.take_succ_cons, List.take_zero]

/-- The blanked copy of the signing input, where it is the only one that is kept. -/
theorem signingInput_eq {inputs : List TxInput} {i : TxInput} {code : Bytes}
    (hi : inputs[index]? = some i) :
    ((inputs.mapIdx (blankInput index code t)).drop index).take 1 =
      [⟨i.previous, code, i.sequence, []⟩] := by
  rw [take_one_drop (x := blankInput index code t index i), blankInput_self]
  rw [List.getElem?_mapIdx, hi, Option.map_some]

theorem Agree.signedInputs_eq (h : Agree t index tx tx') (hindex : index < tx.inputs.length)
    (code : Bytes) :
    signedInputs index code t tx.inputs = signedInputs index code t tx'.inputs := by
  obtain ⟨i, i', hi, hi', hprevious, hsequence⟩ := h.signing hindex
  unfold signedInputs
  cases hopen : t.anyoneCanPay with
  | true =>
      simp only [if_true]
      rw [signingInput_eq hi, signingInput_eq hi', hprevious, hsequence]
  | false =>
      simp only [Bool.false_eq_true, if_false]
      apply List.ext_getElem?
      intro position
      have hall := congrArg (fun l : List OutPoint => l[position]?) (h.previous hopen)
      simp only [List.getElem?_map] at hall
      rw [List.getElem?_mapIdx, List.getElem?_mapIdx]
      cases hx : tx.inputs[position]? with
      | none =>
          rw [hx] at hall
          cases hx' : tx'.inputs[position]? with
          | none => rfl
          | some x' =>
              rw [hx'] at hall
              cases hall
      | some x =>
          rw [hx] at hall
          cases hx' : tx'.inputs[position]? with
          | none =>
              rw [hx'] at hall
              cases hall
          | some x' =>
              rw [hx'] at hall
              simp only [Option.map_some, Option.some.injEq] at hall ⊢
              refine blankInput_congr hall ?_
              rintro (rfl | ⟨hnone, hsingle⟩)
              · rw [hx] at hi
                rw [hx'] at hi'
                cases hi
                cases hi'
                exact hsequence
              · have hsequences := congrArg (fun l : List UInt32 => l[position]?)
                  (h.sequences hopen hnone hsingle)
                simpa [hx, hx'] using hsequences

theorem Agree.signedOutputs_eq (h : Agree t index tx tx')
    (houtput : t.isSingle = true → index < tx.outputs.length) :
    signedOutputs index t tx.outputs = signedOutputs index t tx'.outputs := by
  unfold signedOutputs
  cases hnone : t.isNone with
  | true => rfl
  | false =>
      cases hsingle : t.isSingle with
      | true =>
          have hlt := houtput hsingle
          have hat := h.outputAt hsingle
          have hsome := List.getElem?_eq_getElem hlt
          rw [hsome] at hat
          obtain ⟨hlt', -⟩ := List.getElem?_eq_some_iff.mp hat.symm
          simp only [Bool.false_eq_true, if_false, if_true, take_one_drop hsome,
            take_one_drop hat.symm]
          rw [Nat.min_eq_left (Nat.le_of_lt hlt), Nat.min_eq_left (Nat.le_of_lt hlt')]
      | false =>
          simp only [Bool.false_eq_true, if_false]
          exact h.outputs hnone hsingle

theorem Agree.length_outputs_le_iff (h : Agree t index tx tx') (hsingle : t.isSingle = true) :
    tx.outputs.length ≤ index ↔ tx'.outputs.length ≤ index := by
  rw [← List.getElem?_eq_none_iff, ← List.getElem?_eq_none_iff, h.outputAt hsingle]

theorem Agree.legacyPreimage_eq (h : Agree t index tx tx') (hindex : index < tx.inputs.length)
    (houtput : t.isSingle = true → index < tx.outputs.length) (code : Bytes) :
    legacyPreimage tx index code t = legacyPreimage tx' index code t := by
  have hcopy : signedCopy tx index code t = signedCopy tx' index code t := by
    unfold signedCopy
    rw [h.version, h.lockTime, h.signedInputs_eq hindex, h.signedOutputs_eq houtput]
  rw [legacyPreimage, legacyPreimage, hcopy]

/-! ## The hashes of the parts -/

theorem Agree.previousHash_eq (h : Agree t index tx tx') :
    previousHash tx t = previousHash tx' t := by
  unfold previousHash
  cases hopen : t.anyoneCanPay with
  | true => rw [if_pos rfl, if_pos rfl]
  | false =>
      have hjoin : ∀ inputs : List TxInput, (inputs.flatMap fun i => i.previous.serialize) =
          (inputs.map TxInput.previous).flatMap OutPoint.serialize := by
        intro inputs
        rw [List.flatMap_map]
      rw [hjoin, hjoin, h.previous hopen]

theorem Agree.sequenceHash_eq (h : Agree t index tx tx') :
    sequenceHash tx t = sequenceHash tx' t := by
  unfold sequenceHash
  by_cases hopen : (t.anyoneCanPay || t.isSingle || t.isNone) = true
  · rw [if_pos hopen, if_pos hopen]
  · simp only [Bool.or_eq_true, not_or, Bool.not_eq_true] at hopen
    obtain ⟨⟨hpay, hsingle⟩, hnone⟩ := hopen
    have hjoin : ∀ inputs : List TxInput, (inputs.flatMap fun i => uint32Bytes i.sequence) =
        (inputs.map TxInput.sequence).flatMap uint32Bytes := by
      intro inputs
      rw [List.flatMap_map]
    rw [hjoin, hjoin, h.sequences hpay hnone hsingle]

theorem Agree.outputsHash_eq (h : Agree t index tx tx') :
    outputsHash tx index t = outputsHash tx' index t := by
  unfold outputsHash
  cases hsingle : t.isSingle with
  | true =>
      simp only [if_true]
      rw [h.outputAt hsingle]
  | false =>
      cases hnone : t.isNone with
      | true => simp only [Bool.false_eq_true, if_false, if_true]
      | false => rw [h.outputs hnone hsingle]

end Parts

/-! ## Both digests -/

section Digests

variable {t : HashType} {index : Nat} {tx tx' : Transaction}

theorem Agree.legacyDigest_eq (h : Agree t index tx tx') (hindex : index < tx.inputs.length)
    (code : Bytes) :
    ∃ d, legacyDigest tx index code t = .ok d ∧ legacyDigest tx' index code t = .ok d := by
  obtain ⟨-, i', -, hi', -⟩ := h.signing hindex
  obtain ⟨hindex', -⟩ := List.getElem?_eq_some_iff.mp hi'
  unfold legacyDigest
  rw [if_pos hindex, if_pos hindex']
  by_cases hmissing : (t.isSingle && decide (tx.outputs.length ≤ index)) = true
  · simp only [Bool.and_eq_true, decide_eq_true_eq] at hmissing
    have hmissing' := (h.length_outputs_le_iff hmissing.1).mp hmissing.2
    simp [hmissing.1, hmissing.2, hmissing']
  · have houtput : t.isSingle = true → index < tx.outputs.length := by
      intro hsingle
      simpa [hsingle] using hmissing
    have hmissing' : ¬ (t.isSingle && decide (tx'.outputs.length ≤ index)) = true := by
      simp only [Bool.and_eq_true, decide_eq_true_eq] at hmissing ⊢
      rintro ⟨hsingle, hle⟩
      exact hmissing ⟨hsingle, (h.length_outputs_le_iff hsingle).mpr hle⟩
    rw [if_neg hmissing, if_neg hmissing', h.legacyPreimage_eq hindex houtput]
    exact ⟨_, rfl, rfl⟩

theorem Agree.forkDigest_eq (h : Agree t index tx tx') (hindex : index < tx.inputs.length)
    (code : Bytes) (amount : UInt64) :
    ∃ d, forkDigest tx index code amount t = .ok d ∧
      forkDigest tx' index code amount t = .ok d := by
  obtain ⟨i, i', hi, hi', hprevious, hsequence⟩ := h.signing hindex
  have hpreimage : forkPreimage tx index i code amount t =
      forkPreimage tx' index i' code amount t := by
    unfold forkPreimage
    rw [h.version, h.lockTime, h.previousHash_eq, h.sequenceHash_eq, h.outputsHash_eq, hprevious,
      hsequence]
  simp only [forkDigest, hi, hi', hpreimage]
  exact ⟨_, rfl, rfl⟩

theorem agree_withUnlocking (t : HashType) (index : Nat) (tx : Transaction) (script : Nat → Bytes)
    (witness : Nat → List Bytes) : Agree t index (tx.withUnlocking script witness) tx where
  version := rfl
  lockTime := rfl
  previousAt := by simp [Transaction.withUnlocking, Function.comp_def]
  sequenceAt := by simp [Transaction.withUnlocking, Function.comp_def]
  previous _ := by
    apply List.ext_getElem?
    simp [Transaction.withUnlocking, Function.comp_def]
  sequences _ _ _ := by
    apply List.ext_getElem?
    simp [Transaction.withUnlocking, Function.comp_def]
  outputs _ _ := rfl
  outputAt _ := rfl

theorem digests_withUnlocking (t : HashType) (index : Nat) (code : Bytes) (amount : UInt64)
    (tx : Transaction) (script : Nat → Bytes) (witness : Nat → List Bytes) :
    legacyDigest (tx.withUnlocking script witness) index code t = legacyDigest tx index code t ∧
      forkDigest (tx.withUnlocking script witness) index code amount t =
        forkDigest tx index code amount t := by
  have hlength : (tx.withUnlocking script witness).inputs.length = tx.inputs.length := by
    simp [Transaction.withUnlocking]
  by_cases hindex : index < tx.inputs.length
  · have hagree := agree_withUnlocking t index tx script witness
    rw [← hlength] at hindex
    obtain ⟨d, hd, hd'⟩ := hagree.legacyDigest_eq hindex code
    obtain ⟨f, hf, hf'⟩ := hagree.forkDigest_eq hindex code amount
    rw [hd, hd', hf, hf']
    exact ⟨rfl, rfl⟩
  · have hnone := List.getElem?_eq_none_iff.mpr (Nat.not_lt.mp hindex)
    have hnone' : (tx.withUnlocking script witness).inputs[index]? = none := by
      rw [List.getElem?_eq_none_iff, hlength]
      exact Nat.not_lt.mp hindex
    constructor
    · rw [legacyDigest, legacyDigest, hlength, if_neg hindex, if_neg hindex]
    · simp only [forkDigest, hnone, hnone', hlength]

end Digests

/-- **Digests ignore what the hash type leaves open.** Two transactions that agree in the other
parts have the same digests. In particular no digest depends on the unlocking scripts and witnesses
of the inputs, and none but the fork's on the amount. -/
theorem digests_eq_of_agree (t : HashType) (index : Nat) (code : Bytes) (amount : UInt64) :
    (∀ tx tx' : Transaction, index < tx.inputs.length → index < tx'.inputs.length →
      Agree t index tx tx' →
        (∃ d, legacyDigest tx index code t = .ok d ∧ legacyDigest tx' index code t = .ok d) ∧
        ∃ d, forkDigest tx index code amount t = .ok d ∧
          forkDigest tx' index code amount t = .ok d) ∧
    (∀ (tx : Transaction) (script : Nat → Bytes) (witness : Nat → List Bytes),
      legacyDigest (tx.withUnlocking script witness) index code t = legacyDigest tx index code t ∧
        forkDigest (tx.withUnlocking script witness) index code amount t =
          forkDigest tx index code amount t) ∧
    ∀ (tx : Transaction) (amount' : UInt64) (flags : Flags), usesFork t flags = false →
      signatureDigest tx index code amount t flags =
        signatureDigest tx index code amount' t flags := by
  refine ⟨?_, digests_withUnlocking t index code amount, ?_⟩
  · intro tx tx' hindex _ hagree
    exact ⟨hagree.legacyDigest_eq hindex code, hagree.forkDigest_eq hindex code amount⟩
  · intro tx amount' flags hlegacy
    simp only [signatureDigest, hlegacy, Bool.false_eq_true, if_false]

/-- One output signed by one input: another input, another output and another unlocking script
change nothing. -/
theorem digests_eq_of_added_parts :
    Agree ⟨0x83⟩ 0
        ⟨1, [⟨⟨.zero, 0⟩, [0x51], 5, []⟩], [⟨7, [0x51]⟩], 0⟩
        ⟨1, [⟨⟨.zero, 0⟩, [], 5, [[0x02]]⟩, ⟨⟨.zero, 1⟩, [], 6, []⟩], [⟨7, [0x51]⟩, ⟨8, []⟩], 0⟩ ∧
      ∃ d, legacyDigest ⟨1, [⟨⟨.zero, 0⟩, [0x51], 5, []⟩], [⟨7, [0x51]⟩], 0⟩ 0 [0xac] ⟨0x83⟩ =
          .ok d ∧
        legacyDigest ⟨1, [⟨⟨.zero, 0⟩, [], 5, [[0x02]]⟩, ⟨⟨.zero, 1⟩, [], 6, []⟩],
          [⟨7, [0x51]⟩, ⟨8, []⟩], 0⟩ 0 [0xac] ⟨0x83⟩ = .ok d := by
  have hagree : Agree ⟨0x83⟩ 0
      ⟨1, [⟨⟨.zero, 0⟩, [0x51], 5, []⟩], [⟨7, [0x51]⟩], 0⟩
      ⟨1, [⟨⟨.zero, 0⟩, [], 5, [[0x02]]⟩, ⟨⟨.zero, 1⟩, [], 6, []⟩], [⟨7, [0x51]⟩, ⟨8, []⟩], 0⟩ :=
    { version := rfl
      lockTime := rfl
      previousAt := rfl
      sequenceAt := rfl
      previous := fun h => absurd h (by decide)
      sequences := fun h => absurd h (by decide)
      outputs := fun _ h => absurd h (by decide)
      outputAt := fun _ => rfl }
  exact ⟨hagree, ((digests_eq_of_agree ⟨0x83⟩ 0 [0xac] 9).1 _ _ (by decide) (by decide) hagree).1⟩

end Digest

end BitcoinScript
