import BitcoinScript.Proofs.Signature.Commitment
import BitcoinScript.Proofs.Transaction.Codec

/-!
# What a digest binds

A digest depends on nothing but the parts its hash type selects. Here is the other direction: equal
digests come from equal parts, unless the hash function is to blame (`digests_bind`). No assumption
is made on the hash function. Instead the strings that were hashed are named (`forkStrings`), and
two of them have the same hash, or one has the hash zero.

The strings can be taken apart, because every part of them is read back from the front
(`Reader.Reads`). The hash type is written at the end of the string that is hashed last, so the
placeholder zero stands for the same parts on both sides, one case excepted: the one output to sign
may be missing on one side only.
-/

namespace BitcoinScript

open Reader

/-! ## The length of the script code -/

theorem Edit.length_removeCodeSeparators_le (script : Bytes) :
    (removeCodeSeparators script).length ≤ script.length := by
  fun_induction removeCodeSeparators script with
  | case1 script hnext => exact Nat.le_refl _
  | case2 script c rest hnext hseparator ih =>
      have hshorter := Chunk.length_lt_of_next? hnext
      omega
  | case3 script c rest hnext hseparator ih =>
      have hsplit := congrArg List.length (Chunk.encode_append_of_next? hnext)
      rw [List.length_append] at hsplit ⊢
      omega

theorem HashType.isNone_of_isSingle {t : HashType} (h : t.isSingle = true) : t.isNone = false := by
  have hbase : t.base = 3 := by simpa [isSingle] using h
  rw [isNone, hbase]
  rfl

theorem HashType.eq_of_bytes_eq {t t' : HashType} (h : uint32Bytes t.value = uint32Bytes t'.value) :
    t = t' := by
  have hvalue : t.value = t'.value := uint32_reads.inj trivial trivial h
  cases t
  cases t'
  cases hvalue
  rfl

namespace Digest

/-! ## Hashes -/

/-- Two different ones of the strings have the same hash. -/
def Collides (strings : List Bytes) : Prop :=
  ∃ a ∈ strings, ∃ b ∈ strings, a ≠ b ∧ Hash.hash256 a = Hash.hash256 b

/-- One of the strings has the hash zero. -/
def Vanishes (strings : List Bytes) : Prop := ∃ a ∈ strings, Hash.hash256 a = .zero

theorem eq_of_hash_eq {strings : List Bytes} (hfree : ¬ Collides strings) {a b : Bytes}
    (ha : a ∈ strings) (hb : b ∈ strings) (h : Hash.hash256 a = Hash.hash256 b) : a = b := by
  by_cases heq : a = b
  · exact heq
  · exact absurd ⟨a, ha, b, hb, heq, h⟩ hfree

/-- The hash of a part that is signed, and the placeholder for one that is not. -/
def hashOrZero : Option Bytes → Bytes32
  | some part => Hash.hash256 part
  | none => .zero

/-- The placeholder is told from all hashes, and the hashes from each other. -/
theorem eq_of_hashOrZero_eq {strings : List Bytes} (hfree : ¬ Collides strings)
    (hnonzero : ¬ Vanishes strings) {a b : Option Bytes} (ha : ∀ x ∈ a, x ∈ strings)
    (hb : ∀ x ∈ b, x ∈ strings) (h : hashOrZero a = hashOrZero b) : a = b := by
  cases a with
  | none =>
      cases b with
      | none => rfl
      | some y => exact absurd ⟨y, hb y rfl, h.symm⟩ hnonzero
  | some x =>
      cases b with
      | none => exact absurd ⟨x, ha x rfl, h⟩ hnonzero
      | some y => rw [eq_of_hash_eq hfree (ha x rfl) (hb y rfl) h]

/-! ## The strings hashed for the fork's digest -/

/-- The outpoints, if they are signed. -/
def previousPart (tx : Transaction) (t : HashType) : Option Bytes :=
  if t.anyoneCanPay then none
  else some ((tx.inputs.map TxInput.previous).flatMap OutPoint.serialize)

/-- The sequences, if they are signed. -/
def sequencePart (tx : Transaction) (t : HashType) : Option Bytes :=
  if t.anyoneCanPay || t.isSingle || t.isNone then none
  else some ((tx.inputs.map TxInput.sequence).flatMap uint32Bytes)

/-- The outputs, if there are some to be signed. -/
def outputsPart (tx : Transaction) (index : Nat) (t : HashType) : Option Bytes :=
  if t.isSingle then tx.outputs[index]?.map TxOutput.serialize
  else if t.isNone then none
  else some (tx.outputs.flatMap TxOutput.serialize)

/-- All strings that are hashed for the fork's digest. -/
def forkStrings (tx : Transaction) (index : Nat) (code : Bytes) (amount : UInt64) (t : HashType) :
    List Bytes :=
  (tx.inputs[index]?.map fun input => forkPreimage tx index input code amount t).toList ++
    (previousPart tx t).toList ++ (sequencePart tx t).toList ++ (outputsPart tx index t).toList

section Parts

variable {tx tx' : Transaction} {index : Nat} {t t' : HashType}

theorem mem_forkStrings {code part : Bytes} {amount : UInt64}
    (h : part ∈ previousPart tx t ∨ part ∈ sequencePart tx t ∨ part ∈ outputsPart tx index t) :
    part ∈ forkStrings tx index code amount t := by
  simp only [forkStrings, List.mem_append, Option.mem_toList]
  rcases h with h | h | h
  · exact Or.inl (Or.inl (Or.inr h))
  · exact Or.inl (Or.inr h)
  · exact Or.inr h

theorem previousHash_eq_part (tx : Transaction) (t : HashType) :
    previousHash tx t = hashOrZero (previousPart tx t) := by
  unfold previousHash previousPart
  rw [List.flatMap_map]
  split <;> rfl

theorem sequenceHash_eq_part (tx : Transaction) (t : HashType) :
    sequenceHash tx t = hashOrZero (sequencePart tx t) := by
  unfold sequenceHash sequencePart
  rw [List.flatMap_map]
  split <;> rfl

theorem outputsHash_eq_part (tx : Transaction) (index : Nat) (t : HashType) :
    outputsHash tx index t = hashOrZero (outputsPart tx index t) := by
  unfold outputsHash outputsPart
  split
  · cases tx.outputs[index]? <;> rfl
  · split <;> rfl

theorem previous_eq_of_part (h : previousPart tx t = previousPart tx' t)
    (hpay : t.anyoneCanPay = false) :
    tx.inputs.map TxInput.previous = tx'.inputs.map TxInput.previous := by
  simp only [previousPart, hpay, Bool.false_eq_true, if_false, Option.some.injEq] at h
  apply outPoint_reads.flatMap_inj
  · intro o hempty
    have hlength := congrArg List.length hempty
    simp [OutPoint.serialize, uint32Bytes] at hlength
  · exact fun _ _ => trivial
  · exact fun _ _ => trivial
  · exact h

theorem sequences_eq_of_part (h : sequencePart tx t = sequencePart tx' t)
    (hpay : t.anyoneCanPay = false) (hnone : t.isNone = false) (hsingle : t.isSingle = false) :
    tx.inputs.map TxInput.sequence = tx'.inputs.map TxInput.sequence := by
  simp only [sequencePart, hpay, hnone, hsingle, Bool.or_self, Bool.false_eq_true, if_false,
    Option.some.injEq] at h
  apply uint32_reads.flatMap_inj
  · intro n hempty
    have hlength := congrArg List.length hempty
    simp [uint32Bytes] at hlength
  · exact fun _ _ => trivial
  · exact fun _ _ => trivial
  · exact h

theorem outputs_eq_of_part (htx : tx.Representable) (htx' : tx'.Representable)
    (h : outputsPart tx index t = outputsPart tx' index t) (hnone : t.isNone = false)
    (hsingle : t.isSingle = false) : tx.outputs = tx'.outputs := by
  simp only [outputsPart, hnone, hsingle, Bool.false_eq_true, if_false, Option.some.injEq] at h
  apply output_reads.flatMap_inj
  · intro o hempty
    have hlength := congrArg List.length hempty
    simp [TxOutput.serialize, uint64Bytes] at hlength
  · exact htx.locking
  · exact htx'.locking
  · exact h

theorem output_eq_of_part (htx : tx.Representable) (htx' : tx'.Representable)
    (h : outputsPart tx index t = outputsPart tx' index t) (hsingle : t.isSingle = true) :
    tx.outputs[index]? = tx'.outputs[index]? := by
  simp only [outputsPart, hsingle, if_true] at h
  cases ho : tx.outputs[index]? with
  | none =>
      rw [ho, Option.map_none] at h
      exact (Option.map_eq_none_iff.mp h.symm).symm
  | some o =>
      rw [ho, Option.map_some] at h
      obtain ⟨o', ho', hserialize⟩ := Option.map_eq_some_iff.mp h.symm
      have hfits := htx.locking o (List.mem_of_getElem? ho)
      have hfits' := htx'.locking o' (List.mem_of_getElem? ho')
      rw [ho', output_reads.inj hfits' hfits hserialize]

end Parts

/-! ## The string hashed last -/

section Preimages

variable {tx tx' : Transaction} {index : Nat} {code code' : Bytes} {amount amount' : UInt64}
  {t t' : HashType}

/-- The string hashed for the fork's digest determines the fields that stand in it, and the hashes
of the parts. -/
theorem fields_of_forkPreimage_eq {i i' : TxInput} (hcode : code.length ≤ Limits.wordMax)
    (hcode' : code'.length ≤ Limits.wordMax)
    (h : forkPreimage tx index i code amount t = forkPreimage tx' index i' code' amount' t') :
    t = t' ∧ amount = amount' ∧ code = code' ∧ tx.version = tx'.version ∧
      tx.lockTime = tx'.lockTime ∧ i.previous = i'.previous ∧ i.sequence = i'.sequence ∧
      previousHash tx t = previousHash tx' t' ∧ sequenceHash tx t = sequenceHash tx' t' ∧
      outputsHash tx index t = outputsHash tx' index t' := by
  simp only [forkPreimage, List.append_assoc] at h
  obtain ⟨hversion, h⟩ := uint32_reads.append_inj trivial trivial h
  obtain ⟨hprevious, h⟩ := bytes32_reads.append_inj trivial trivial h
  obtain ⟨hsequences, h⟩ := bytes32_reads.append_inj trivial trivial h
  obtain ⟨hspent, h⟩ := outPoint_reads.append_inj trivial trivial h
  obtain ⟨hscript, h⟩ := sized_reads.append_inj hcode hcode' h
  obtain ⟨hamount, h⟩ := uint64_reads.append_inj trivial trivial h
  obtain ⟨hsequence, h⟩ := uint32_reads.append_inj trivial trivial h
  obtain ⟨houtputs, h⟩ := bytes32_reads.append_inj trivial trivial h
  obtain ⟨hlock, h⟩ := uint32_reads.append_inj trivial trivial h
  exact ⟨HashType.eq_of_bytes_eq h, hamount, hscript, hversion, hlock, hspent, hsequence,
    hprevious, hsequences, houtputs⟩

theorem exists_of_mem_signedInputs {inputs : List TxInput} {i : TxInput}
    (hi : i ∈ signedInputs index code t inputs) :
    ∃ position x, i = blankInput index code t position x := by
  have hmem : i ∈ inputs.mapIdx (blankInput index code t) := by
    unfold signedInputs at hi
    dsimp only at hi
    split at hi
    · exact List.mem_of_mem_drop (List.mem_of_mem_take hi)
    · exact hi
  obtain ⟨position, hlt, heq⟩ := List.mem_mapIdx.mp hmem
  exact ⟨position, _, heq.symm⟩

theorem length_signedInputs (inputs : List TxInput) :
    (signedInputs index code t inputs).length =
      if t.anyoneCanPay then min 1 (inputs.length - index) else inputs.length := by
  unfold signedInputs
  dsimp only
  split
  · rw [List.length_take, List.length_drop, List.length_mapIdx]
  · rw [List.length_mapIdx]

theorem representable_signedCopy (htx : tx.Representable) (hcode : code.length ≤ Limits.wordMax)
    (index : Nat) (t : HashType) : (signedCopy tx index code t).Representable := by
  have hinputs := htx.inputs
  have houtputs := htx.outputs
  constructor
  · show (signedInputs index _ t tx.inputs).length ≤ _
    rw [length_signedInputs]
    split <;> omega
  · intro i hi
    obtain ⟨position, x, rfl⟩ := exists_of_mem_signedInputs hi
    unfold blankInput
    split
    · exact Nat.le_trans (Edit.length_removeCodeSeparators_le code) hcode
    · exact Nat.zero_le _
  · show (signedOutputs index t tx.outputs).length ≤ _
    unfold signedOutputs
    split
    · exact Nat.zero_le _
    · split
      · rw [List.length_append, List.length_replicate, List.length_take, List.length_drop]
        omega
      · exact houtputs
  · intro o ho
    unfold signedCopy signedOutputs at ho
    dsimp only at ho
    split at ho
    · cases ho
    · split at ho
      · rcases List.mem_append.mp ho with hblank | hkept
        · rw [List.eq_of_mem_replicate hblank]
          exact Nat.zero_le _
        · exact htx.locking o (List.mem_of_mem_drop (List.mem_of_mem_take hkept))
      · exact htx.locking o ho

/-- What is signed can be read back: it has an input, and no witnesses. -/
theorem readable_signedCopy (htx : tx.Representable) (hcode : code.length ≤ Limits.wordMax)
    (hindex : index < tx.inputs.length) (t : HashType) :
    (signedCopy tx index code t).Representable ∧ (signedCopy tx index code t).inputs ≠ [] ∧
      ∀ i ∈ (signedCopy tx index code t).inputs, i.witness = [] := by
  refine ⟨representable_signedCopy htx hcode index t, ?_, ?_⟩
  · intro hempty
    have hlength : (signedInputs index (Edit.removeCodeSeparators code) t tx.inputs).length = 0 :=
      congrArg List.length hempty
    rw [length_signedInputs] at hlength
    split at hlength <;> omega
  · intro i hi
    obtain ⟨position, x, rfl⟩ := exists_of_mem_signedInputs hi
    unfold blankInput
    split <;> rfl

/-- The string hashed for the first digest determines the copy that is signed. -/
theorem copy_of_legacyPreimage_eq (htx : tx.Representable) (htx' : tx'.Representable)
    (hcode : code.length ≤ Limits.wordMax) (hcode' : code'.length ≤ Limits.wordMax)
    (hindex : index < tx.inputs.length) (hindex' : index < tx'.inputs.length)
    (h : legacyPreimage tx index code t = legacyPreimage tx' index code' t') :
    t = t' ∧ signedCopy tx index code t = signedCopy tx' index code' t' := by
  obtain ⟨hcopy, htype⟩ := transaction_reads.append_inj (readable_signedCopy htx hcode hindex t)
    (readable_signedCopy htx' hcode' hindex' t') h
  exact ⟨HashType.eq_of_bytes_eq htype, hcopy⟩

end Preimages

/-! ## What the copy that is signed determines -/

section Copy

variable {tx tx' : Transaction} {index : Nat} {code code' : Bytes} {t : HashType}

theorem blankInput_previous (index : Nat) (code : Bytes) (t : HashType) (position : Nat)
    (i : TxInput) : (blankInput index code t position i).previous = i.previous := by
  unfold blankInput
  split <;> rfl

theorem blankInput_sequence (index : Nat) (code : Bytes) {t : HashType} (hnone : t.isNone = false)
    (hsingle : t.isSingle = false) (position : Nat) (i : TxInput) :
    (blankInput index code t position i).sequence = i.sequence := by
  unfold blankInput
  split
  · rfl
  · simp only [hnone, hsingle, Bool.or_self, Bool.false_eq_true, if_false]

/-- What blanking keeps of every input is the same in two lists that are blanked to one. -/
theorem map_eq_of_blanked_eq {α : Type} {f : TxInput → α} {inputs inputs' : List TxInput}
    (hkept : ∀ code position i, f (blankInput index code t position i) = f i)
    (h : inputs.mapIdx (blankInput index code t) = inputs'.mapIdx (blankInput index code' t)) :
    inputs.map f = inputs'.map f := by
  have hmap : ∀ (inputs : List TxInput) (code : Bytes),
      (inputs.mapIdx (blankInput index code t)).map f = inputs.map f := by
    intro inputs code
    apply List.ext_getElem?
    intro position
    rw [List.getElem?_map, List.getElem?_mapIdx, List.getElem?_map, Option.map_map]
    congr 1
    funext i
    exact hkept code position i
  rw [← hmap inputs code, h, hmap]

/-- The signing input and the script code are in the copy, whether other inputs are or not. -/
theorem signing_eq_of_signedInputs_eq {inputs inputs' : List TxInput} {i i' : TxInput}
    (hi : inputs[index]? = some i) (hi' : inputs'[index]? = some i')
    (h : signedInputs index code t inputs = signedInputs index code' t inputs') :
    i.previous = i'.previous ∧ code = code' ∧ i.sequence = i'.sequence := by
  have hblank : (⟨i.previous, code, i.sequence, []⟩ : TxInput) =
      ⟨i'.previous, code', i'.sequence, []⟩ := by
    unfold signedInputs at h
    cases hpay : t.anyoneCanPay with
    | true =>
        simp only [hpay, if_true] at h
        rw [signingInput_eq hi, signingInput_eq hi'] at h
        exact (List.cons.inj h).1
    | false =>
        simp only [hpay, Bool.false_eq_true, if_false] at h
        have hat := congrArg (fun l : List TxInput => l[index]?) h
        simp only [List.getElem?_mapIdx, hi, hi', Option.map_some, Option.some.injEq,
          blankInput_self] at hat
        exact hat
  simp only [TxInput.mk.injEq] at hblank
  exact ⟨hblank.1, hblank.2.1, hblank.2.2.1⟩

/-- The only output to sign is missing. -/
def LacksOutput (t : HashType) (index : Nat) (tx : Transaction) : Prop :=
  t.isSingle = true ∧ tx.outputs.length ≤ index

theorem output_eq_of_signedOutputs_eq (hsingle : t.isSingle = true)
    (hlacks : ¬ LacksOutput t index tx) (hlacks' : ¬ LacksOutput t index tx')
    (h : signedOutputs index t tx.outputs = signedOutputs index t tx'.outputs) :
    tx.outputs[index]? = tx'.outputs[index]? := by
  have hlt : index < tx.outputs.length := Nat.not_le.mp fun hle => hlacks ⟨hsingle, hle⟩
  have hlt' : index < tx'.outputs.length := Nat.not_le.mp fun hle => hlacks' ⟨hsingle, hle⟩
  have ho := List.getElem?_eq_getElem hlt
  have ho' := List.getElem?_eq_getElem hlt'
  simp only [signedOutputs, HashType.isNone_of_isSingle hsingle, hsingle, Bool.false_eq_true,
    if_false, if_true, take_one_drop ho, take_one_drop ho', Nat.min_eq_left (Nat.le_of_lt hlt),
    Nat.min_eq_left (Nat.le_of_lt hlt')] at h
  have hlast := List.append_cancel_left h
  rw [ho, ho', (List.cons.inj hlast).1]

theorem agree_of_signedCopy_eq (hindex : index < tx.inputs.length)
    (hindex' : index < tx'.inputs.length) (hlacks : ¬ LacksOutput t index tx)
    (hlacks' : ¬ LacksOutput t index tx')
    (h : signedCopy tx index code t = signedCopy tx' index code' t) :
    Edit.removeCodeSeparators code = Edit.removeCodeSeparators code' ∧ Agree t index tx tx' := by
  simp only [signedCopy, Transaction.mk.injEq] at h
  obtain ⟨hversion, hinputs, houtputs, hlock⟩ := h
  have hi := List.getElem?_eq_getElem hindex
  have hi' := List.getElem?_eq_getElem hindex'
  obtain ⟨hprevious, hcode, hsequence⟩ := signing_eq_of_signedInputs_eq hi hi' hinputs
  have hblanked : t.anyoneCanPay = false →
      tx.inputs.mapIdx (blankInput index (Edit.removeCodeSeparators code) t) =
        tx'.inputs.mapIdx (blankInput index (Edit.removeCodeSeparators code') t) := by
    intro hpay
    simpa only [signedInputs, hpay, Bool.false_eq_true, if_false] using hinputs
  refine ⟨hcode, ?_⟩
  constructor
  · exact hversion
  · exact hlock
  · rw [hi, hi', Option.map_some, Option.map_some, hprevious]
  · rw [hi, hi', Option.map_some, Option.map_some, hsequence]
  · intro hpay
    exact map_eq_of_blanked_eq (fun code => blankInput_previous index code t) (hblanked hpay)
  · intro hpay hnone hsingle
    exact map_eq_of_blanked_eq (fun code => blankInput_sequence index code hnone hsingle)
      (hblanked hpay)
  · intro hnone hsingle
    simpa only [signedOutputs, hnone, hsingle, Bool.false_eq_true, if_false] using houtputs
  · intro hsingle
    exact output_eq_of_signedOutputs_eq hsingle hlacks hlacks' houtputs

end Copy

/-! ## Both digests -/

section Digests

variable {tx tx' : Transaction} {index : Nat} {code code' : Bytes} {amount amount' : UInt64}
  {t t' : HashType}

theorem legacyDigest_of_signed (hindex : index < tx.inputs.length)
    (hlacks : ¬ LacksOutput t index tx) (code : Bytes) :
    legacyDigest tx index code t = .ok (Hash.hash256 (legacyPreimage tx index code t)) := by
  have hsigned : ¬ (t.isSingle && decide (tx.outputs.length ≤ index)) = true := by
    intro hmissing
    simp only [Bool.and_eq_true, decide_eq_true_eq] at hmissing
    exact hlacks hmissing
  rw [legacyDigest, if_pos hindex, if_neg hsigned]

/-- Where no hash is to blame, the parts behind equal hashes are equal. -/
theorem agree_of_forkDigest_eq (htx : tx.Representable) (htx' : tx'.Representable)
    (hcode : code.length ≤ Limits.wordMax) (hcode' : code'.length ≤ Limits.wordMax)
    (hindex : index < tx.inputs.length) (hindex' : index < tx'.inputs.length)
    (hfree : ¬ Collides
      (forkStrings tx index code amount t ++ forkStrings tx' index code' amount' t'))
    (hnonzero : ¬ Vanishes
      (forkStrings tx index code amount t ++ forkStrings tx' index code' amount' t'))
    (h : forkDigest tx index code amount t = forkDigest tx' index code' amount' t') :
    t = t' ∧ amount = amount' ∧ code = code' ∧ Agree t index tx tx' := by
  have hi := List.getElem?_eq_getElem hindex
  have hi' := List.getElem?_eq_getElem hindex'
  simp only [forkDigest, hi, hi', Except.ok.injEq] at h
  -- the last strings are equal, hence also the hashes in them, and then the strings behind those
  have hlast := eq_of_hash_eq hfree (by simp [forkStrings, hi]) (by simp [forkStrings, hi']) h
  obtain ⟨rfl, rfl, rfl, hversion, hlock, hspent, hsequence, hprevious, hsequences, houtputs⟩ :=
    fields_of_forkPreimage_eq hcode hcode' hlast
  rw [previousHash_eq_part, previousHash_eq_part] at hprevious
  rw [sequenceHash_eq_part, sequenceHash_eq_part] at hsequences
  rw [outputsHash_eq_part, outputsHash_eq_part] at houtputs
  have hprevious' := eq_of_hashOrZero_eq hfree hnonzero
    (fun _ hx => List.mem_append_left _ (mem_forkStrings (Or.inl hx)))
    (fun _ hx => List.mem_append_right _ (mem_forkStrings (Or.inl hx))) hprevious
  have hsequences' := eq_of_hashOrZero_eq hfree hnonzero
    (fun _ hx => List.mem_append_left _ (mem_forkStrings (Or.inr (Or.inl hx))))
    (fun _ hx => List.mem_append_right _ (mem_forkStrings (Or.inr (Or.inl hx)))) hsequences
  have houtputs' := eq_of_hashOrZero_eq hfree hnonzero
    (fun _ hx => List.mem_append_left _ (mem_forkStrings (Or.inr (Or.inr hx))))
    (fun _ hx => List.mem_append_right _ (mem_forkStrings (Or.inr (Or.inr hx)))) houtputs
  refine ⟨rfl, rfl, rfl, ?_⟩
  constructor
  · exact hversion
  · exact hlock
  · rw [hi, hi', Option.map_some, Option.map_some, hspent]
  · rw [hi, hi', Option.map_some, Option.map_some, hsequence]
  · exact previous_eq_of_part hprevious'
  · exact sequences_eq_of_part hsequences'
  · exact outputs_eq_of_part htx htx' houtputs'
  · exact output_eq_of_part htx htx' houtputs'

end Digests

/-- **Digests bind what the hash type selects.** If two digests of the fork are equal, then two of
the strings hashed for them collide, or one has the hash zero, or hash types, amounts and script
codes are equal and the transactions agree in all that the hash type selects. The same holds of the
first digest where it is a hash at all, but it does not see amounts and code separators. -/
theorem digests_bind {tx tx' : Transaction} {index : Nat} {code code' : Bytes}
    (htx : tx.Representable) (htx' : tx'.Representable) (hcode : code.length ≤ Limits.wordMax)
    (hcode' : code'.length ≤ Limits.wordMax) (hindex : index < tx.inputs.length)
    (hindex' : index < tx'.inputs.length) (t t' : HashType) :
    (∀ amount amount' : UInt64,
      forkDigest tx index code amount t = forkDigest tx' index code' amount' t' →
        Collides (forkStrings tx index code amount t ++ forkStrings tx' index code' amount' t') ∨
        Vanishes (forkStrings tx index code amount t ++ forkStrings tx' index code' amount' t') ∨
        t = t' ∧ amount = amount' ∧ code = code' ∧ Agree t index tx tx') ∧
    (¬ LacksOutput t index tx → ¬ LacksOutput t' index tx' →
      legacyDigest tx index code t = legacyDigest tx' index code' t' →
        Collides [legacyPreimage tx index code t, legacyPreimage tx' index code' t'] ∨
        t = t' ∧ Edit.removeCodeSeparators code = Edit.removeCodeSeparators code' ∧
          Agree t index tx tx') := by
  constructor
  · intro amount amount' h
    by_cases hcollides : Collides
        (forkStrings tx index code amount t ++ forkStrings tx' index code' amount' t')
    · exact Or.inl hcollides
    by_cases hvanishes : Vanishes
        (forkStrings tx index code amount t ++ forkStrings tx' index code' amount' t')
    · exact Or.inr (Or.inl hvanishes)
    · exact Or.inr (Or.inr
        (agree_of_forkDigest_eq htx htx' hcode hcode' hindex hindex' hcollides hvanishes h))
  · intro hlacks hlacks' h
    by_cases hcollides : Collides
        [legacyPreimage tx index code t, legacyPreimage tx' index code' t']
    · exact Or.inl hcollides
    · rw [legacyDigest_of_signed hindex hlacks, legacyDigest_of_signed hindex' hlacks',
        Except.ok.injEq] at h
      have hstring := eq_of_hash_eq hcollides List.mem_cons_self
        (List.mem_cons_of_mem _ List.mem_cons_self) h
      obtain ⟨rfl, hcopy⟩ :=
        copy_of_legacyPreimage_eq htx htx' hcode hcode' hindex hindex' hstring
      exact Or.inr ⟨rfl, agree_of_signedCopy_eq hindex hindex' hlacks hlacks' hcopy⟩

/-- A transaction with one input and one output. -/
def lonelyTransaction : Transaction := ⟨1, [⟨⟨.zero, 0⟩, [0x51], 5, []⟩], [⟨7, [0x51]⟩], 0⟩

/-- The same with another input and another output, and unlocked in another way. -/
def joinedTransaction : Transaction :=
  ⟨1, [⟨⟨.zero, 0⟩, [], 5, [[0x02]]⟩, ⟨⟨.zero, 1⟩, [], 6, []⟩], [⟨7, [0x51]⟩, ⟨8, []⟩], 0⟩

/-- A signature for one output by anyone who pays fits both transactions, and nothing that it
selects differs between them. -/
theorem digests_bind_joined :
    forkDigest lonelyTransaction 0 [0xac] 9 ⟨0x83⟩ =
      forkDigest joinedTransaction 0 [0xac] 9 ⟨0x83⟩ ∧
    (Collides (forkStrings lonelyTransaction 0 [0xac] 9 ⟨0x83⟩ ++
        forkStrings joinedTransaction 0 [0xac] 9 ⟨0x83⟩) ∨
      Vanishes (forkStrings lonelyTransaction 0 [0xac] 9 ⟨0x83⟩ ++
        forkStrings joinedTransaction 0 [0xac] 9 ⟨0x83⟩) ∨
      Agree ⟨0x83⟩ 0 lonelyTransaction joinedTransaction) ∧
    legacyDigest lonelyTransaction 0 [0xac] ⟨0x83⟩ =
      legacyDigest joinedTransaction 0 [0xac] ⟨0x83⟩ ∧
    (Collides [legacyPreimage lonelyTransaction 0 [0xac] ⟨0x83⟩,
        legacyPreimage joinedTransaction 0 [0xac] ⟨0x83⟩] ∨
      Agree ⟨0x83⟩ 0 lonelyTransaction joinedTransaction) := by
  have hagree : Agree ⟨0x83⟩ 0 lonelyTransaction joinedTransaction :=
    { version := rfl
      lockTime := rfl
      previousAt := rfl
      sequenceAt := rfl
      previous := fun h => absurd h (by decide)
      sequences := fun h => absurd h (by decide)
      outputs := fun _ h => absurd h (by decide)
      outputAt := fun _ => rfl }
  have hlonely : lonelyTransaction.Representable := ⟨by decide, by decide, by decide, by decide⟩
  have hjoined : joinedTransaction.Representable := ⟨by decide, by decide, by decide, by decide⟩
  have hcode : List.length ([0xac] : Bytes) ≤ Limits.wordMax := by decide
  have hindex : 0 < lonelyTransaction.inputs.length := by decide
  have hindex' : 0 < joinedTransaction.inputs.length := by decide
  have hlacks : ¬ LacksOutput ⟨0x83⟩ 0 lonelyTransaction := by
    rintro ⟨-, hmissing⟩
    exact absurd hmissing (by decide)
  have hlacks' : ¬ LacksOutput ⟨0x83⟩ 0 joinedTransaction := by
    rintro ⟨-, hmissing⟩
    exact absurd hmissing (by decide)
  obtain ⟨d, hfork, hfork'⟩ := hagree.forkDigest_eq hindex [0xac] 9
  obtain ⟨e, hlegacy, hlegacy'⟩ := hagree.legacyDigest_eq hindex [0xac]
  have hforks := hfork.trans hfork'.symm
  have hlegacies := hlegacy.trans hlegacy'.symm
  obtain ⟨hbinds, hbinds'⟩ :=
    digests_bind hlonely hjoined hcode hcode hindex hindex' ⟨0x83⟩ ⟨0x83⟩
  refine ⟨hforks, ?_, hlegacies, ?_⟩
  · rcases hbinds 9 9 hforks with hcollides | hvanishes | ⟨-, -, -, hbound⟩
    · exact Or.inl hcollides
    · exact Or.inr (Or.inl hvanishes)
    · exact Or.inr (Or.inr hbound)
  · rcases hbinds' hlacks hlacks' hlegacies with hcollides | ⟨-, -, hbound⟩
    · exact Or.inl hcollides
    · exact Or.inr hbound

end Digest

end BitcoinScript
