import Mathlib.Logic.Relation
import BitcoinScript.Proofs.Program.LongestCut
import BitcoinScript.Signature.Digest

/-!
# Code separators are not signed

The first digest drops the code separators of the script code before it is signed. The byte of a
code separator may also stand inside of a push, as data or as a length, where it means nothing; so
the bytes are gone through chunk by chunk. On the longest cut of a script, dropping the separators
is a filter of the chunks (`Edit.removeCodeSeparators_of_longestCut`), like the deletion of a push,
and the two filters can be made in either order.

A separator put in or taken out between two chunks (`Edit.SeparatorEdit`) moves no other boundary,
also not that of a rest which breaks off. One such edit does not change what is left without
separators, hence no sequence of edits does (`Edit.removeCodeSeparators_of_edits`), and the first
digest stays the same. `Edit.separators_unsigned` puts this together.
-/

namespace BitcoinScript

open Chunk Program

/-- The rest of a script stays the rest if the chunks before it are replaced by others. -/
theorem Program.LongestCut.replace {script rest : Bytes} {parts others : List Bytes}
    (h : LongestCut script parts rest) (hothers : ∀ e ∈ others, IsEncoding e) :
    LongestCut (others.flatten ++ rest) others rest := by
  obtain ⟨-, -, hrest⟩ := longestCut_iff.mp h
  exact longestCut_iff.mpr ⟨rfl, hothers, hrest⟩

namespace Edit

/-- The encoding of a code separator. -/
def separator : Bytes := [Opcode.codeSeparator.byte]

theorem isEncoding_separator : IsEncoding separator :=
  ⟨_, .operation .codeSeparator 0 (by decide)⟩

/-- No chunk but a code separator is written as one. -/
theorem encode_eq_separator_iff {c : Chunk} (hc : c.WellFormed) :
    c.encode = separator ↔ c.opcode = .codeSeparator := by
  constructor
  · intro h
    have hbyte : c.opcode.byte = Opcode.codeSeparator.byte := (List.cons.inj h).1
    exact congrArg Opcode.mk hbyte
  · intro h
    have hpayload : c.payload = none := payload_eq_none hc (by rw [h]; rfl)
    rw [encode, hpayload, h]
    rfl

/-! ## Dropping separators -/

theorem removeCodeSeparators_of_incomplete {script : Bytes} (h : next? script = none) :
    removeCodeSeparators script = script := by
  rw [removeCodeSeparators]
  split
  · rfl
  · rename_i c rest hnext
    rw [h] at hnext
    cases hnext

theorem removeCodeSeparators_encode_append {c : Chunk} (hc : c.WellFormed) (rest : Bytes) :
    removeCodeSeparators (c.encode ++ rest) =
      if c.opcode = .codeSeparator then removeCodeSeparators rest
      else c.encode ++ removeCodeSeparators rest := by
  have hread := next?_encode hc rest
  rw [removeCodeSeparators]
  split
  · rename_i hnext
    rw [hread] at hnext
    cases hnext
  · rename_i found tail hnext
    rw [hread] at hnext
    cases hnext
    rfl

/-- Dropping the separators filters the chunks of the script. -/
theorem removeCodeSeparators_encode {cs : List Chunk} (hcs : ∀ c ∈ cs, c.WellFormed) {tail : Bytes}
    (htail : next? tail = none) :
    removeCodeSeparators (cs.flatMap Chunk.encode ++ tail) =
      (cs.filter fun c => c.opcode ≠ .codeSeparator).flatMap Chunk.encode ++ tail := by
  induction cs with
  | nil => exact removeCodeSeparators_of_incomplete htail
  | cons c cs ih =>
      simp only [List.forall_mem_cons] at hcs
      rw [List.flatMap_cons, List.append_assoc, removeCodeSeparators_encode_append hcs.1, ih hcs.2]
      by_cases hsep : c.opcode = .codeSeparator
      · rw [if_pos hsep, List.filter_cons_of_neg (by simpa using hsep)]
      · rw [if_neg hsep, List.filter_cons_of_pos (by simpa using hsep), List.flatMap_cons,
          List.append_assoc]

section LongestCut

variable {script rest : Bytes} {parts : List Bytes}

/-- The filter in terms of the chunks that parsing finds. -/
theorem exists_parse_removeCodeSeparators (h : LongestCut script parts rest) :
    ∃ p, parse parts.flatten = .ok p ∧ p.chunks.map encode = parts ∧
      removeCodeSeparators script =
        (p.chunks.filter fun c => c.opcode ≠ .codeSeparator).flatMap Chunk.encode ++ rest := by
  obtain ⟨hjoin, -, hrest⟩ := longestCut_iff.mp h
  obtain ⟨p, hp, hparts⟩ := h.exists_parse
  refine ⟨p, hp, hparts, ?_⟩
  rw [← hjoin, ← hparts, ← List.flatMap_def]
  exact removeCodeSeparators_encode (wellFormed_of_parse hp) hrest

/-- The filter in terms of the bytes of the chunks. -/
theorem removeCodeSeparators_of_longestCut (h : LongestCut script parts rest) :
    removeCodeSeparators script = (parts.filter (· ≠ separator)).flatten ++ rest := by
  obtain ⟨p, hp, rfl, hremove⟩ := exists_parse_removeCodeSeparators h
  rw [hremove, List.filter_map, ← List.flatMap_def]
  congr 2
  apply List.filter_congr
  intro c hc
  have hiff := encode_eq_separator_iff (wellFormed_of_parse hp c hc)
  exact decide_eq_decide.mpr (not_congr hiff).symm

/-- Without separators there is nothing more to drop. -/
theorem removeCodeSeparators_twice (script : Bytes) :
    removeCodeSeparators (removeCodeSeparators script) = removeCodeSeparators script := by
  obtain ⟨parts, rest, hcut⟩ := exists_longestCut script
  rw [removeCodeSeparators_of_longestCut hcut, removeCodeSeparators_of_longestCut (hcut.filter _),
    List.filter_filter]
  simp only [Bool.and_self]

/-- Dropping separators and deleting a push are filters of the same chunks. -/
theorem removeCodeSeparators_findAndDelete (script : Bytes) {data : Bytes}
    (hdata : data.length < 2 ^ 32) :
    removeCodeSeparators (findAndDelete script (pushEncoding data)) =
      findAndDelete (removeCodeSeparators script) (pushEncoding data) := by
  obtain ⟨parts, rest, hcut⟩ := exists_longestCut script
  rw [findAndDelete_of_longestCut hcut hdata, removeCodeSeparators_of_longestCut (hcut.filter _),
    removeCodeSeparators_of_longestCut hcut, findAndDelete_of_longestCut (hcut.filter _) hdata,
    List.filter_filter, List.filter_filter]
  simp only [Bool.and_comm]

end LongestCut

/-! ## Putting separators in and taking them out -/

/-- A separator is put in at a boundary between the complete chunks of a script, their start and end
included, or one that stands there is taken out. -/
inductive SeparatorEdit : Bytes → Bytes → Prop
  | insert (front back : List Bytes) {script rest : Bytes}
      (hcut : LongestCut script (front ++ back) rest) :
      SeparatorEdit script ((front ++ separator :: back).flatten ++ rest)
  | remove (front back : List Bytes) {script rest : Bytes}
      (hcut : LongestCut script (front ++ separator :: back) rest) :
      SeparatorEdit script ((front ++ back).flatten ++ rest)

theorem filter_separator (front back : List Bytes) :
    (front ++ separator :: back).filter (· ≠ separator) =
      (front ++ back).filter (· ≠ separator) := by
  simp

/-- Chunks in the place of others that are the same but for separators. -/
theorem removeCodeSeparators_replace {script rest : Bytes} {parts others : List Bytes}
    (hcut : LongestCut script parts rest) (hothers : ∀ e ∈ others, IsEncoding e)
    (hsame : others.filter (· ≠ separator) = parts.filter (· ≠ separator)) :
    removeCodeSeparators (others.flatten ++ rest) = removeCodeSeparators script := by
  rw [removeCodeSeparators_of_longestCut hcut,
    removeCodeSeparators_of_longestCut (hcut.replace hothers), hsame]

/-- One edit leaves the script without separators as it was. -/
theorem removeCodeSeparators_of_edit {script edited : Bytes} (h : SeparatorEdit script edited) :
    removeCodeSeparators edited = removeCodeSeparators script := by
  cases h with
  | insert front back hcut =>
      have hparts := hcut.encodings
      rw [List.forall_mem_append] at hparts
      refine removeCodeSeparators_replace hcut ?_ (filter_separator front back)
      rw [List.forall_mem_append, List.forall_mem_cons]
      exact ⟨hparts.1, isEncoding_separator, hparts.2⟩
  | remove front back hcut =>
      have hparts := hcut.encodings
      rw [List.forall_mem_append, List.forall_mem_cons] at hparts
      refine removeCodeSeparators_replace hcut ?_ (filter_separator front back).symm
      rw [List.forall_mem_append]
      exact ⟨hparts.1, hparts.2.2⟩

theorem removeCodeSeparators_of_edits {script edited : Bytes}
    (h : Relation.ReflTransGen SeparatorEdit script edited) :
    removeCodeSeparators edited = removeCodeSeparators script := by
  induction h with
  | refl => rfl
  | tail _ hedit ih => rw [removeCodeSeparators_of_edit hedit, ih]

/-- The first digest sees of the script code what is left without separators. -/
theorem legacyDigest_eq_of_removeCodeSeparators {script edited : Bytes}
    (h : removeCodeSeparators edited = removeCodeSeparators script) (tx : Transaction)
    (index : Nat) (t : HashType) :
    Digest.legacyDigest tx index edited t = Digest.legacyDigest tx index script t := by
  simp only [Digest.legacyDigest, Digest.legacyPreimage, Digest.signedCopy, h]

/-- **Code separators are not signed.** Dropping the separators of a script leaves the other chunks
of the longest part in front that is made of chunks, and the rest after it. Dropped twice is dropped
once, and the push of some data may be deleted before or after. However separators are put in or
taken out between the chunks of a script code, the first digest stays the same, for all transactions,
inputs and hash types. -/
theorem separators_unsigned (script : Bytes) :
    (∃ (parts : List Bytes) (rest : Bytes), LongestCut script parts rest) ∧
    (∀ (parts : List Bytes) (rest : Bytes), LongestCut script parts rest →
      ∃ p, parse parts.flatten = .ok p ∧ p.chunks.map encode = parts ∧
        removeCodeSeparators script =
          (p.chunks.filter fun c => c.opcode ≠ .codeSeparator).flatMap Chunk.encode ++ rest) ∧
    removeCodeSeparators (removeCodeSeparators script) = removeCodeSeparators script ∧
    (∀ data : Bytes, data.length < 2 ^ 32 →
      removeCodeSeparators (findAndDelete script (pushEncoding data)) =
        findAndDelete (removeCodeSeparators script) (pushEncoding data)) ∧
    ∀ edited : Bytes, Relation.ReflTransGen SeparatorEdit script edited →
      ∀ (tx : Transaction) (index : Nat) (t : HashType),
        Digest.legacyDigest tx index edited t = Digest.legacyDigest tx index script t := by
  refine ⟨exists_longestCut script, ?_, removeCodeSeparators_twice script, ?_, ?_⟩
  · intro parts rest hcut
    exact exists_parse_removeCodeSeparators hcut
  · intro data hdata
    exact removeCodeSeparators_findAndDelete script hdata
  · intro edited hedits
    exact legacyDigest_eq_of_removeCodeSeparators (removeCodeSeparators_of_edits hedits)

/-- A push of the byte of a separator, a separator, an operation, and a push that breaks off. -/
theorem longestCut_separatedCode :
    LongestCut [0x01, 0xab, 0xab, 0xac, 0x02, 0xab] [[0x01, 0xab], separator, [0xac]]
      [0x02, 0xab] := by
  have hpush : IsEncoding [0x01, 0xab] := ⟨_, .direct ⟨0x01⟩ [0xab] 0 (by decide) rfl⟩
  have hoperation : IsEncoding [0xac] := ⟨_, .operation ⟨0xac⟩ 0 (by decide)⟩
  refine longestCut_iff.mpr ⟨rfl, ?_, rfl⟩
  simp only [List.forall_mem_cons]
  exact ⟨hpush, isEncoding_separator, hoperation, nofun⟩

/-- The separator after the push is taken out and another is put in before the rest; the other bytes
of the same value stay. -/
theorem separators_unsigned_moved :
    removeCodeSeparators [0x01, 0xab, 0xab, 0xac, 0x02, 0xab] = [0x01, 0xab, 0xac, 0x02, 0xab] ∧
    removeCodeSeparators (findAndDelete [0x01, 0xab, 0xab, 0xac, 0x02, 0xab] [0x01, 0xab]) =
      findAndDelete [0x01, 0xab, 0xac, 0x02, 0xab] [0x01, 0xab] ∧
    Digest.legacyDigest ⟨1, [⟨⟨.zero, 0⟩, [], 5, []⟩], [⟨7, [0x51]⟩], 0⟩ 0
        [0x01, 0xab, 0xac, 0xab, 0x02, 0xab] ⟨0x01⟩ =
      Digest.legacyDigest ⟨1, [⟨⟨.zero, 0⟩, [], 5, []⟩], [⟨7, [0x51]⟩], 0⟩ 0
        [0x01, 0xab, 0xab, 0xac, 0x02, 0xab] ⟨0x01⟩ := by
  obtain ⟨-, hfilter, -, hdelete, hdigest⟩ :=
    separators_unsigned [0x01, 0xab, 0xab, 0xac, 0x02, 0xab]
  have hparse : parse [0x01, 0xab, 0xab, 0xac] =
      .ok ⟨[⟨⟨0x01⟩, some [0xab], 0⟩, ⟨.codeSeparator, none, 2⟩, ⟨⟨0xac⟩, none, 3⟩],
        [0x01, 0xab, 0xab, 0xac]⟩ := by
    cbv
  obtain ⟨p, hp, -, hremove⟩ := hfilter _ _ longestCut_separatedCode
  cases hp.symm.trans hparse
  have hdropped : removeCodeSeparators [0x01, 0xab, 0xab, 0xac, 0x02, 0xab] =
      [0x01, 0xab, 0xac, 0x02, 0xab] := hremove
  have hclean : LongestCut [0x01, 0xab, 0xac, 0x02, 0xab] [[0x01, 0xab], [0xac]] [0x02, 0xab] :=
    longestCut_separatedCode.filter (· ≠ separator)
  have hout : SeparatorEdit [0x01, 0xab, 0xab, 0xac, 0x02, 0xab] [0x01, 0xab, 0xac, 0x02, 0xab] :=
    .remove [[0x01, 0xab]] [[0xac]] longestCut_separatedCode
  have hin : SeparatorEdit [0x01, 0xab, 0xac, 0x02, 0xab] [0x01, 0xab, 0xac, 0xab, 0x02, 0xab] :=
    .insert [[0x01, 0xab], [0xac]] [] hclean
  have hdeleted := hdelete [0xab] (by decide)
  rw [hdropped] at hdeleted
  exact ⟨hdropped, hdeleted, hdigest _ (.tail (.single hout) hin) _ _ _⟩

end Edit

end BitcoinScript
