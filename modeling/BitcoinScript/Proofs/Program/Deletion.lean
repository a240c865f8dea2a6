import BitcoinScript.Machine.Signatures
import BitcoinScript.Proofs.Program.Framing

/-!
# Deleting pushes from scripts

The deletion of a pattern works on bytes: at every place where the walk over the chunks stops, all
copies of the pattern are taken off. Where the pattern is the push of some data, it is itself a
well-formed chunk (`encode_pushChunk`), and since these form a prefix code, a copy of it is always a
whole chunk of the script. So deleting a push is filtering the chunks
(`Edit.findAndDelete_encode`), and what follows the last complete chunk is left alone.

Deleting several pushes one after the other filters out all of them at once
(`Machine.withoutSignatures_encode`); neither order nor repetition matters.
-/

namespace BitcoinScript

open Chunk

/-- The chunk that pushes some data by the shortest of the four push forms. -/
def pushChunk (data : Bytes) : Chunk where
  opcode :=
    if data.length ≤ 0x4b then ⟨UInt8.ofNat data.length⟩
    else if data.length ≤ 0xff then .pushData1
    else if data.length ≤ 0xffff then .pushData2
    else .pushData4
  payload := some data
  offset := 0

/-- A direct push opcode is its own length. -/
theorem direct_opcode {n : Nat} (hn : n ≤ 0x4b) :
    (⟨UInt8.ofNat n⟩ : Opcode).lengthWidth = 0 ∧ (⟨UInt8.ofNat n⟩ : Opcode).isPush = true ∧
      (UInt8.ofNat n).toNat = n := by
  have htoNat : (UInt8.ofNat n).toNat = n :=
    UInt8.toNat_ofNat_of_lt' (by simp only [UInt8.size]; omega)
  have hne : ∀ b : UInt8, 0x4c ≤ b.toNat → (⟨UInt8.ofNat n⟩ : Opcode) ≠ ⟨b⟩ := by
    intro b hb heq
    have := congrArg (fun op : Opcode => op.byte.toNat) heq
    simp only [htoNat] at this
    omega
  refine ⟨?_, ?_, htoNat⟩
  · simp only [Opcode.lengthWidth, Opcode.pushData1, Opcode.pushData2, Opcode.pushData4,
      hne 0x4c (by decide), hne 0x4d (by decide), hne 0x4e (by decide), if_false]
  · simp only [Opcode.isPush, decide_eq_true_eq, UInt8.le_iff_toNat_le, htoNat]
    exact Nat.le_trans hn (by decide)

theorem encode_pushChunk (data : Bytes) : (pushChunk data).encode = pushEncoding data := by
  by_cases h1 : data.length ≤ 0x4b
  · simp [pushChunk, encode, pushEncoding, h1, (direct_opcode h1).1]
  · by_cases h2 : data.length ≤ 0xff
    · simp only [pushChunk, encode, pushEncoding, h1, h2, if_true, if_false]
      rfl
    · by_cases h3 : data.length ≤ 0xffff
      · simp only [pushChunk, encode, pushEncoding, h1, h2, h3, if_true, if_false]
        rfl
      · simp only [pushChunk, encode, pushEncoding, h1, h2, h3, if_false]
        rfl

theorem wellFormed_pushChunk {data : Bytes} (h : data.length < Bytes.span 4) :
    (pushChunk data).WellFormed := by
  by_cases h1 : data.length ≤ 0x4b
  · obtain ⟨hwidth, hpush, hbyte⟩ := direct_opcode h1
    simp only [WellFormed, pushChunk, h1, if_true, hwidth, hpush, hbyte, and_self]
  · by_cases h2 : data.length ≤ 0xff
    · simp only [WellFormed, pushChunk, h1, h2, if_true, if_false]
      exact ⟨rfl, Nat.lt_of_le_of_lt h2 (by decide)⟩
    · by_cases h3 : data.length ≤ 0xffff
      · simp only [WellFormed, pushChunk, h1, h2, h3, if_true, if_false]
        exact ⟨rfl, Nat.lt_of_le_of_lt h3 (by decide)⟩
      · simp only [WellFormed, pushChunk, h1, h2, h3, if_false]
        exact ⟨rfl, h⟩

namespace Edit

theorem stripFront_append {pattern : Bytes} (hp : pattern ≠ []) (rest : Bytes) :
    stripFront pattern (pattern ++ rest) = stripFront pattern rest := by
  have hpre : pattern.isPrefixOf (pattern ++ rest) = true :=
    List.isPrefixOf_iff_prefix.mpr (List.prefix_append _ _)
  rw [stripFront, dif_pos ⟨hp, hpre⟩, List.drop_left]

theorem stripFront_eq_self {pattern script : Bytes} (h : ¬ pattern <+: script) :
    stripFront pattern script = script := by
  rw [stripFront, dif_neg]
  rintro ⟨-, hpre⟩
  exact h (List.isPrefixOf_iff_prefix.mp hpre)

/-- The walk depends on the script only through what is left at the first stop. -/
theorem deletePattern_congr {pattern a b : Bytes}
    (h : stripFront pattern a = stripFront pattern b) :
    deletePattern pattern a = deletePattern pattern b := by
  rw [deletePattern, deletePattern, h]

theorem deletePattern_of_next? {pattern script rest : Bytes} {c : Chunk}
    (h : ¬ pattern <+: script) (hnext : next? script = some (c, rest)) :
    deletePattern pattern script = c.encode ++ deletePattern pattern rest := by
  rw [deletePattern]
  split
  · rename_i hnone
    rw [stripFront_eq_self h, hnext] at hnone
    cases hnone
  · rename_i d tail hsome
    rw [stripFront_eq_self h, hnext] at hsome
    cases hsome
    rfl

theorem deletePattern_of_incomplete {pattern script : Bytes} (h : ¬ pattern <+: script)
    (hnext : next? script = none) : deletePattern pattern script = script := by
  rw [deletePattern]
  split
  · exact stripFront_eq_self h
  · rename_i d tail hsome
    rw [stripFront_eq_self h, hnext] at hsome
    cases hsome

/-- No incomplete chunk starts with a complete one. -/
theorem not_prefix_of_next?_eq_none {c : Chunk} (hc : c.WellFormed) {tail : Bytes}
    (htail : next? tail = none) : ¬ c.encode <+: tail := by
  rintro ⟨rest, rfl⟩
  rw [next?_encode hc] at htail
  cases htail

/-- Deleting the encoding of a chunk filters the chunks of the script. -/
theorem deletePattern_encode {d : Chunk} (hd : d.WellFormed) {cs : List Chunk}
    (hcs : ∀ c ∈ cs, c.WellFormed) {tail : Bytes} (htail : next? tail = none) :
    deletePattern d.encode (cs.flatMap Chunk.encode ++ tail) =
      (cs.filter fun c => c.encode ≠ d.encode).flatMap Chunk.encode ++ tail := by
  induction cs with
  | nil => exact deletePattern_of_incomplete (not_prefix_of_next?_eq_none hd htail) htail
  | cons c cs ih =>
      simp only [List.forall_mem_cons] at hcs
      have hrest := ih hcs.2
      rw [List.flatMap_cons, List.append_assoc]
      by_cases hsame : c.encode = d.encode
      · have hne : d.encode ≠ [] := List.cons_ne_nil _ _
        rw [List.filter_cons_of_neg (by simpa using hsame), ← hrest, hsame]
        exact deletePattern_congr (stripFront_append hne _)
      · have hpre : ¬ d.encode <+: c.encode ++ (cs.flatMap Chunk.encode ++ tail) := by
          intro h
          exact hsame (encode_prefixFree hd hcs.1 h).symm
        rw [List.filter_cons_of_pos (by simpa using hsame), List.flatMap_cons, List.append_assoc,
          ← hrest]
        have hnext := next?_encode hcs.1 (cs.flatMap Chunk.encode ++ tail)
        rw [deletePattern_of_next? hpre hnext, encode_move]

/-- Deleting the push of some data filters the chunks of the script. -/
theorem findAndDelete_encode {data : Bytes} (hdata : data.length < Bytes.span 4) {cs : List Chunk}
    (hcs : ∀ c ∈ cs, c.WellFormed) {tail : Bytes} (htail : next? tail = none) :
    findAndDelete (cs.flatMap Chunk.encode ++ tail) (pushEncoding data) =
      (cs.filter fun c => c.encode ≠ pushEncoding data).flatMap Chunk.encode ++ tail := by
  have hne : (pushChunk data).encode ≠ [] := List.cons_ne_nil _ _
  rw [← encode_pushChunk, findAndDelete, if_neg hne]
  exact deletePattern_encode (wellFormed_pushChunk hdata) hcs htail

end Edit

namespace Machine

/-- Deleting several signatures filters out the chunks that push one of them. -/
theorem withoutSignatures_encode {sigs : List Item}
    (hsigs : ∀ x ∈ sigs, x.bytes.length < Bytes.span 4) {cs : List Chunk}
    (hcs : ∀ c ∈ cs, c.WellFormed) :
    withoutSignatures (cs.flatMap Chunk.encode) sigs =
      (cs.filter fun c => c.encode ∉ sigs.map fun x => pushEncoding x.bytes).flatMap
        Chunk.encode := by
  induction sigs generalizing cs with
  | nil =>
      have hall :
          (cs.filter fun c => c.encode ∉ ([] : List Item).map fun x => pushEncoding x.bytes) = cs :=
        List.filter_eq_self.mpr (by simp)
      rw [hall]
      rfl
  | cons x rest ih =>
      simp only [List.forall_mem_cons] at hsigs
      have hfirst := Edit.findAndDelete_encode hsigs.1 hcs (show next? [] = none from rfl)
      rw [List.append_nil, List.append_nil] at hfirst
      have hkept : ∀ c ∈ cs.filter fun c => c.encode ≠ pushEncoding x.bytes, c.WellFormed :=
        fun c hc => hcs c (List.mem_filter.mp hc).1
      have hfold : withoutSignatures (cs.flatMap Chunk.encode) (x :: rest) =
          withoutSignatures (Edit.findAndDelete (cs.flatMap Chunk.encode) (pushEncoding x.bytes))
            rest := rfl
      rw [hfold, hfirst, ih hsigs.2 hkept, List.filter_filter]
      congr 1
      apply List.filter_congr
      intro c _
      rw [Bool.and_comm]
      simp

/-- Only the set of the signatures matters. -/
theorem withoutSignatures_congr {sigs others : List Item}
    (hsame : ∀ b, b ∈ others.map Item.bytes ↔ b ∈ sigs.map Item.bytes)
    (hsigs : ∀ x ∈ sigs, x.bytes.length < Bytes.span 4) {cs : List Chunk}
    (hcs : ∀ c ∈ cs, c.WellFormed) :
    withoutSignatures (cs.flatMap Chunk.encode) others =
      withoutSignatures (cs.flatMap Chunk.encode) sigs := by
  have hothers : ∀ x ∈ others, x.bytes.length < Bytes.span 4 := by
    intro x hx
    obtain ⟨y, hy, hbytes⟩ := List.mem_map.mp ((hsame x.bytes).mp (List.mem_map_of_mem hx))
    rw [← hbytes]
    exact hsigs y hy
  have hmem : ∀ e, (e ∈ others.map fun x => pushEncoding x.bytes) ↔
      e ∈ sigs.map fun x => pushEncoding x.bytes := by
    intro e
    have hcomp : ∀ l : List Item, (l.map fun x => pushEncoding x.bytes) =
        (l.map Item.bytes).map pushEncoding := by
      intro l
      rw [List.map_map]
      rfl
    rw [hcomp, hcomp, List.mem_map, List.mem_map]
    simp only [hsame]
  rw [withoutSignatures_encode hothers hcs, withoutSignatures_encode hsigs hcs]
  congr 1
  apply List.filter_congr
  intro c _
  simp only [hmem]

end Machine

end BitcoinScript
