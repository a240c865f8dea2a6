import Mathlib.Algebra.Group.Nat.Defs
import BitcoinScript.Proofs.Program.Deletion
import BitcoinScript.Proofs.Program.Grammar

/-!
# Scripts that break off

A script that breaks off inside of a push is no program, but it can be edited. It has a longest part
in front that is made of complete chunks, and a rest after it (`Program.LongestCut`). Since chunks
form a prefix code, every other such part is made of the first of these chunks
(`Program.isPrefix_of_flatten_append`), so that there is one longest cut, and it is found where no
further chunk can be read (`Program.longestCut_iff`).

Deleting a push keeps the rest and filters the chunks of that part, and what is left is cut in the
same way (`Program.LongestCut.filter`). Deletions one after the other are therefore one filter:
`Edit.deletion_filters_chunks` says this together with what follows, that a deletion repeated
changes nothing and that the order of deletions does not matter.
-/

namespace BitcoinScript

namespace Chunk

theorem IsEncoding.eq_of_isPrefix {e f rest : Bytes} (he : IsEncoding e) (hf : IsEncoding f)
    (h : e <+: f ++ rest) : e = f := by
  obtain ⟨c, hc⟩ := he
  obtain ⟨d, hd⟩ := hf
  rw [← hc.encode_eq, ← hd.encode_eq] at h ⊢
  exact encode_prefixFree hc.wellFormed hd.wellFormed h

theorem isEncoding_of_next? {b tail : Bytes} {c : Chunk} (h : next? b = some (c, tail)) :
    IsEncoding c.encode := by
  cases b with
  | nil => cases h
  | cons x rest =>
      simp only [next?] at h
      split at h
      · rename_i found hread
        cases h
        exact ⟨c, (wellFormed_of_read hread).1.written⟩
      · cases h

end Chunk

namespace Program

open Chunk

/-- The script is made of some chunks and a rest, and no longer part in front of it is made of
chunks. -/
structure LongestCut (script : Bytes) (parts : List Bytes) (rest : Bytes) : Prop where
  join : parts.flatten ++ rest = script
  encodings : ∀ e ∈ parts, IsEncoding e
  longest : ∀ (others : List Bytes) (back : Bytes), (∀ e ∈ others, IsEncoding e) →
    others.flatten ++ back = script → others.flatten.length ≤ parts.flatten.length

/-- Chunks in front of a script are the first of the chunks that can be read. -/
theorem isPrefix_of_flatten_append {others parts : List Bytes} {back rest : Bytes}
    (hothers : ∀ e ∈ others, IsEncoding e) (hparts : ∀ e ∈ parts, IsEncoding e)
    (hrest : next? rest = none) (h : others.flatten ++ back = parts.flatten ++ rest) :
    others <+: parts := by
  induction others generalizing parts with
  | nil => exact List.nil_prefix
  | cons e others ih =>
      simp only [List.forall_mem_cons] at hothers
      rw [List.flatten_cons, List.append_assoc] at h
      cases parts with
      | nil =>
          obtain ⟨c, hc⟩ := hothers.1
          rw [List.flatten_nil, List.nil_append, ← hc.encode_eq] at h
          exact absurd ⟨_, h⟩ (Edit.not_prefix_of_next?_eq_none hc.wellFormed hrest)
      | cons f parts =>
          simp only [List.forall_mem_cons] at hparts
          rw [List.flatten_cons, List.append_assoc] at h
          obtain rfl : e = f := hothers.1.eq_of_isPrefix hparts.1 ⟨_, h⟩
          have hprefix := ih hothers.2 hparts.2 (List.append_cancel_left h)
          exact (List.prefix_cons_inj e).mpr hprefix

section LongestCut

variable {script rest : Bytes} {parts : List Bytes}

/-- The longest cut ends where no further chunk can be read. -/
theorem longestCut_iff :
    LongestCut script parts rest ↔
      parts.flatten ++ rest = script ∧ (∀ e ∈ parts, IsEncoding e) ∧ next? rest = none := by
  constructor
  · rintro ⟨hjoin, hparts, hlongest⟩
    refine ⟨hjoin, hparts, ?_⟩
    -- a chunk more would make a longer part
    cases hnext : next? rest with
    | none => rfl
    | some found =>
        obtain ⟨c, tail⟩ := found
        have hall : ∀ e ∈ parts ++ [c.encode], IsEncoding e := by
          rw [List.forall_mem_append, List.forall_mem_singleton]
          exact ⟨hparts, isEncoding_of_next? hnext⟩
        have hflatten : (parts ++ [c.encode]).flatten = parts.flatten ++ c.encode := by simp
        have hle := hlongest (parts ++ [c.encode]) tail hall (by
          rw [hflatten, List.append_assoc, encode_append_of_next? hnext, hjoin])
        have hpos := c.size_pos
        rw [hflatten, List.length_append, length_encode] at hle
        omega
  · rintro ⟨hjoin, hparts, hrest⟩
    refine ⟨hjoin, hparts, ?_⟩
    intro others back hothers hback
    have hprefix := isPrefix_of_flatten_append hothers hparts hrest (hback.trans hjoin.symm)
    obtain ⟨more, rfl⟩ := hprefix
    simp

/-- Every script has a longest cut. -/
theorem exists_longestCut (script : Bytes) : ∃ parts rest, LongestCut script parts rest := by
  induction hlength : script.length using Nat.strongRecOn generalizing script with
  | ind length ih =>
      cases hnext : next? script with
      | none => exact ⟨[], script, longestCut_iff.mpr ⟨rfl, nofun, hnext⟩⟩
      | some found =>
          obtain ⟨c, tail⟩ := found
          have hshorter : tail.length < length := hlength ▸ length_lt_of_next? hnext
          obtain ⟨parts, rest, hcut⟩ := ih tail.length hshorter tail rfl
          obtain ⟨hjoin, hparts, hrest⟩ := longestCut_iff.mp hcut
          refine ⟨c.encode :: parts, rest, longestCut_iff.mpr ⟨?_, ?_, hrest⟩⟩
          · rw [List.flatten_cons, List.append_assoc, hjoin, encode_append_of_next? hnext]
          · exact List.forall_mem_cons.mpr ⟨isEncoding_of_next? hnext, hparts⟩

theorem LongestCut.unique {others : List Bytes} {back : Bytes} (h : LongestCut script parts rest)
    (hother : LongestCut script others back) : others = parts ∧ back = rest := by
  obtain ⟨hjoin, hparts, hrest⟩ := longestCut_iff.mp h
  obtain ⟨hotherJoin, hothers, hback⟩ := longestCut_iff.mp hother
  have hsame := hotherJoin.trans hjoin.symm
  have hfirst := isPrefix_of_flatten_append hothers hparts hrest hsame
  have hsecond := isPrefix_of_flatten_append hparts hothers hback hsame.symm
  obtain rfl : others = parts :=
    hfirst.eq_of_length (Nat.le_antisymm hfirst.length_le hsecond.length_le)
  exact ⟨rfl, List.append_cancel_left hsame⟩

/-- The chunks that are left of a script are its longest cut. -/
theorem LongestCut.filter (h : LongestCut script parts rest) (keep : Bytes → Bool) :
    LongestCut ((parts.filter keep).flatten ++ rest) (parts.filter keep) rest := by
  obtain ⟨-, hparts, hrest⟩ := longestCut_iff.mp h
  refine longestCut_iff.mpr ⟨rfl, ?_, hrest⟩
  intro e he
  exact hparts e (List.mem_filter.mp he).1

/-- The chunks of the longest cut are those that parsing finds. -/
theorem LongestCut.exists_parse (h : LongestCut script parts rest) :
    ∃ p, parse parts.flatten = .ok p ∧ p.chunks.map encode = parts := by
  obtain ⟨p, hp⟩ := exists_parse_flatten h.encodings
  exact ⟨p, hp, map_encode_of_parse h.encodings hp⟩

end LongestCut

end Program

namespace Edit

open Chunk Program

variable {script rest : Bytes} {parts : List Bytes} {data other : Bytes}

theorem findAndDelete_of_longestCut (h : LongestCut script parts rest)
    (hdata : data.length < 2 ^ 32) :
    findAndDelete script (pushEncoding data) =
      (parts.filter (· ≠ pushEncoding data)).flatten ++ rest := by
  obtain ⟨hjoin, hparts, hrest⟩ := longestCut_iff.mp h
  obtain ⟨cs, hcs, rfl⟩ := exists_map_encode hparts
  have hspan : data.length < Bytes.span 4 := hdata
  rw [← hjoin, ← List.flatMap_def, findAndDelete_encode hspan hcs hrest, List.filter_map,
    ← List.flatMap_def]
  rfl

/-- Two deletions are one filter. -/
theorem findAndDelete_twice (h : LongestCut script parts rest) (hdata : data.length < 2 ^ 32)
    (hother : other.length < 2 ^ 32) :
    findAndDelete (findAndDelete script (pushEncoding data)) (pushEncoding other) =
      (parts.filter fun e => e ≠ pushEncoding data ∧ e ≠ pushEncoding other).flatten ++ rest := by
  rw [findAndDelete_of_longestCut h hdata, findAndDelete_of_longestCut (h.filter _) hother,
    List.filter_filter]
  simp only [Bool.decide_and, Bool.and_comm]

/-- **Deleting a push filters the chunks.** Every script has one longest part in front that is made
of chunks. Deleting the push of some data takes out the chunks of this part that are that push,
wherever and however often they stand, and leaves all else, the rest of the script included. So a
deletion repeated changes nothing, and two deletions may be made in either order. -/
theorem deletion_filters_chunks (script : Bytes) :
    (∃! cut : List Bytes × Bytes, LongestCut script cut.1 cut.2) ∧
    (∀ (parts : List Bytes) (rest : Bytes), LongestCut script parts rest →
      (∃ p, parse parts.flatten = .ok p ∧ p.chunks.map encode = parts) ∧
      ∀ data : Bytes, data.length < 2 ^ 32 →
        findAndDelete script (pushEncoding data) =
          (parts.filter (· ≠ pushEncoding data)).flatten ++ rest) ∧
    (∀ data : Bytes, data.length < 2 ^ 32 →
      findAndDelete (findAndDelete script (pushEncoding data)) (pushEncoding data) =
        findAndDelete script (pushEncoding data)) ∧
    ∀ data other : Bytes, data.length < 2 ^ 32 → other.length < 2 ^ 32 →
      findAndDelete (findAndDelete script (pushEncoding data)) (pushEncoding other) =
        findAndDelete (findAndDelete script (pushEncoding other)) (pushEncoding data) := by
  obtain ⟨parts, rest, hcut⟩ := exists_longestCut script
  refine ⟨⟨(parts, rest), hcut, ?_⟩, ?_, ?_, ?_⟩
  · rintro ⟨others, back⟩ hother
    obtain ⟨rfl, rfl⟩ := hcut.unique hother
    rfl
  · intro parts rest hcut
    exact ⟨hcut.exists_parse, fun data hdata => findAndDelete_of_longestCut hcut hdata⟩
  · intro data hdata
    rw [findAndDelete_twice hcut hdata hdata, findAndDelete_of_longestCut hcut hdata]
    simp only [and_self]
  · intro data other hdata hother
    rw [findAndDelete_twice hcut hdata hother, findAndDelete_twice hcut hother hdata]
    simp only [and_comm]

/-- Two pushes of the same data around a longer push of it, with a push that breaks off at the
end. -/
theorem longestCut_brokenOff :
    LongestCut [0x02, 0xaa, 0xbb, 0x4c, 0x02, 0xaa, 0xbb, 0x02, 0xaa, 0xbb, 0x05, 0x01]
      [[0x02, 0xaa, 0xbb], [0x4c, 0x02, 0xaa, 0xbb], [0x02, 0xaa, 0xbb]] [0x05, 0x01] := by
  have hdirect : IsEncoding [0x02, 0xaa, 0xbb] :=
    ⟨_, .direct ⟨0x02⟩ [0xaa, 0xbb] 0 (by decide) rfl⟩
  have hsized : IsEncoding [0x4c, 0x02, 0xaa, 0xbb] :=
    ⟨_, .sized .pushData1 1 [0x02] [0xaa, 0xbb] 0 (by decide) rfl rfl⟩
  refine longestCut_iff.mpr ⟨rfl, ?_, rfl⟩
  simp only [List.forall_mem_cons]
  exact ⟨hdirect, hsized, hdirect, nofun⟩

/-- The longer push of the same data is another chunk, and stays. -/
theorem deletion_filters_brokenOff :
    findAndDelete [0x02, 0xaa, 0xbb, 0x4c, 0x02, 0xaa, 0xbb, 0x02, 0xaa, 0xbb, 0x05, 0x01]
      (pushEncoding [0xaa, 0xbb]) = [0x4c, 0x02, 0xaa, 0xbb, 0x05, 0x01] :=
  ((deletion_filters_chunks _).2.1 _ _ longestCut_brokenOff).2 [0xaa, 0xbb] (by decide)

end Edit

end BitcoinScript
