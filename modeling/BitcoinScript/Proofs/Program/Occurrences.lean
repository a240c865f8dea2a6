import BitcoinScript.Proofs.Guarded.Script
import BitcoinScript.Proofs.Program.LongestCut

/-!
# Deleting any pattern

A pattern that is no push may end inside of a chunk, or reach over several. Once a copy of it is
deleted, the walk goes on from a place that need not be the end of a chunk of the script, so that
the chunks it meets from there are others than those of the script.

What holds for every pattern is said by parts: the script is what is kept, with a copy of the
pattern between any two parts (`Edit.Removes`). Up to the first copy the walk meets the chunks of
the script, so a copy at the end of one of them is not missed (`Edit.length_deletePattern_lt`).

The walk itself is a loop over a position. `Edit.Visits` describes the states it comes to, and that
every move takes the position on inside of the script; so it ends (`Edit.exists_ended`), having
written what is kept.
-/

namespace BitcoinScript

namespace Edit

open Chunk Program

section Removes

variable {pattern script kept : Bytes} {k : Nat}

/-- What is kept of a script once `k` copies of a pattern are taken out of it, no two of which
overlap. -/
def Removes (pattern : Bytes) (k : Nat) (script kept : Bytes) : Prop :=
  ∃ parts : List Bytes, parts.length = k + 1 ∧ script = pattern.intercalate parts ∧
    kept = parts.flatten

theorem Removes.refl (pattern script : Bytes) : Removes pattern 0 script script :=
  ⟨[script], rfl, List.intercalate_singleton.symm, List.flatten_singleton.symm⟩

theorem Removes.append_left (h : Removes pattern k script kept) (front : Bytes) :
    Removes pattern k (front ++ script) (front ++ kept) := by
  obtain ⟨parts, hlength, rfl, rfl⟩ := h
  match parts, hlength with
  | [part], hlength =>
      refine ⟨[front ++ part], hlength, ?_, ?_⟩
      · rw [List.intercalate_singleton, List.intercalate_singleton]
      · simp
  | part :: next :: parts, hlength =>
      refine ⟨(front ++ part) :: next :: parts, hlength, ?_, ?_⟩
      · simp only [List.intercalate_cons_cons, List.append_assoc]
      · simp

/-- A copy in front of a script is one more. -/
theorem Removes.pattern_append (h : Removes pattern k script kept) :
    Removes pattern (k + 1) (pattern ++ script) kept := by
  obtain ⟨parts, hlength, rfl, rfl⟩ := h
  match parts, hlength with
  | part :: parts, hlength =>
      refine ⟨[] :: part :: parts, ?_, ?_, ?_⟩
      · rw [List.length_cons, hlength]
      · rw [List.intercalate_cons_cons, List.nil_append]
      · rw [List.flatten_cons (l := []), List.nil_append]

theorem length_intercalate (pattern part : Bytes) (parts : List Bytes) :
    (pattern.intercalate (part :: parts)).length =
      (part :: parts).flatten.length + parts.length * pattern.length := by
  induction parts generalizing part with
  | nil => simp
  | cons next parts ih =>
      have hflatten : (part :: next :: parts).flatten.length =
          part.length + (next :: parts).flatten.length := by
        rw [List.flatten_cons, List.length_append]
      rw [List.intercalate_cons_cons, List.length_append, List.length_append, ih, hflatten,
        List.length_cons, Nat.succ_mul]
      omega

theorem Removes.length_eq (h : Removes pattern k script kept) :
    kept.length + k * pattern.length = script.length := by
  obtain ⟨parts, hlength, rfl, rfl⟩ := h
  match parts, hlength with
  | part :: parts, hlength =>
      rw [length_intercalate, ← Nat.succ.inj hlength]

theorem exists_removes_of_stripFront (h : Removes pattern k (stripFront pattern script) kept) :
    ∃ k, Removes pattern k script kept := by
  fun_induction stripFront pattern script with
  | case1 script hmatch ih =>
      obtain ⟨k, hk⟩ := ih h
      obtain ⟨rest, hrest⟩ := List.isPrefixOf_iff_prefix.mp hmatch.2
      rw [← hrest, List.drop_left] at hk
      exact ⟨k + 1, hrest ▸ hk.pattern_append⟩
  | case2 => exact ⟨k, h⟩

/-- The deletion of a pattern only takes out copies of it. -/
theorem exists_removes (pattern script : Bytes) :
    ∃ k, Removes pattern k script (deletePattern pattern script) := by
  fun_induction deletePattern pattern script with
  | case1 script rest hnext => exact exists_removes_of_stripFront (.refl pattern rest)
  | case2 script stripped c rest hnext ih =>
      obtain ⟨k, hk⟩ := ih
      have hchunk := hk.append_left c.encode
      rw [encode_append_of_next? hnext] at hchunk
      exact exists_removes_of_stripFront hchunk

end Removes

section Progress

variable {pattern script : Bytes}

theorem length_deletePattern_le_stripFront (pattern script : Bytes) :
    (deletePattern pattern script).length ≤ (stripFront pattern script).length := by
  rw [deletePattern]
  split
  · exact Nat.le_refl _
  · rename_i c rest hnext
    have hchunk := congrArg List.length (encode_append_of_next? hnext)
    have hrest := Guarded.length_deletePattern_le pattern rest
    rw [List.length_append] at hchunk ⊢
    omega

/-- A copy at the front is deleted. -/
theorem length_deletePattern_lt_of_prefix (hp : pattern ≠ []) (h : pattern <+: script) :
    (deletePattern pattern script).length < script.length := by
  obtain ⟨rest, rfl⟩ := h
  have hle := length_deletePattern_le_stripFront pattern (pattern ++ rest)
  have hpos := List.length_pos_iff.mpr hp
  have hrest := length_stripFront_le pattern rest
  rw [stripFront_append hp] at hle
  rw [List.length_append]
  omega

/-- A copy at the end of a chunk of the script is deleted, or another one before it. -/
theorem length_deletePattern_lt (hp : pattern ≠ []) {front : List Bytes}
    (hfront : ∀ e ∈ front, IsEncoding e) {back : Bytes} (h : pattern <+: back) :
    (deletePattern pattern (front.flatten ++ back)).length < (front.flatten ++ back).length := by
  induction front with
  | nil => exact length_deletePattern_lt_of_prefix hp h
  | cons e front ih =>
      simp only [List.forall_mem_cons] at hfront
      by_cases hmatch : pattern <+: (e :: front).flatten ++ back
      · exact length_deletePattern_lt_of_prefix hp hmatch
      · -- up to the first copy, the walk meets the chunks of the script
        obtain ⟨c, hc⟩ := hfront.1
        have hnext : next? ((e :: front).flatten ++ back) =
            some ({ c with offset := 0 }, front.flatten ++ back) := by
          rw [List.flatten_cons, List.append_assoc, ← hc.encode_eq]
          exact next?_encode hc.wellFormed _
        have hrest := ih hfront.2
        have hchunk := congrArg List.length (encode_append_of_next? hnext)
        rw [deletePattern_of_next? hmatch hnext]
        rw [List.length_append] at hchunk ⊢
        omega

end Progress

/-! ## The loop -/

/-- A state of the loop. -/
structure Cursor where
  /-- What has been written. -/
  out : Bytes
  /-- Where the part of the script begins that was written last. -/
  copied : Nat
  /-- Where the script is read. -/
  pos : Nat

/-- The states of the loop, and the number of moves to them. A copy of the pattern is skipped, and
where none is left the next chunk is written. -/
inductive Visits (script pattern : Bytes) : Nat → Cursor → Prop where
  | start : Visits script pattern 0 ⟨[], 0, 0⟩
  | skip {moves : Nat} {cursor : Cursor} (h : Visits script pattern moves cursor)
      (hmatch : pattern <+: script.drop cursor.pos) :
      Visits script pattern (moves + 1) { cursor with pos := cursor.pos + pattern.length }
  | write {moves : Nat} {cursor : Cursor} {c : Chunk} {rest : Bytes}
      (h : Visits script pattern moves cursor) (hno : ¬ pattern <+: script.drop cursor.pos)
      (hnext : next? (script.drop cursor.pos) = some (c, rest)) :
      Visits script pattern (moves + 1)
        ⟨cursor.out ++ (script.drop cursor.pos).take c.size, cursor.pos, cursor.pos + c.size⟩

/-- The loop ends here: there is neither a copy of the pattern nor a complete chunk. -/
def Ended (script pattern : Bytes) (cursor : Cursor) : Prop :=
  ¬ pattern <+: script.drop cursor.pos ∧ next? (script.drop cursor.pos) = none

section Loop

variable {script pattern : Bytes} {moves : Nat} {cursor : Cursor}

/-- What stands at a position lies inside of the script. -/
theorem add_length_le {front rest : Bytes} {pos : Nat} (hpos : pos ≤ script.length)
    (h : front ++ rest = script.drop pos) :
    pos + front.length ≤ script.length ∧ script.drop (pos + front.length) = rest := by
  have hlength := congrArg List.length h
  rw [List.length_append, List.length_drop] at hlength
  refine ⟨by omega, ?_⟩
  rw [← List.drop_drop, ← h, List.drop_left]

/-- Every move takes the position on, inside of the script. -/
theorem Visits.inside (hp : pattern ≠ []) (h : Visits script pattern moves cursor) :
    cursor.copied ≤ cursor.pos ∧ cursor.pos ≤ script.length ∧ moves ≤ cursor.pos := by
  induction h with
  | start => exact ⟨Nat.le_refl _, Nat.zero_le _, Nat.le_refl _⟩
  | skip h hmatch ih =>
      obtain ⟨hcopied, hpos, hmoves⟩ := ih
      obtain ⟨rest, hrest⟩ := hmatch
      have hpattern := List.length_pos_iff.mpr hp
      have hinside := (add_length_le hpos hrest).1
      exact ⟨Nat.le_add_right_of_le hcopied, hinside, by dsimp only; omega⟩
  | @write moves cursor c rest h hno hnext ih =>
      obtain ⟨hcopied, hpos, hmoves⟩ := ih
      have hchunk := c.size_pos
      have hinside := (add_length_le hpos (encode_append_of_next? hnext)).1
      rw [length_encode] at hinside
      exact ⟨Nat.le_add_right _ _, hinside, by dsimp only; omega⟩

/-- What has been written, followed by what is kept of the rest, is what is kept of the script. -/
theorem Visits.out_append (hp : pattern ≠ []) (h : Visits script pattern moves cursor) :
    cursor.out ++ deletePattern pattern (script.drop cursor.pos) = deletePattern pattern script := by
  induction h with
  | start => rfl
  | skip h hmatch ih =>
      obtain ⟨rest, hrest⟩ := hmatch
      rw [(add_length_le (h.inside hp).2.1 hrest).2, ← ih, ← hrest,
        deletePattern_congr (stripFront_append hp rest)]
  | @write moves cursor c rest h hno hnext ih =>
      have hchunk := encode_append_of_next? hnext
      have hdrop := (add_length_le (h.inside hp).2.1 hchunk).2
      have htake : (script.drop cursor.pos).take c.size = c.encode := by
        rw [← hchunk, ← length_encode, List.take_left]
      rw [length_encode] at hdrop
      rw [hdrop, htake, ← ih, deletePattern_of_next? hno hnext, List.append_assoc]

/-- From every state the loop comes to its end. -/
theorem Visits.exists_ended (hp : pattern ≠ []) (h : Visits script pattern moves cursor) :
    ∃ moves cursor, Visits script pattern moves cursor ∧ Ended script pattern cursor := by
  induction hleft : script.length - cursor.pos using Nat.strongRecOn generalizing moves cursor with
  | ind left ih =>
      by_cases hmatch : pattern <+: script.drop cursor.pos
      · have hskip := h.skip hmatch
        have hinside := (hskip.inside hp).2.1
        have hpattern := List.length_pos_iff.mpr hp
        dsimp only at hinside
        exact ih _ (by dsimp only; omega) hskip rfl
      · cases hnext : next? (script.drop cursor.pos) with
        | none => exact ⟨moves, cursor, h, hmatch, hnext⟩
        | some found =>
            have hwrite := h.write hmatch hnext
            have hinside := (hwrite.inside hp).2.1
            have hchunk := found.1.size_pos
            dsimp only at hinside
            exact ih _ (by dsimp only; omega) hwrite rfl

/-- At its end the loop has written what is kept, but for the rest that is no complete chunk. -/
theorem Visits.out_of_ended (hp : pattern ≠ []) (h : Visits script pattern moves cursor)
    (hended : Ended script pattern cursor) :
    deletePattern pattern script = cursor.out ++ script.drop cursor.pos := by
  rw [← h.out_append hp, deletePattern_of_incomplete hended.1 hended.2]

end Loop

/-- **Deleting a pattern only deletes.** Nothing is deleted for the empty pattern. For every other
one, also one that ends inside of a chunk or reaches over several, the loop stays inside of the
script and makes at most as many moves as the script has bytes. It comes to an end, where it has
written what is kept; and with all its positions and slices guarded, no guard strikes. What is kept
is the script without some copies of the pattern, no two of which overlap, in its order. There is at
least one such copy if the pattern stands before, between or after the chunks of which the longest
part of the script is made. -/
theorem deletion_removes_copies (script pattern : Bytes) :
    (pattern = [] → findAndDelete script pattern = script) ∧
    (pattern ≠ [] →
      (∀ moves cursor, Visits script pattern moves cursor →
        cursor.copied ≤ cursor.pos ∧ cursor.pos ≤ script.length ∧ moves ≤ script.length) ∧
      (∃ moves cursor, Visits script pattern moves cursor ∧ Ended script pattern cursor) ∧
      (∀ moves cursor, Visits script pattern moves cursor → Ended script pattern cursor →
        findAndDelete script pattern = cursor.out ++ script.drop cursor.pos) ∧
      (script.length < Guarded.signedSpan →
        Guarded.findAndDelete script pattern = some (findAndDelete script pattern)) ∧
      ∃ k, Removes pattern k script (findAndDelete script pattern) ∧
        (findAndDelete script pattern).length + k * pattern.length = script.length ∧
        ∀ front back rest, LongestCut script (front ++ back) rest →
          pattern <+: back.flatten ++ rest → 1 ≤ k) := by
  constructor
  · exact fun hempty => if_pos hempty
  · intro hp
    have hdelete : findAndDelete script pattern = deletePattern pattern script := if_neg hp
    rw [hdelete]
    refine ⟨?_, Visits.start.exists_ended hp, fun moves cursor h => h.out_of_ended hp, ?_, ?_⟩
    · intro moves cursor h
      obtain ⟨hcopied, hpos, hmoves⟩ := h.inside hp
      exact ⟨hcopied, hpos, Nat.le_trans hmoves hpos⟩
    · intro hlength
      have hword : Guarded.signedSpan + 4 < Guarded.wordSpan := by decide
      rw [Guarded.findAndDelete_eq (by omega), hdelete]
    · obtain ⟨k, hk⟩ := exists_removes pattern script
      refine ⟨k, hk, hk.length_eq, ?_⟩
      intro front back rest hcut hcopy
      obtain ⟨hjoin, hencodings, -⟩ := longestCut_iff.mp hcut
      rw [List.flatten_append, List.append_assoc] at hjoin
      have hless := length_deletePattern_lt hp (List.forall_mem_append.mp hencodings).1 hcopy
      have hsum := hk.length_eq
      rw [hjoin] at hless
      apply Nat.pos_of_ne_zero
      rintro rfl
      omega

/-- The chunks of a script in which the code `0x51 0x02` begins three times, twice inside of a
chunk or broken off in one. -/
theorem longestCut_overrun :
    LongestCut [0x51, 0x02, 0x51, 0x02, 0xaa, 0x51, 0x02]
      [[0x51], [0x02, 0x51, 0x02], [0xaa], [0x51]] [0x02] := by
  have hoperation : ∀ b : UInt8, 0x4e < b → IsEncoding [b] :=
    fun b hb => ⟨_, .operation ⟨b⟩ 0 hb⟩
  have hdirect : IsEncoding [0x02, 0x51, 0x02] :=
    ⟨_, .direct ⟨0x02⟩ [0x51, 0x02] 0 (by decide) rfl⟩
  refine longestCut_iff.mpr ⟨rfl, ?_, rfl⟩
  simp only [List.forall_mem_cons]
  exact ⟨hoperation 0x51 (by decide), hdirect, hoperation 0xaa (by decide),
    hoperation 0x51 (by decide), nofun⟩

/-- All three copies are deleted, since the chunks change with every deletion. -/
theorem deletion_removes_overrun :
    Removes [0x51, 0x02] 3 [0x51, 0x02, 0x51, 0x02, 0xaa, 0x51, 0x02] [0xaa] := by
  have hkept : findAndDelete [0x51, 0x02, 0x51, 0x02, 0xaa, 0x51, 0x02] [0x51, 0x02] = [0xaa] := by
    decide +kernel
  obtain ⟨k, hk, hlength, hone⟩ :=
    ((deletion_removes_copies [0x51, 0x02, 0x51, 0x02, 0xaa, 0x51, 0x02] [0x51, 0x02]).2
      (by decide)).2.2.2.2
  have hfound : 1 ≤ k := hone [] _ _ longestCut_overrun ⟨_, rfl⟩
  rw [hkept] at hk hlength
  simp only [List.length_cons, List.length_nil] at hlength
  obtain rfl : k = 3 := by omega
  exact hk

end Edit

end BitcoinScript
