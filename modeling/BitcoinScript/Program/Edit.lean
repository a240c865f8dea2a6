import BitcoinScript.Program

/-!
# Editing scripts

Before a script is signed, the signature itself is deleted from it, and code separators are dropped.
Both edits walk from chunk to chunk and leave untouched what follows the last complete chunk.
-/

namespace BitcoinScript

/-- The push of some data by the shortest of the four push forms, small numbers not regarded. -/
def pushEncoding (data : Bytes) : Bytes :=
  let length := data.length
  if length ≤ 0x4b then UInt8.ofNat length :: data
  else if length ≤ 0xff then Opcode.pushData1.byte :: Bytes.le 1 length ++ data
  else if length ≤ 0xffff then Opcode.pushData2.byte :: Bytes.le 2 length ++ data
  else Opcode.pushData4.byte :: Bytes.le 4 length ++ data

namespace Edit

/-- What is left of a script once all copies of a pattern are taken off its front. An empty pattern
takes nothing off. -/
def stripFront (pattern script : Bytes) : Bytes :=
  if _h : pattern ≠ [] ∧ pattern.isPrefixOf script then
    stripFront pattern (script.drop pattern.length)
  else script
termination_by script.length
decreasing_by
  have hpos := List.length_pos_iff.mpr _h.1
  have hle := (List.isPrefixOf_iff_prefix.mp _h.2).length_le
  simp only [List.length_drop]
  omega

theorem length_stripFront_le (pattern script : Bytes) :
    (stripFront pattern script).length ≤ script.length := by
  fun_induction stripFront pattern script with
  | case1 script h ih =>
      simp only [List.length_drop] at ih
      omega
  | case2 => exact Nat.le_refl _

/-- Deletes the copies of a pattern that stand where the walk over the chunks stops. -/
def deletePattern (pattern script : Bytes) : Bytes :=
  let kept := stripFront pattern script
  match _hnext : Chunk.next? kept with
  | none => kept
  | some (c, rest) => c.encode ++ deletePattern pattern rest
termination_by script.length
decreasing_by
  exact Nat.lt_of_lt_of_le (Chunk.length_lt_of_next? _hnext) (length_stripFront_le pattern script)

/-- Deletes every copy of a pattern found at a chunk boundary. An empty pattern deletes nothing. -/
def findAndDelete (script pattern : Bytes) : Bytes :=
  if pattern = [] then script else deletePattern pattern script

/-- Drops the code separators among the complete chunks of a script. -/
def removeCodeSeparators (script : Bytes) : Bytes :=
  match _hnext : Chunk.next? script with
  | none => script
  | some (c, rest) =>
      if c.opcode = Opcode.codeSeparator then removeCodeSeparators rest
      else c.encode ++ removeCodeSeparators rest
termination_by script.length
decreasing_by all_goals exact Chunk.length_lt_of_next? _hnext

end Edit

end BitcoinScript
