import BitcoinScript.Opcode

/-!
# Chunks of a script

A script is a sequence of chunks: an opcode above `0x4e` alone, or a push opcode with its data.
Between a push opcode and its data stands the length of the data for the three opcodes that need
one; the others are themselves the length.

* `Chunk.read` takes the first chunk off a byte string, or says how the string breaks off.
* `Chunk.encode` writes a chunk. `encode_append_of_read` says that reading only takes apart:
  what was read, written again, and the rest are the string.
-/

namespace BitcoinScript

/-- One opcode of a script, with the data it pushes and its position in the script. -/
structure Chunk where
  opcode : Opcode
  /-- The data of a push opcode, absent for all others. -/
  payload : Option Bytes
  /-- The position of the opcode in the script. -/
  offset : Nat
deriving DecidableEq, Repr

/-- How a script breaks off inside a push. -/
inductive ParseError where
  /-- Fewer length bytes follow than the opcode needs. -/
  | truncatedLength (opcode : Opcode) (offset : Nat)
  /-- Fewer data bytes follow than declared. -/
  | truncatedData (opcode : Opcode) (offset declared available : Nat)
deriving DecidableEq, Repr

/-- The text of a parse error. -/
def ParseError.message : ParseError → String
  | .truncatedLength opcode offset =>
      opcode.text ++ " at offset " ++ toString offset ++ " has a truncated length prefix"
  | .truncatedData opcode offset declared available =>
      opcode.text ++ " at offset " ++ toString offset ++ " declares " ++ toString declared ++
        " bytes but only " ++ toString available ++ " remain"

namespace Chunk

/-- The bytes of a chunk. -/
def encode (c : Chunk) : Bytes :=
  c.opcode.byte ::
    match c.payload with
    | none => []
    | some data => Bytes.le c.opcode.lengthWidth data.length ++ data

/-- The number of bytes of a chunk. -/
def size (c : Chunk) : Nat :=
  match c.payload with
  | none => 1
  | some data => 1 + c.opcode.lengthWidth + data.length

/-- The length of the data that a push opcode announces, given the length bytes after it. -/
def declaredLength (opcode : Opcode) (lengthBytes : Bytes) : Nat :=
  if opcode.lengthWidth = 0 then opcode.byte.toNat else Bytes.leValue lengthBytes

/-- Reads the chunk whose opcode stands at `offset` and is followed by `rest`, and returns it with
the bytes after it. -/
def read (offset : Nat) (opcode : Opcode) (rest : Bytes) : Except ParseError (Chunk × Bytes) :=
  if opcode.isPush then
    let width := opcode.lengthWidth
    let lengthBytes := rest.take width
    if lengthBytes.length < width then .error (.truncatedLength opcode offset)
    else
      let body := rest.drop width
      let declared := declaredLength opcode lengthBytes
      let data := body.take declared
      if data.length < declared then
        .error (.truncatedData opcode offset declared body.length)
      else .ok (⟨opcode, some data, offset⟩, body.drop declared)
  else .ok (⟨opcode, none, offset⟩, rest)

/-- The first chunk of a byte string and the bytes after it, if the string starts with a complete
chunk. -/
def next? : Bytes → Option (Chunk × Bytes)
  | [] => none
  | b :: rest =>
      match read 0 ⟨b⟩ rest with
      | .ok found => some found
      | .error _ => none

/-- Whether a push is the shortest way to push its data, small-number opcodes included. Other
chunks are minimal. -/
def isMinimalPush (c : Chunk) : Bool :=
  match c.payload with
  | none => true
  | some [] => c.opcode == Opcode.push0
  | some [b] =>
      if 1 ≤ b ∧ b ≤ 16 then c.opcode.byte == 0x50 + b
      else if b = 0x81 then c.opcode == Opcode.minusOne
      else c.opcode.byte == 1
  | some data =>
      let length := data.length
      if length ≤ 75 then c.opcode.byte.toNat == length
      else if length ≤ 0xff then c.opcode == Opcode.pushData1
      else if length ≤ 0xffff then c.opcode == Opcode.pushData2
      else true

theorem length_encode (c : Chunk) : c.encode.length = c.size := by
  unfold encode size
  split
  · simp
  · simp
    omega

theorem encode_append_of_read {offset : Nat} {opcode : Opcode} {rest tail : Bytes} {c : Chunk}
    (h : read offset opcode rest = .ok (c, tail)) :
    c.encode ++ tail = opcode.byte :: rest := by
  unfold read at h
  split at h
  · simp only at h
    split at h
    · cases h
    · rename_i hwidth
      split at h
      · cases h
      · rename_i hdata
        simp only [Except.ok.injEq, Prod.mk.injEq] at h
        obtain ⟨rfl, rfl⟩ := h
        generalize hdecl : declaredLength opcode (rest.take opcode.lengthWidth) = declared at hdata
        unfold declaredLength at hdecl
        have hlen : ((rest.drop opcode.lengthWidth).take declared).length = declared := by
          simp only [List.length_take] at hdata ⊢
          omega
        have hwl : (rest.take opcode.lengthWidth).length = opcode.lengthWidth := by
          simp only [List.length_take] at hwidth ⊢
          omega
        have hhead : Bytes.le opcode.lengthWidth declared = rest.take opcode.lengthWidth := by
          by_cases hw : opcode.lengthWidth = 0
          · simp [hw]
          · rw [if_neg hw] at hdecl
            have := Bytes.le_leValue (rest.take opcode.lengthWidth)
            rw [hwl, hdecl] at this
            exact this
        simp only [encode, hlen, hhead, List.cons_append, List.append_assoc,
          List.take_append_drop]
  · simp only [Except.ok.injEq, Prod.mk.injEq] at h
    obtain ⟨rfl, rfl⟩ := h
    rfl

theorem encode_append_of_next? {b tail : Bytes} {c : Chunk} (h : next? b = some (c, tail)) :
    c.encode ++ tail = b := by
  cases b with
  | nil => cases h
  | cons x rest =>
      simp only [next?] at h
      split at h
      · rename_i found hread
        cases h
        exact encode_append_of_read hread
      · cases h

theorem size_pos (c : Chunk) : 0 < c.size := by
  unfold size
  split <;> omega

theorem length_lt_of_read {offset : Nat} {opcode : Opcode} {rest tail : Bytes} {c : Chunk}
    (h : read offset opcode rest = .ok (c, tail)) : tail.length < rest.length + 1 := by
  have hl := congrArg List.length (encode_append_of_read h)
  have := c.size_pos
  simp only [List.length_append, length_encode, List.length_cons] at hl
  omega

theorem length_lt_of_next? {b tail : Bytes} {c : Chunk} (h : next? b = some (c, tail)) :
    tail.length < b.length := by
  have hl := congrArg List.length (encode_append_of_next? h)
  have := c.size_pos
  simp only [List.length_append, length_encode] at hl
  omega

end Chunk

end BitcoinScript
