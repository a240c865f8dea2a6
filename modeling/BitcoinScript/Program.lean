import BitcoinScript.Chunk

/-!
# Programs

A program is a script together with the chunks it is made of. `Program.parse` cuts a byte string
into chunks from front to back and fails at the first push that breaks off; `Program.serialize`
writes the chunks one after the other.
-/

namespace BitcoinScript

/-- A script and its chunks. -/
structure Program where
  chunks : List Chunk
  bytes : Bytes
deriving DecidableEq, Repr

namespace Program

/-- The chunks of a byte string whose first byte stands at `offset`. -/
def chunksFrom (offset : Nat) : Bytes → Except ParseError (List Chunk)
  | [] => .ok []
  | b :: rest =>
      match _hread : Chunk.read offset ⟨b⟩ rest with
      | .error e => .error e
      | .ok (c, tail) =>
          match chunksFrom (offset + c.size) tail with
          | .error e => .error e
          | .ok cs => .ok (c :: cs)
termination_by b => b.length
decreasing_by exact Chunk.length_lt_of_read _hread

/-- Cuts a script into its chunks. -/
def parse (bytes : Bytes) : Except ParseError Program :=
  match chunksFrom 0 bytes with
  | .error e => .error e
  | .ok chunks => .ok ⟨chunks, bytes⟩

/-- The length of the script. -/
def size (p : Program) : Nat := p.bytes.length

/-- The chunks, written one after the other. -/
def serialize (p : Program) : Bytes := p.chunks.flatMap Chunk.encode

/-- Whether the program only pushes data and small numbers. -/
def isPushOnly (p : Program) : Bool :=
  p.chunks.all fun c => c.opcode.byte ≤ Opcode.sixteen.byte

/-- Whether the script pays to the hash of a script: `OP_HASH160`, a direct push of 20 bytes,
`OP_EQUAL`. -/
def isP2sh (p : Program) : Bool :=
  p.bytes.length == 23 && p.bytes[0]? == some Opcode.hash160.byte && p.bytes[1]? == some 0x14 &&
    p.bytes[22]? == some Opcode.equal.byte

/-- The text of a chunk: its data, `0` for an empty push, or its opcode. -/
def chunkText (c : Chunk) : String :=
  match c.payload with
  | some [] => "0"
  | some data => Hex.encode data
  | none => c.opcode.text

/-- The program as text, chunk by chunk. -/
def text (p : Program) : String :=
  " ".intercalate (p.chunks.map chunkText)

end Program

end BitcoinScript
