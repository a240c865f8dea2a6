import Mathlib.Data.List.Forall2
import BitcoinScript.Proofs.Program.Framing

/-!
# The grammar of scripts

`Chunk.Written c e` says which byte strings `e` stand for a chunk `c`, in the words of the format:
a byte above `0x4e` alone, a byte up to `0x4b` and as many bytes as it says, or one of the three
bytes between them with a length of one, two or four bytes and as many bytes as that says. These are
the encodings of the well-formed chunks and no others (`Chunk.written_iff`).

A script is a concatenation of such strings. `Program.parse_reads_grammar` says that parsing accepts
exactly the scripts, that a script can be cut in one way only, and that parsing finds this cut.
-/

namespace BitcoinScript

namespace Chunk

/-- The byte strings that stand for a chunk, wherever it is placed. -/
inductive Written : Chunk → Bytes → Prop
  | operation (opcode : Opcode) (offset : Nat) (hbyte : 0x4e < opcode.byte) :
      Written ⟨opcode, none, offset⟩ [opcode.byte]
  | direct (opcode : Opcode) (data : Bytes) (offset : Nat) (hbyte : opcode.byte ≤ 0x4b)
      (hdata : data.length = opcode.byte.toNat) :
      Written ⟨opcode, some data, offset⟩ (opcode.byte :: data)
  | sized (opcode : Opcode) (width : Nat) (length data : Bytes) (offset : Nat)
      (hbyte : (opcode.byte, width) ∈ [((0x4c : UInt8), 1), (0x4d, 2), (0x4e, 4)])
      (hlength : length.length = width) (hdata : data.length = Bytes.leValue length) :
      Written ⟨opcode, some data, offset⟩ (opcode.byte :: (length ++ data))

/-- The byte strings of which scripts are made. -/
def IsEncoding (e : Bytes) : Prop := ∃ c : Chunk, c.Written e

/-! ## Encodings of well-formed chunks -/

theorem isPush_eq_false_iff (opcode : Opcode) :
    opcode.isPush = false ↔ 0x4e < opcode.byte := by
  simp [Opcode.isPush]

theorem lengthWidth_of_mem {opcode : Opcode} {width : Nat}
    (h : (opcode.byte, width) ∈ [((0x4c : UInt8), 1), (0x4d, 2), (0x4e, 4)]) :
    opcode.lengthWidth = width ∧ opcode.isPush = true ∧ width ≠ 0 := by
  obtain ⟨byte⟩ := opcode
  simp only [List.mem_cons, Prod.mk.injEq, List.not_mem_nil, or_false] at h
  rcases h with ⟨rfl, rfl⟩ | ⟨rfl, rfl⟩ | ⟨rfl, rfl⟩
  · exact ⟨rfl, rfl, by decide⟩
  · exact ⟨rfl, rfl, by decide⟩
  · exact ⟨rfl, rfl, by decide⟩

theorem lengthWidth_of_le {opcode : Opcode} (h : opcode.byte ≤ 0x4b) :
    opcode.lengthWidth = 0 ∧ opcode.isPush = true := by
  have hne : ∀ b : UInt8, 0x4b < b → opcode ≠ ⟨b⟩ := by
    rintro b hb rfl
    exact absurd h (UInt8.not_le.mpr hb)
  constructor
  · simp only [Opcode.lengthWidth, Opcode.pushData1, Opcode.pushData2, Opcode.pushData4,
      hne 0x4c (by decide), hne 0x4d (by decide), hne 0x4e (by decide), if_false]
  · have hle : opcode.byte ≤ 0x4e := UInt8.le_trans h (by decide)
    simpa [Opcode.isPush] using hle

/-- A push opcode is a length itself, or has length bytes after it. -/
theorem push_cases {opcode : Opcode} (h : opcode.isPush = true) :
    (opcode.byte ≤ 0x4b ∧ opcode.lengthWidth = 0) ∨
      (opcode.byte, opcode.lengthWidth) ∈ [((0x4c : UInt8), 1), (0x4d, 2), (0x4e, 4)] := by
  have hle : opcode.byte.toNat ≤ 0x4e := by
    simpa [Opcode.isPush, UInt8.le_iff_toNat_le] using h
  by_cases hdirect : opcode.byte.toNat ≤ 0x4b
  · have hbyte : opcode.byte ≤ 0x4b := UInt8.le_iff_toNat_le.mpr hdirect
    exact Or.inl ⟨hbyte, (lengthWidth_of_le hbyte).1⟩
  · have hbyte : opcode.byte.toNat = 0x4c ∨ opcode.byte.toNat = 0x4d ∨
        opcode.byte.toNat = 0x4e := by omega
    have hop : ∀ b : UInt8, opcode.byte.toNat = b.toNat → opcode = ⟨b⟩ := by
      intro b hb
      rw [← UInt8.toNat_inj.mp hb]
    refine Or.inr ?_
    rcases hbyte with hbyte | hbyte | hbyte
    · rw [hop 0x4c hbyte]
      decide
    · rw [hop 0x4d hbyte]
      decide
    · rw [hop 0x4e hbyte]
      decide

theorem Written.wellFormed {c : Chunk} {e : Bytes} (h : c.Written e) : c.WellFormed := by
  cases h with
  | operation opcode offset hbyte => exact (isPush_eq_false_iff opcode).mpr hbyte
  | direct opcode data offset hbyte hdata =>
      obtain ⟨hwidth, hpush⟩ := lengthWidth_of_le hbyte
      refine ⟨hpush, ?_⟩
      rw [if_pos hwidth]
      exact hdata
  | sized opcode width length data offset hbyte hlength hdata =>
      obtain ⟨hwidth, hpush, hpos⟩ := lengthWidth_of_mem hbyte
      refine ⟨hpush, ?_⟩
      rw [hwidth, if_neg hpos, hdata, ← hlength]
      exact Bytes.leValue_lt length

theorem Written.encode_eq {c : Chunk} {e : Bytes} (h : c.Written e) : c.encode = e := by
  cases h with
  | operation opcode offset hbyte => rfl
  | direct opcode data offset hbyte hdata =>
      simp only [encode, (lengthWidth_of_le hbyte).1, Bytes.le_zero, List.nil_append]
  | sized opcode width length data offset hbyte hlength hdata =>
      have hprefix : Bytes.le width data.length = length := by
        rw [hdata, ← hlength, Bytes.le_leValue]
      simp only [encode, (lengthWidth_of_mem hbyte).1, hprefix]

theorem WellFormed.written {c : Chunk} (h : c.WellFormed) : c.Written c.encode := by
  obtain ⟨opcode, payload, offset⟩ := c
  cases payload with
  | none => exact .operation opcode offset ((isPush_eq_false_iff opcode).mp h)
  | some data =>
      obtain ⟨hpush, hlength⟩ := h
      rcases push_cases hpush with ⟨hbyte, hwidth⟩ | hbyte
      · rw [if_pos hwidth] at hlength
        have hencode : encode ⟨opcode, some data, offset⟩ = opcode.byte :: data := by
          simp only [encode, hwidth, Bytes.le_zero, List.nil_append]
        rw [hencode]
        exact .direct opcode data offset hbyte hlength
      · rw [if_neg (lengthWidth_of_mem hbyte).2.2] at hlength
        exact .sized opcode _ _ data offset hbyte (Bytes.length_le _ _)
          (Bytes.leValue_le_of_lt hlength).symm

/-- The grammar and the serializer agree: each well-formed chunk is written in one way. -/
theorem written_iff {c : Chunk} {e : Bytes} : c.Written e ↔ c.WellFormed ∧ c.encode = e := by
  constructor
  · intro h
    exact ⟨h.wellFormed, h.encode_eq⟩
  · rintro ⟨hc, rfl⟩
    exact hc.written

theorem isSome_payload_iff {c : Chunk} (hc : c.WellFormed) :
    c.payload.isSome = true ↔ c.opcode.byte ≤ 0x4e := by
  obtain ⟨opcode, payload, offset⟩ := c
  cases payload with
  | none =>
      have hbyte : 0x4e < opcode.byte := (isPush_eq_false_iff opcode).mp hc
      simpa using hbyte
  | some data =>
      have hpush : opcode.isPush = true := hc.1
      simpa [Opcode.isPush] using hpush

/-! ## Chunks in their places -/

/-- The chunks, placed one after the other from `offset` on. -/
def place : (offset : Nat) → List Chunk → List Chunk
  | _, [] => []
  | offset, c :: rest => { c with offset := offset } :: place (offset + c.size) rest

theorem placed_place (offset : Nat) (cs : List Chunk) : Placed offset (place offset cs) := by
  induction cs generalizing offset with
  | nil => trivial
  | cons c rest ih => exact ⟨rfl, ih (offset + c.size)⟩

theorem wellFormed_place {cs : List Chunk} (h : ∀ c ∈ cs, c.WellFormed) (offset : Nat) :
    ∀ c ∈ place offset cs, c.WellFormed := by
  induction cs generalizing offset with
  | nil => exact h
  | cons c rest ih =>
      simp only [List.forall_mem_cons] at h
      simp only [place, List.forall_mem_cons]
      exact ⟨h.1, ih h.2 (offset + c.size)⟩

theorem map_encode_place (offset : Nat) (cs : List Chunk) :
    (place offset cs).map encode = cs.map encode := by
  induction cs generalizing offset with
  | nil => rfl
  | cons c rest ih => rw [place, List.map_cons, List.map_cons, ih, encode_move]

/-- Encodings are those of some well-formed chunks. -/
theorem exists_map_encode {es : List Bytes} (h : ∀ e ∈ es, IsEncoding e) :
    ∃ cs : List Chunk, (∀ c ∈ cs, c.WellFormed) ∧ cs.map encode = es := by
  induction es with
  | nil =>
      refine ⟨[], ?_, rfl⟩
      intro c hc
      cases hc
  | cons e rest ih =>
      simp only [List.forall_mem_cons] at h
      obtain ⟨c, hc⟩ := h.1
      obtain ⟨cs, hcs, rfl⟩ := ih h.2
      refine ⟨c :: cs, List.forall_mem_cons.mpr ⟨hc.wellFormed, hcs⟩, ?_⟩
      rw [List.map_cons, hc.encode_eq]

theorem forall₂_written {cs : List Chunk} (h : ∀ c ∈ cs, c.WellFormed) :
    List.Forall₂ Written cs (cs.map encode) := by
  induction cs with
  | nil => exact .nil
  | cons c rest ih =>
      simp only [List.forall_mem_cons] at h
      exact .cons h.1.written (ih h.2)

end Chunk

namespace Program

open Chunk

/-- Parsing what was written gives back the chunks, in their places. -/
theorem parse_flatten_map_encode {cs : List Chunk} (h : ∀ c ∈ cs, c.WellFormed) :
    parse (cs.map encode).flatten = .ok ⟨place 0 cs, (cs.map encode).flatten⟩ := by
  refine parse_eq_ok_iff.mpr ⟨rfl, chunksFrom_eq_ok_iff.mpr ⟨?_, placed_place 0 cs, ?_⟩⟩
  · exact wellFormed_place h 0
  · rw [List.flatMap_def, map_encode_place]

/-- The decomposition that parsing finds is the only one. -/
theorem map_encode_of_parse {p : Program} {es : List Bytes} (hes : ∀ e ∈ es, IsEncoding e)
    (hp : parse es.flatten = .ok p) : p.chunks.map encode = es := by
  obtain ⟨cs, hcs, rfl⟩ := exists_map_encode hes
  rw [parse_flatten_map_encode hcs] at hp
  cases hp
  exact map_encode_place 0 cs

theorem exists_parse_flatten {es : List Bytes} (hes : ∀ e ∈ es, IsEncoding e) :
    ∃ p, parse es.flatten = .ok p := by
  obtain ⟨cs, hcs, rfl⟩ := exists_map_encode hes
  exact ⟨_, parse_flatten_map_encode hcs⟩

theorem isEncoding_of_parse {b : Bytes} {p : Program} (hp : parse b = .ok p) :
    ∀ e ∈ p.chunks.map encode, IsEncoding e := by
  intro e he
  obtain ⟨c, hc, rfl⟩ := List.mem_map.mp he
  exact ⟨c, (wellFormed_of_parse hp c hc).written⟩

theorem flatten_of_parse {b : Bytes} {p : Program} (hp : parse b = .ok p) :
    (p.chunks.map encode).flatten = b := by
  rw [← List.flatMap_def]
  exact serialize_of_parse hp

/-- **Parsing accepts exactly its grammar, and writing inverts it.** A byte string is accepted if
and only if it is a concatenation of encodings. There is one such cut only; the chunks returned are
its members in order, at their positions, and written again they are the string. Conversely,
whatever well-formed chunks are written, parsing returns them. -/
theorem parse_reads_grammar :
    (∀ b : Bytes,
      ((∃ p, parse b = .ok p) ↔
        ∃ es : List Bytes, (∀ e ∈ es, IsEncoding e) ∧ es.flatten = b) ∧
      (∀ es fs : List Bytes, (∀ e ∈ es, IsEncoding e) → (∀ f ∈ fs, IsEncoding f) → es.flatten = b →
        fs.flatten = b → es = fs) ∧
      ∀ p, parse b = .ok p → p.serialize = b ∧
        ∀ es : List Bytes, (∀ e ∈ es, IsEncoding e) → es.flatten = b →
          List.Forall₂ Written p.chunks es ∧
          (∀ c ∈ p.chunks, c.payload.isSome = true ↔ c.opcode.byte ≤ 0x4e) ∧
          ∀ (i : Nat) (c : Chunk), p.chunks[i]? = some c → c.offset = (es.take i).flatten.length) ∧
    ∀ cs : List Chunk, (∀ c ∈ cs, ∃ e, c.Written e) →
      List.Forall₂ Written cs (cs.map encode) ∧
        parse (cs.map encode).flatten = .ok ⟨place 0 cs, (cs.map encode).flatten⟩ := by
  refine ⟨fun b => ⟨⟨?_, ?_⟩, ?_, ?_⟩, ?_⟩
  · rintro ⟨p, hp⟩
    exact ⟨p.chunks.map encode, isEncoding_of_parse hp, flatten_of_parse hp⟩
  · rintro ⟨es, hes, rfl⟩
    exact exists_parse_flatten hes
  · rintro es fs hes hfs rfl hflatten
    obtain ⟨p, hp⟩ := exists_parse_flatten hes
    have hfirst := map_encode_of_parse hes hp
    rw [← hflatten] at hp
    rw [← hfirst, map_encode_of_parse hfs hp]
  · intro p hp
    refine ⟨serialize_of_parse hp, ?_⟩
    rintro es hes rfl
    have hcut := map_encode_of_parse hes hp
    have hwf := wellFormed_of_parse hp
    have hplaced := (chunksFrom_eq_ok_iff.mp (parse_eq_ok_iff.mp hp).2).2.1
    refine ⟨?_, fun c hc => isSome_payload_iff (hwf c hc), ?_⟩
    · rw [← hcut]
      exact forall₂_written hwf
    · intro i c hc
      rw [hplaced.offset_getElem? hc, Nat.zero_add, ← hcut, ← List.map_take, List.flatMap_def]
  · intro cs hcs
    have hwf : ∀ c ∈ cs, c.WellFormed := by
      intro c hc
      obtain ⟨e, he⟩ := hcs c hc
      exact he.wellFormed
    exact ⟨forall₂_written hwf, parse_flatten_map_encode hwf⟩

/-- A push with a length byte, followed by an operation: the second chunk stands at position
four. -/
theorem parse_reads_sized_push :
    (∀ c ∈ [(⟨.pushData1, some [0xaa, 0xbb], 0⟩ : Chunk), ⟨⟨0x76⟩, none, 0⟩], ∃ e, c.Written e) ∧
      parse [0x4c, 0x02, 0xaa, 0xbb, 0x76] =
        .ok ⟨[⟨.pushData1, some [0xaa, 0xbb], 0⟩, ⟨⟨0x76⟩, none, 4⟩],
          [0x4c, 0x02, 0xaa, 0xbb, 0x76]⟩ := by
  have hwritten : ∀ c ∈ [(⟨.pushData1, some [0xaa, 0xbb], 0⟩ : Chunk), ⟨⟨0x76⟩, none, 0⟩],
      ∃ e, c.Written e := by
    simp only [List.forall_mem_cons]
    refine ⟨⟨_, .sized .pushData1 1 [0x02] [0xaa, 0xbb] 0 (by decide) rfl rfl⟩,
      ⟨_, .operation ⟨0x76⟩ 0 (by decide)⟩, ?_⟩
    intro c hc
    cases hc
  exact ⟨hwritten, (parse_reads_grammar.2 _ hwritten).2⟩

end Program

end BitcoinScript
