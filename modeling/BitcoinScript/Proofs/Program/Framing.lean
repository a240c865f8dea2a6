import BitcoinScript.Program

/-!
# Scripts as sequences of well-formed chunks

A chunk is well-formed if its opcode announces exactly the data it carries (`Chunk.WellFormed`).
Well-formed chunks form a prefix code: a string that starts with the encoding of one starts with no
other (`Chunk.encode_prefixFree`), because reading takes off what was written
(`Chunk.read_encode`).

For whole scripts, `Program.chunksFrom_eq_ok_iff` says that parsing succeeds with exactly the
sequences of well-formed chunks, placed one after the other, whose encodings join to the script.
The positions of the chunks therefore cut the script where the chunks do (`Program.drop_startOf`).
-/

namespace BitcoinScript

namespace Chunk

/-- Whether the opcode of a chunk announces the data the chunk carries: no data for an opcode that
is no push, as many bytes as the opcode says for a direct push, and a length that fits the length
bytes otherwise. -/
def WellFormed (c : Chunk) : Prop :=
  match c.payload with
  | none => c.opcode.isPush = false
  | some data =>
      c.opcode.isPush = true ∧
        if c.opcode.lengthWidth = 0 then data.length = c.opcode.byte.toNat
        else data.length < Bytes.span c.opcode.lengthWidth

theorem payload_eq_none {c : Chunk} (hc : c.WellFormed) (h : c.opcode.isPush = false) :
    c.payload = none := by
  cases hpayload : c.payload with
  | none => rfl
  | some data =>
      simp only [WellFormed, hpayload, h] at hc
      cases hc.1

theorem declaredLength_le {c : Chunk} (hc : c.WellFormed) {data : Bytes}
    (hdata : c.payload = some data) :
    declaredLength c.opcode (Bytes.le c.opcode.lengthWidth data.length) = data.length := by
  simp only [WellFormed, hdata] at hc
  unfold declaredLength
  split
  · rename_i hw
    rw [if_pos hw] at hc
    exact hc.2.symm
  · rename_i hw
    rw [if_neg hw] at hc
    exact Bytes.leValue_le_of_lt hc.2

/-- Reading takes off what was written, whatever follows. -/
theorem read_encode {c : Chunk} (hc : c.WellFormed) (offset : Nat) (rest : Bytes) :
    read offset c.opcode (c.encode.tail ++ rest) = .ok ({ c with offset := offset }, rest) := by
  obtain ⟨opcode, payload, position⟩ := c
  cases payload with
  | none =>
      have hpush : opcode.isPush = false := hc
      simp [read, encode, hpush]
  | some data =>
      have hpush : opcode.isPush = true := hc.1
      have hdeclared : declaredLength opcode (Bytes.le opcode.lengthWidth data.length) =
          data.length := declaredLength_le hc rfl
      simp only [encode, List.tail_cons, List.append_assoc] at hdeclared ⊢
      have hlength : (Bytes.le opcode.lengthWidth data.length ++ (data ++ rest)).take
          opcode.lengthWidth = Bytes.le opcode.lengthWidth data.length :=
        List.take_left' (Bytes.length_le _ _)
      have hbody : (Bytes.le opcode.lengthWidth data.length ++ (data ++ rest)).drop
          opcode.lengthWidth = data ++ rest :=
        List.drop_left' (Bytes.length_le _ _)
      simp only [read, hpush, if_true, hlength, hbody, hdeclared, Bytes.length_le, Nat.lt_irrefl,
        if_false, List.take_left, List.drop_left]

theorem wellFormed_of_read {offset : Nat} {opcode : Opcode} {rest tail : Bytes} {c : Chunk}
    (h : read offset opcode rest = .ok (c, tail)) :
    c.WellFormed ∧ c.opcode = opcode ∧ c.offset = offset := by
  unfold read at h
  split at h
  · rename_i hpush
    simp only at h
    split at h
    · cases h
    · rename_i hwidth
      split at h
      · cases h
      · rename_i hdata
        simp only [Except.ok.injEq, Prod.mk.injEq] at h
        obtain ⟨rfl, -⟩ := h
        refine ⟨⟨hpush, ?_⟩, rfl, rfl⟩
        simp only [List.length_take] at hwidth hdata ⊢
        unfold declaredLength at hdata ⊢
        split
        · rename_i hw
          simp only [hw, if_true] at hdata ⊢
          omega
        · rename_i hw
          simp only [hw, if_false] at hdata ⊢
          have hlt := Bytes.leValue_lt (rest.take opcode.lengthWidth)
          rw [List.length_take, Nat.min_eq_left (by omega)] at hlt
          omega
  · rename_i hpush
    simp only [Except.ok.injEq, Prod.mk.injEq] at h
    obtain ⟨rfl, -⟩ := h
    exact ⟨by simpa [WellFormed] using hpush, rfl, rfl⟩

theorem next?_encode {c : Chunk} (hc : c.WellFormed) (rest : Bytes) :
    next? (c.encode ++ rest) = some ({ c with offset := 0 }, rest) := by
  have hread := read_encode hc 0 rest
  simp only [encode, List.tail_cons] at hread
  simp only [encode, List.cons_append, next?, hread]

@[simp] theorem encode_move (c : Chunk) (offset : Nat) :
    ({ c with offset := offset } : Chunk).encode = c.encode := rfl

/-- Well-formed chunks form a prefix code. -/
theorem encode_prefixFree {c d : Chunk} (hc : c.WellFormed) (hd : d.WellFormed) {rest : Bytes}
    (h : c.encode <+: d.encode ++ rest) : c.encode = d.encode := by
  obtain ⟨tail, htail⟩ := h
  have hread := next?_encode hd rest
  rw [← htail, next?_encode hc tail] at hread
  simp only [Option.some.injEq, Prod.mk.injEq] at hread
  rw [← encode_move c 0, hread.1, encode_move]

/-- The chunks stand one after the other from `offset` on. -/
def Placed : (offset : Nat) → List Chunk → Prop
  | _, [] => True
  | offset, c :: rest => c.offset = offset ∧ Placed (offset + c.size) rest

theorem Placed.offset_getElem? {offset : Nat} {cs : List Chunk} (h : Placed offset cs) {i : Nat}
    {c : Chunk} (hc : cs[i]? = some c) :
    c.offset = offset + ((cs.take i).flatMap encode).length := by
  induction cs generalizing offset i with
  | nil => simp at hc
  | cons d rest ih =>
      obtain ⟨hd, hrest⟩ := h
      cases i with
      | zero =>
          simp only [List.getElem?_cons_zero, Option.some.injEq] at hc
          subst hc
          simpa using hd
      | succ i =>
          have := ih hrest (by simpa using hc)
          rw [this, List.take_succ_cons, List.flatMap_cons, List.length_append, length_encode]
          omega

end Chunk

namespace Program

open Chunk

/-- What parsing accepts, and what it returns. -/
theorem chunksFrom_eq_ok_iff {offset : Nat} {b : Bytes} {cs : List Chunk} :
    chunksFrom offset b = .ok cs ↔
      (∀ c ∈ cs, c.WellFormed) ∧ Placed offset cs ∧ cs.flatMap Chunk.encode = b := by
  constructor
  · intro h
    fun_induction chunksFrom offset b generalizing cs with
    | case1 offset =>
        cases h
        simp [Placed]
    | case2 => cases h
    | case3 => cases h
    | case4 offset x rest c tail hread cs' hcs ih =>
        cases h
        obtain ⟨hwf, hplaced, hjoin⟩ := ih hcs
        obtain ⟨hc, -, hoffset⟩ := wellFormed_of_read hread
        refine ⟨?_, ⟨hoffset, hplaced⟩, ?_⟩
        · simpa using ⟨hc, hwf⟩
        · rw [List.flatMap_cons, hjoin, encode_append_of_read hread]
  · rintro ⟨hwf, hplaced, rfl⟩
    induction cs generalizing offset with
    | nil => simp [chunksFrom]
    | cons c cs ih =>
        obtain ⟨hoffset, hrest⟩ := hplaced
        simp only [List.forall_mem_cons] at hwf
        have hread := read_encode hwf.1 offset (cs.flatMap Chunk.encode)
        have hmoved : ({ c with offset := offset } : Chunk) = c := by
          rw [← hoffset]
        have hcons : c.encode ++ cs.flatMap Chunk.encode =
            c.opcode.byte :: (c.encode.tail ++ cs.flatMap Chunk.encode) := rfl
        rw [List.flatMap_cons, hcons, chunksFrom]
        split
        · rename_i e he
          rw [hread] at he
          cases he
        · rename_i d tail hd
          rw [hread, hmoved] at hd
          cases hd
          rw [ih hwf.2 hrest]

theorem parse_eq_ok_iff {b : Bytes} {p : Program} :
    parse b = .ok p ↔ p.bytes = b ∧ chunksFrom 0 b = .ok p.chunks := by
  obtain ⟨chunks, bytes⟩ := p
  unfold parse
  cases h : chunksFrom 0 b with
  | error e => simp
  | ok cs => simp [eq_comm, and_comm]

theorem wellFormed_of_parse {b : Bytes} {p : Program} (h : parse b = .ok p) :
    ∀ c ∈ p.chunks, c.WellFormed :=
  (chunksFrom_eq_ok_iff.mp (parse_eq_ok_iff.mp h).2).1

theorem serialize_of_parse {b : Bytes} {p : Program} (h : parse b = .ok p) : p.serialize = b :=
  (chunksFrom_eq_ok_iff.mp (parse_eq_ok_iff.mp h).2).2.2

theorem bytes_of_parse {b : Bytes} {p : Program} (h : parse b = .ok p) : p.bytes = b :=
  (parse_eq_ok_iff.mp h).1

/-- The position at which the chunk of an index starts, the end of the script past the last one. -/
def startOf (p : Program) (i : Nat) : Nat :=
  match p.chunks[i]? with
  | some c => c.offset
  | none => p.size

theorem startOf_eq_length {b : Bytes} {p : Program} (h : parse b = .ok p) (i : Nat) :
    p.startOf i = ((p.chunks.take i).flatMap Chunk.encode).length := by
  have hplaced := (chunksFrom_eq_ok_iff.mp (parse_eq_ok_iff.mp h).2).2.1
  unfold startOf
  split
  · rename_i c hc
    rw [hplaced.offset_getElem? hc, Nat.zero_add]
  · rename_i hnone
    rw [List.take_of_length_le (List.getElem?_eq_none_iff.mp hnone), size, bytes_of_parse h,
      ← serialize_of_parse h, serialize]

theorem bytes_eq_append {b : Bytes} {p : Program} (h : parse b = .ok p) (i : Nat) : p.bytes =
    (p.chunks.take i).flatMap Chunk.encode ++ (p.chunks.drop i).flatMap Chunk.encode := by
  rw [← List.flatMap_append, List.take_append_drop, bytes_of_parse h, ← serialize_of_parse h,
    serialize]

/-- The script from a chunk on is made of the chunks from there on. -/
theorem drop_startOf {b : Bytes} {p : Program} (h : parse b = .ok p) (i : Nat) :
    p.bytes.drop (p.startOf i) = (p.chunks.drop i).flatMap Chunk.encode := by
  rw [startOf_eq_length h, bytes_eq_append h i, List.drop_left]

/-- The chunk after one of a single byte starts at the next position. -/
theorem startOf_succ {b : Bytes} {p : Program} (h : parse b = .ok p) {i : Nat} {c : Chunk}
    (hc : p.chunks[i]? = some c) (hsize : c.size = 1) : p.startOf (i + 1) = c.offset + 1 := by
  have hstart : p.startOf i = c.offset := by rw [startOf, hc]
  rw [startOf_eq_length h] at hstart
  rw [startOf_eq_length h, List.take_add_one, hc, List.flatMap_append, List.length_append, hstart]
  simp [length_encode, hsize]

/-- Every chunk lies inside of the script. -/
theorem offset_add_size_le {b : Bytes} {p : Program} (h : parse b = .ok p) {c : Chunk}
    (hc : c ∈ p.chunks) : c.offset + c.size ≤ p.bytes.length := by
  obtain ⟨i, hi⟩ := List.getElem?_of_mem hc
  have hplaced := (chunksFrom_eq_ok_iff.mp (parse_eq_ok_iff.mp h).2).2.1
  have hsum : ((p.chunks.take (i + 1)).flatMap Chunk.encode).length = c.offset + c.size := by
    rw [List.take_add_one, hi, List.flatMap_append, List.length_append, hplaced.offset_getElem? hi,
      Nat.zero_add]
    simp [length_encode]
  rw [← hsum, bytes_eq_append h (i + 1), List.length_append]
  exact Nat.le_add_right _ _

end Program

end BitcoinScript
