import BitcoinScript.Proofs.Program.Grammar

/-!
# Scripts joined and broken off

Chunks are read from front to back, and a chunk is read in the same way wherever it stands: more
bytes in front move its position and nothing else (`Chunk.read_behind`). So a script joined to
complete chunks is read on after them (`Program.parse_append`), with its chunks, or its error,
behind those.

`ParseError.Describes e rest` says in the words of the format how the bytes from the opcode at fault
on break off. The error of a script is the one that describes what follows its complete chunks
(`Program.parse_eq_error_iff`).
-/

namespace BitcoinScript

namespace ParseError

/-- The push opcode at fault. -/
def opcode : ParseError → Opcode
  | .truncatedLength opcode _ => opcode
  | .truncatedData opcode _ _ _ => opcode

/-- The position of the opcode at fault. -/
def offset : ParseError → Nat
  | .truncatedLength _ offset => offset
  | .truncatedData _ offset _ _ => offset

/-- The error behind `n` more bytes of script. -/
def behind (n : Nat) : ParseError → ParseError
  | .truncatedLength opcode offset => .truncatedLength opcode (n + offset)
  | .truncatedData opcode offset declared available =>
      .truncatedData opcode (n + offset) declared available

/-- The bytes, from the opcode at fault on, break off as the error says: inside of the length bytes,
or inside of data whose length is the opcode itself or stands between the opcode and the data. -/
inductive Describes : ParseError → Bytes → Prop
  | length (opcode : Opcode) (width : Nat) (rest : Bytes) (offset : Nat)
      (hbyte : (opcode.byte, width) ∈ [((0x4c : UInt8), 1), (0x4d, 2), (0x4e, 4)])
      (hshort : rest.length < width) :
      Describes (.truncatedLength opcode offset) (opcode.byte :: rest)
  | direct (opcode : Opcode) (data : Bytes) (offset : Nat) (hbyte : opcode.byte ≤ 0x4b)
      (hshort : data.length < opcode.byte.toNat) :
      Describes (.truncatedData opcode offset opcode.byte.toNat data.length) (opcode.byte :: data)
  | sized (opcode : Opcode) (width : Nat) (length data : Bytes) (offset : Nat)
      (hbyte : (opcode.byte, width) ∈ [((0x4c : UInt8), 1), (0x4d, 2), (0x4e, 4)])
      (hlength : length.length = width) (hshort : data.length < Bytes.leValue length) :
      Describes (.truncatedData opcode offset (Bytes.leValue length) data.length)
        (opcode.byte :: (length ++ data))

section Describes

variable {e : ParseError} {rest : Bytes}

theorem Describes.exists_cons (h : e.Describes rest) :
    ∃ tail, rest = e.opcode.byte :: tail ∧ e.opcode.byte ≤ 0x4e := by
  cases h with
  | length opcode width rest offset hbyte hshort =>
      have hpush := (Chunk.lengthWidth_of_mem hbyte).2.1
      have hle : opcode.byte ≤ 0x4e := by simpa [Opcode.isPush] using hpush
      exact ⟨rest, rfl, hle⟩
  | direct opcode data offset hbyte hshort =>
      exact ⟨data, rfl, UInt8.le_trans hbyte (by decide)⟩
  | sized opcode width length data offset hbyte hlength hshort =>
      have hpush := (Chunk.lengthWidth_of_mem hbyte).2.1
      have hle : opcode.byte ≤ 0x4e := by simpa [Opcode.isPush] using hpush
      exact ⟨length ++ data, rfl, hle⟩

/-- The length bytes are at fault where there are fewer of them than the opcode asks for. -/
theorem Describes.truncatedLength_iff (h : e.Describes (e.opcode.byte :: rest)) :
    e = .truncatedLength e.opcode e.offset ↔
      ∃ width, (e.opcode.byte, width) ∈ [((0x4c : UInt8), 1), (0x4d, 2), (0x4e, 4)] ∧
        rest.length < width := by
  constructor
  · intro he
    rw [he] at h
    cases h with
    | length opcode width rest offset hbyte hshort => exact ⟨width, hbyte, hshort⟩
  · rintro ⟨width, hwidth, hfew⟩
    cases h with
    | length opcode width rest offset hbyte hshort => rfl
    | direct opcode data offset hbyte hshort =>
        have hzero := (Chunk.lengthWidth_of_le hbyte).1
        obtain ⟨hsame, -, hpos⟩ := Chunk.lengthWidth_of_mem hwidth
        exact absurd (hsame.symm.trans hzero) hpos
    | sized opcode width' length data offset hbyte hlength hshort =>
        have hsame : opcode.lengthWidth = width := (Chunk.lengthWidth_of_mem hwidth).1
        have hsame' : opcode.lengthWidth = width' := (Chunk.lengthWidth_of_mem hbyte).1
        rw [List.length_append] at hfew
        omega

end Describes

end ParseError

namespace Chunk

/-- The chunk behind `n` more bytes of script. -/
def behind (n : Nat) (c : Chunk) : Chunk := { c with offset := n + c.offset }

/-- A chunk is read in the same way wherever it stands. -/
theorem read_behind (n offset : Nat) (opcode : Opcode) (rest : Bytes) :
    read (n + offset) opcode rest =
      match read offset opcode rest with
      | .ok (c, tail) => .ok (c.behind n, tail)
      | .error e => .error (e.behind n) := by
  unfold read
  split
  · dsimp only
    split
    · rfl
    · split <;> rfl
  · rfl

/-- Where a chunk cannot be read, the error describes the bytes that should be one. -/
theorem describes_of_read_error {offset : Nat} {opcode : Opcode} {rest : Bytes} {e : ParseError}
    (h : read offset opcode rest = .error e) :
    e.Describes (opcode.byte :: rest) ∧ e.offset = offset := by
  unfold read at h
  split at h
  · rename_i hpush
    simp only [List.length_take] at h
    rcases push_cases hpush with ⟨hbyte, hwidth⟩ | hbyte
    · -- the opcode is the length, so there are no length bytes to miss
      simp only [hwidth, declaredLength, if_true, Nat.zero_min, Nat.lt_irrefl, if_false,
        List.drop_zero] at h
      split at h
      · rename_i hshort
        cases h
        exact ⟨.direct opcode rest offset hbyte (by omega), rfl⟩
      · cases h
    · split at h
      · rename_i hfew
        cases h
        exact ⟨.length opcode _ rest offset hbyte (by omega), rfl⟩
      · rename_i hmany
        have hpos := (lengthWidth_of_mem hbyte).2.2
        simp only [declaredLength, hpos, if_false] at h
        split at h
        · rename_i hshort
          cases h
          have hlength : (rest.take opcode.lengthWidth).length = opcode.lengthWidth := by
            rw [List.length_take]
            omega
          have hdescribes := ParseError.Describes.sized opcode _ _
            (rest.drop opcode.lengthWidth) offset hbyte hlength (by omega)
          rw [List.take_append_drop] at hdescribes
          exact ⟨hdescribes, rfl⟩
        · cases h
  · cases h

theorem read_of_describes {e : ParseError} {rest : Bytes}
    (h : e.Describes (e.opcode.byte :: rest)) : read e.offset e.opcode rest = .error e := by
  cases h with
  | length opcode width rest offset hbyte hshort =>
      obtain ⟨rfl, hpush, -⟩ := lengthWidth_of_mem hbyte
      have hfew : min opcode.lengthWidth rest.length < opcode.lengthWidth := by omega
      simp only [read, ParseError.opcode, hpush, if_true, List.length_take, hfew]
      rfl
  | direct opcode data offset hbyte hshort =>
      obtain ⟨hwidth, hpush⟩ := lengthWidth_of_le hbyte
      have hfew : min opcode.byte.toNat rest.length < opcode.byte.toNat := by omega
      simp only [read, ParseError.opcode, hpush, if_true, hwidth, List.length_take,
        declaredLength, Nat.zero_min, Nat.lt_irrefl, if_false, List.drop_zero, hfew]
      rfl
  | sized opcode width length data offset hbyte hlength hshort =>
      obtain ⟨rfl, hpush, hpos⟩ := lengthWidth_of_mem hbyte
      have hfew : min (Bytes.leValue length) data.length < Bytes.leValue length := by omega
      simp only [read, ParseError.opcode, hpush, if_true, List.take_left' hlength,
        List.drop_left' hlength, hlength, Nat.lt_irrefl, if_false, declaredLength, hpos,
        List.length_take, hfew]
      rfl

end Chunk

namespace Program

open Chunk

theorem chunksFrom_of_read_error {offset : Nat} {x : UInt8} {rest : Bytes} {e : ParseError}
    (h : read offset ⟨x⟩ rest = .error e) : chunksFrom offset (x :: rest) = .error e := by
  rw [chunksFrom]
  split
  · rename_i e' he'
    rw [h] at he'
    cases he'
    rfl
  · rename_i c tail hread
    rw [h] at hread
    cases hread

theorem chunksFrom_of_read {offset : Nat} {x : UInt8} {rest tail : Bytes} {c : Chunk}
    (h : read offset ⟨x⟩ rest = .ok (c, tail)) :
    chunksFrom offset (x :: rest) = (chunksFrom (offset + c.size) tail).map (c :: ·) := by
  rw [chunksFrom]
  split
  · rename_i e he
    rw [h] at he
    cases he
  · rename_i d tail' hread
    rw [h] at hread
    cases hread
    cases chunksFrom (offset + c.size) tail <;> rfl

/-- More bytes in front move the chunks, or the error, and change nothing else. -/
theorem chunksFrom_behind (n offset : Nat) (b : Bytes) :
    chunksFrom (n + offset) b =
      match chunksFrom offset b with
      | .ok cs => .ok (cs.map (Chunk.behind n))
      | .error e => .error (e.behind n) := by
  induction hlength : b.length using Nat.strongRecOn generalizing b offset with
  | ind length ih =>
      cases b with
      | nil => simp [chunksFrom]
      | cons x rest =>
          have hmoved := read_behind n offset ⟨x⟩ rest
          cases hread : read offset ⟨x⟩ rest with
          | error e =>
              rw [hread] at hmoved
              rw [chunksFrom_of_read_error hread, chunksFrom_of_read_error hmoved]
          | ok found =>
              obtain ⟨c, tail⟩ := found
              rw [hread] at hmoved
              have hshorter : tail.length < length := hlength ▸ length_lt_of_read hread
              have hrest := ih tail.length hshorter (offset + c.size) tail rfl
              have hsize : (c.behind n).size = c.size := rfl
              rw [chunksFrom_of_read hread, chunksFrom_of_read hmoved, hsize, Nat.add_assoc, hrest]
              cases chunksFrom (offset + c.size) tail <;> rfl

/-- After complete chunks, a script is read on behind them. -/
theorem chunksFrom_append {offset : Nat} {cs : List Chunk} (hwf : ∀ c ∈ cs, c.WellFormed)
    (hplaced : Placed offset cs) (b : Bytes) :
    chunksFrom offset (cs.flatMap encode ++ b) =
      (chunksFrom (offset + (cs.flatMap encode).length) b).map (cs ++ ·) := by
  induction cs generalizing offset with
  | nil =>
      rw [List.flatMap_nil, List.nil_append, List.length_nil, Nat.add_zero]
      cases chunksFrom offset b <;> rfl
  | cons c cs ih =>
      obtain ⟨rfl, hrest⟩ := hplaced
      simp only [List.forall_mem_cons] at hwf
      have hread := read_encode hwf.1 c.offset (cs.flatMap encode ++ b)
      have hcons : (c :: cs).flatMap encode ++ b =
          c.opcode.byte :: (c.encode.tail ++ (cs.flatMap encode ++ b)) := by
        rw [List.flatMap_cons, List.append_assoc]
        rfl
      have hlength : c.offset + ((c :: cs).flatMap encode).length =
          c.offset + c.size + (cs.flatMap encode).length := by
        rw [List.flatMap_cons, List.length_append, length_encode, Nat.add_assoc]
      rw [hcons, hlength, chunksFrom_of_read hread, ih hwf.2 hrest]
      cases chunksFrom (c.offset + c.size + (cs.flatMap encode).length) b <;> rfl

/-- A script joined to one that parses is parsed behind it. -/
theorem parse_append {a : Bytes} {p : Program} (hp : parse a = .ok p) (b : Bytes) :
    parse (a ++ b) =
      match parse b with
      | .ok q => .ok ⟨p.chunks ++ q.chunks.map (Chunk.behind a.length), a ++ b⟩
      | .error e => .error (e.behind a.length) := by
  obtain ⟨hwf, hplaced, hjoin⟩ := chunksFrom_eq_ok_iff.mp (parse_eq_ok_iff.mp hp).2
  have happend := chunksFrom_append hwf hplaced b
  have hbehind := chunksFrom_behind a.length 0 b
  rw [hjoin, Nat.zero_add] at happend
  rw [Nat.add_zero] at hbehind
  rw [hbehind] at happend
  unfold parse
  rw [happend]
  cases chunksFrom 0 b <;> rfl

/-- Where a script cannot be read on, it is made of complete chunks and a rest that breaks off. -/
theorem exists_of_chunksFrom_error {offset : Nat} {b : Bytes} {e : ParseError}
    (h : chunksFrom offset b = .error e) :
    ∃ cs rest, (∀ c ∈ cs, c.WellFormed) ∧ Placed offset cs ∧ cs.flatMap encode ++ rest = b ∧
      e.Describes rest ∧ e.offset = offset + (cs.flatMap encode).length := by
  fun_induction chunksFrom offset b with
  | case1 offset => cases h
  | case2 offset x rest e' hread =>
      cases h
      obtain ⟨hdescribes, hoffset⟩ := describes_of_read_error hread
      exact ⟨[], x :: rest, List.forall_mem_nil _, trivial, rfl, hdescribes, hoffset⟩
  | case3 offset x rest c tail hread e' he' ih =>
      cases h
      obtain ⟨cs, left, hwf, hplaced, hjoin, hdescribes, hoffset⟩ := ih he'
      obtain ⟨hc, -, hplace⟩ := wellFormed_of_read hread
      refine ⟨c :: cs, left, List.forall_mem_cons.mpr ⟨hc, hwf⟩, ⟨hplace, hplaced⟩, ?_,
        hdescribes, ?_⟩
      · rw [List.flatMap_cons, List.append_assoc, hjoin, encode_append_of_read hread]
      · rw [hoffset, List.flatMap_cons, List.length_append, length_encode, Nat.add_assoc]
  | case4 offset x rest c tail hread cs hcs ih => cases h

/-- The error of a script describes what follows its complete chunks. -/
theorem parse_eq_error_iff {b : Bytes} {e : ParseError} :
    parse b = .error e ↔
      (∃ p, parse (b.take e.offset) = .ok p) ∧ e.Describes (b.drop e.offset) := by
  constructor
  · intro h
    have hchunks : chunksFrom 0 b = .error e := by
      unfold parse at h
      split at h
      · rename_i e' he'
        cases h
        exact he'
      · cases h
    obtain ⟨cs, rest, hwf, hplaced, rfl, hdescribes, hoffset⟩ := exists_of_chunksFrom_error hchunks
    rw [Nat.zero_add] at hoffset
    rw [hoffset, List.take_left, List.drop_left]
    refine ⟨⟨⟨cs, cs.flatMap encode⟩, ?_⟩, hdescribes⟩
    exact parse_eq_ok_iff.mpr ⟨rfl, chunksFrom_eq_ok_iff.mpr ⟨hwf, hplaced, rfl⟩⟩
  · rintro ⟨⟨p, hp⟩, hdescribes⟩
    obtain ⟨tail, htail, -⟩ := hdescribes.exists_cons
    have hlength : (b.take e.offset).length = e.offset := by
      have hrest := congrArg List.length htail
      rw [List.length_drop, List.length_cons] at hrest
      rw [List.length_take]
      omega
    obtain ⟨hwf, hplaced, hjoin⟩ := chunksFrom_eq_ok_iff.mp (parse_eq_ok_iff.mp hp).2
    have happend := chunksFrom_append hwf hplaced (b.drop e.offset)
    rw [hjoin, hlength, Nat.zero_add, List.take_append_drop, htail] at happend
    rw [htail] at hdescribes
    -- the rest breaks off at once, behind the chunks in front
    have hrest : chunksFrom e.offset (e.opcode.byte :: tail) = .error e :=
      chunksFrom_of_read_error (read_of_describes hdescribes)
    rw [hrest] at happend
    unfold parse
    rw [happend]
    rfl

/-- **Parse errors are exact, and parsing goes piece by piece.** A script fails to parse with an
error if and only if what stands in front of the opcode at fault parses and the error describes what
stands from there on; the length bytes are at fault if there are too few of them, and the data
otherwise. A script joined to one that parses has the chunks of both, or the error of the second,
and what comes from the second script is behind the first one. -/
theorem parse_errors_compose :
    (∀ (b : Bytes) (e : ParseError),
      (parse b = .error e ↔
        (∃ p, parse (b.take e.offset) = .ok p) ∧ e.Describes (b.drop e.offset)) ∧
      (parse b = .error e → ∃ rest, b.drop e.offset = e.opcode.byte :: rest ∧
        e.opcode.byte ≤ 0x4e ∧
        (e = .truncatedLength e.opcode e.offset ↔
          ∃ width, (e.opcode.byte, width) ∈ [((0x4c : UInt8), 1), (0x4d, 2), (0x4e, 4)] ∧
            rest.length < width))) ∧
    ∀ (a b : Bytes) (p : Program), parse a = .ok p →
      parse (a ++ b) =
        match parse b with
        | .ok q => .ok ⟨p.chunks ++ q.chunks.map (Chunk.behind a.length), a ++ b⟩
        | .error e => .error (e.behind a.length) := by
  refine ⟨fun b e => ⟨parse_eq_error_iff, ?_⟩, fun a b p hp => parse_append hp b⟩
  intro h
  obtain ⟨-, hdescribes⟩ := parse_eq_error_iff.mp h
  obtain ⟨rest, hrest, hle⟩ := hdescribes.exists_cons
  rw [hrest] at hdescribes
  exact ⟨rest, hrest, hle, hdescribes.truncatedLength_iff⟩

/-- Behind a push of one byte, a push whose length bytes are cut, and one with too little data. -/
theorem parse_errors_behind_push :
    parse [0x01, 0x05] = .ok ⟨[⟨⟨0x01⟩, some [0x05], 0⟩], [0x01, 0x05]⟩ ∧
      parse [0x01, 0x05, 0x4d, 0x02] = .error (.truncatedLength .pushData2 2) ∧
      parse [0x01, 0x05, 0x4d, 0x02, 0x00, 0xaa] = .error (.truncatedData .pushData2 2 2 1) := by
  have hp : parse [0x01, 0x05] = .ok ⟨[⟨⟨0x01⟩, some [0x05], 0⟩], [0x01, 0x05]⟩ := by cbv
  have hlength : parse [0x4d, 0x02] = .error (.truncatedLength .pushData2 0) :=
    (parse_errors_compose.1 _ _).1.mpr
      ⟨⟨⟨[], []⟩, by cbv⟩, .length .pushData2 2 [0x02] 0 (by decide) (by decide)⟩
  have hdata : parse [0x4d, 0x02, 0x00, 0xaa] = .error (.truncatedData .pushData2 0 2 1) :=
    (parse_errors_compose.1 _ _).1.mpr
      ⟨⟨⟨[], []⟩, by cbv⟩, .sized .pushData2 2 [0x02, 0x00] [0xaa] 0 (by decide) rfl (by decide)⟩
  refine ⟨hp, ?_, ?_⟩
  · have happend := parse_errors_compose.2 _ [0x4d, 0x02] _ hp
    rw [hlength] at happend
    exact happend
  · have happend := parse_errors_compose.2 _ [0x4d, 0x02, 0x00, 0xaa] _ hp
    rw [hdata] at happend
    exact happend

end Program

end BitcoinScript
