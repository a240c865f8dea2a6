import BitcoinScript.Program.Edit
import BitcoinScript.Proofs.Guarded.Word

/-!
# Guarded scripts

A script is read with a position that moves from chunk to chunk. What is deleted from it is found
and left out by two positions: everything between them is copied, and the second one then jumps over
the copies of the pattern. The length of a chunk comes from bytes of the script itself, so it is
compared with what is left before the data is cut out.

`readChunk_eq` and `findAndDelete_eq` say that the positions always stand where the script without
its read part begins.
-/

namespace BitcoinScript

namespace Guarded

open Checked

/-! ## Reading chunks -/

/-- The length that some bytes stand for, the last one read first. -/
def readLength (b : Bytes) : Option Nat :=
  b.reverse.foldlM (fun acc x => do add (← mul acc 256) x.toNat) 0

/-- Cuts out the data of a push, once its length is known. -/
def readData (bytes : Bytes) (offset : Nat) (opcode : Opcode) (pc declared : Nat) :
    Checked ParseError (Chunk × Nat) := do
  let available ← sub bytes.length pc
  if declared > available then
    .failed (.truncatedData opcode offset declared available)
  else
    let stop ← add pc declared
    let data ← slice bytes pc stop
    return (⟨opcode, some data, offset⟩, stop)

/-- Reads the chunk at a position, and returns it with the position after it. -/
def readChunk (bytes : Bytes) (offset : Nat) : Checked ParseError (Chunk × Nat) := do
  let opcode : Opcode := ⟨← index bytes offset⟩
  let pc ← add offset 1
  if opcode.isPush then
    if opcode.lengthWidth = 0 then readData bytes offset opcode pc opcode.byte.toNat
    else
      let stop ← add pc opcode.lengthWidth
      if stop ≤ bytes.length then
        let declared ← readLength (← slice bytes pc stop)
        readData bytes offset opcode stop declared
      else .failed (.truncatedLength opcode offset)
  else return (⟨opcode, none, offset⟩, pc)

/-- The position after the chunk at a position, unless the script ends or breaks off there. -/
def nextEnd (bytes : Bytes) (pc : Nat) : Option (Option Nat) :=
  if pc ≥ bytes.length then some none
  else
    match readChunk bytes pc with
    | .stopped => none
    | .failed _ => some none
    | .done (_, next) => some (some next)

theorem readLength_eq {b : Bytes} (hb : b.length ≤ 4) : readLength b = some (Bytes.leValue b) := by
  unfold readLength
  induction b with
  | nil => rfl
  | cons x rest ih =>
      rw [List.length_cons] at hb
      have hsmall : ∀ k : Fin 4, Bytes.span k ≤ 0x1000000 := by decide
      have hspan := hsmall ⟨rest.length, by omega⟩
      have hlt := Nat.lt_of_lt_of_le (Bytes.leValue_lt rest) hspan
      have hx := x.toNat_lt
      rw [List.reverse_cons, List.foldlM_append, bind_of_some (ih (by omega))]
      simp only [List.foldlM_cons, List.foldlM_nil, Bytes.leValue_cons]
      rw [bind_of_some (mul_eq (by unfold wordSpan; omega)),
        add_eq (by unfold wordSpan; omega), Nat.add_comm, Nat.mul_comm]
      rfl

/-- A chunk and what is left, as a chunk and the position where that begins. -/
def positioned (length : Nat) (found : Except ParseError (Chunk × Bytes)) :
    Checked ParseError (Chunk × Nat) :=
  .answer (found.map fun r => (r.1, length - r.2.length))

/-- The data cut out at a position is what the rest of the script starts with. -/
theorem readData_eq (front rest : Bytes) (hlength : (front ++ rest).length < wordSpan)
    (offset : Nat) (opcode : Opcode) (declared : Nat) :
    readData (front ++ rest) offset opcode front.length declared =
      positioned (front ++ rest).length
        (if (rest.take declared).length < declared then
          .error (.truncatedData opcode offset declared rest.length)
        else .ok (⟨opcode, some (rest.take declared), offset⟩, rest.drop declared)) := by
  have havailable : sub (front ++ rest).length front.length = some rest.length := by
    rw [sub_eq (by simp), List.length_append, Nat.add_sub_cancel_left]
  rw [List.length_append] at hlength
  unfold readData
  rw [lift_bind havailable]
  by_cases hshort : declared > rest.length
  · rw [if_pos hshort, if_pos (by rw [List.length_take]; omega)]
    rfl
  · have hstop : (front ++ rest).length - (rest.drop declared).length = front.length + declared := by
      rw [List.length_append, List.length_drop]
      omega
    rw [if_neg hshort, if_neg (by rw [List.length_take]; omega), lift_bind (add_eq (by omega)),
      lift_bind (slice_eq (by omega) (by rw [List.length_append]; omega)), List.drop_left,
      Nat.add_sub_cancel_left, positioned, Except.map, hstop]
    rfl

/-- The chunk read at a position is the one with which the rest of the script starts, and the
position after it leaves what it leaves. -/
theorem readChunk_eq (front : Bytes) (b : UInt8) (rest : Bytes)
    (hlength : (front ++ b :: rest).length + 4 < wordSpan) :
    readChunk (front ++ b :: rest) front.length =
      positioned (front ++ b :: rest).length (Chunk.read front.length ⟨b⟩ rest) := by
  have hwidth := Opcode.lengthWidth_le ⟨b⟩
  have htotal : (front ++ b :: rest).length = front.length + 1 + rest.length := by
    simp
    omega
  unfold readChunk Chunk.read
  rw [lift_bind (index_append_cons _ _ _), lift_bind (add_eq (by omega))]
  dsimp only
  split
  · rename_i hpush
    generalize hw : (Opcode.mk b).lengthWidth = width at hwidth ⊢
    by_cases hnone : rest.length < width
    · rw [if_neg (by omega), lift_bind (add_eq (by omega)), if_neg (by omega),
        if_pos (by rw [List.length_take]; omega)]
      rfl
    · -- the length bytes belong to what has been read
      have hcut : front ++ b :: rest = (front ++ b :: rest.take width) ++ rest.drop width := by simp
      have hstop : front.length + 1 + width = (front ++ b :: rest.take width).length := by
        simp
        omega
      have hdata := readData_eq (front ++ b :: rest.take width) (rest.drop width)
        (by rw [← hcut]; omega) front.length ⟨b⟩
      rw [← hcut, ← hstop] at hdata
      have henough : ¬ (rest.take width).length < width := by
        rw [List.length_take]
        omega
      rw [if_neg henough]
      by_cases hzero : width = 0
      · rw [if_pos hzero, Chunk.declaredLength, hw, if_pos hzero, ← hdata, hzero]
      · have hprefix : slice (front ++ b :: rest) (front.length + 1) (front.length + 1 + width) =
            some (rest.take width) := by
          have hpart := slice_append (front ++ [b]) (rest.take width) (rest.drop width)
          rw [List.length_append, List.length_singleton, List.length_take,
            Nat.min_eq_left (by omega)] at hpart
          rw [← hpart]
          simp
        rw [if_neg hzero, lift_bind (add_eq (by omega)), if_pos (by omega), lift_bind hprefix,
          lift_bind (readLength_eq (by rw [List.length_take]; omega)), Chunk.declaredLength, hw,
          if_neg hzero, ← hdata]
  · rw [htotal]
    simp [positioned, Except.map]

/-- Where a chunk stands makes no difference for what it leaves. -/
theorem map_snd_read (offset : Nat) (opcode : Opcode) (rest : Bytes) :
    (Chunk.read offset opcode rest).toOption.map Prod.snd =
      (Chunk.read 0 opcode rest).toOption.map Prod.snd := by
  unfold Chunk.read
  split
  · dsimp only
    split
    · rfl
    · split <;> rfl
  · rfl

theorem nextEnd_eq {script : Bytes} {pc : Nat} (hlength : script.length + 4 < wordSpan) :
    nextEnd script pc =
      some ((Chunk.next? (script.drop pc)).map fun found => script.length - found.2.length) := by
  unfold nextEnd
  by_cases hpc : pc ≥ script.length
  · rw [if_pos hpc, List.drop_eq_nil_of_le hpc]
    rfl
  · rw [if_neg hpc]
    cases hdrop : script.drop pc with
    | nil =>
        rw [List.drop_eq_nil_iff] at hdrop
        exact absurd hdrop hpc
    | cons b rest =>
        have hscript : script = script.take pc ++ b :: rest := by
          rw [← hdrop, List.take_append_drop]
        have hfront : (script.take pc).length = pc := by
          rw [List.length_take]
          omega
        have hread := readChunk_eq (script.take pc) b rest
          (by rw [← hscript]; exact hlength)
        rw [← hscript, hfront] at hread
        have htail := map_snd_read pc ⟨b⟩ rest
        rw [hread, Chunk.next?]
        cases hat : Chunk.read pc ⟨b⟩ rest with
        | error e =>
            cases hzero : Chunk.read 0 ⟨b⟩ rest with
            | error e' => rfl
            | ok found => rw [hat, hzero] at htail; cases htail
        | ok found =>
            cases hzero : Chunk.read 0 ⟨b⟩ rest with
            | error e' => rw [hat, hzero] at htail; cases htail
            | ok found' =>
                rw [hat, hzero] at htail
                have hsame : found.2 = found'.2 := Option.some.inj htail
                show some (some (script.length - found.2.length)) = _
                rw [hsame]
                rfl

theorem le_of_readData {bytes : Bytes} {offset pc declared next : Nat} {opcode : Opcode} {c : Chunk}
    (h : readData bytes offset opcode pc declared = .done (c, next)) : pc ≤ next := by
  simp only [readData, bind_eq_done_iff, lift_eq_done_iff] at h
  obtain ⟨available, -, h⟩ := h
  split at h
  · cases h
  · simp only [bind_eq_done_iff, lift_eq_done_iff] at h
    obtain ⟨stop, hstop, data, -, h⟩ := h
    cases h
    have hsum := eq_of_add hstop
    omega

/-- Every chunk takes the position on. -/
theorem lt_of_readChunk {bytes : Bytes} {offset next : Nat} {c : Chunk}
    (h : readChunk bytes offset = .done (c, next)) : offset < next := by
  simp only [readChunk, bind_eq_done_iff, lift_eq_done_iff] at h
  obtain ⟨b, -, pc, hpc, h⟩ := h
  have hsum := eq_of_add hpc
  split at h
  · split at h
    · have hle := le_of_readData h
      omega
    · simp only [bind_eq_done_iff, lift_eq_done_iff] at h
      obtain ⟨stop, hstop, h⟩ := h
      have hsum' := eq_of_add hstop
      split at h
      · simp only [bind_eq_done_iff, lift_eq_done_iff] at h
        obtain ⟨prefixBytes, -, declared, -, h⟩ := h
        have hle := le_of_readData h
        omega
      · cases h
  · cases h
    omega

theorem lt_of_nextEnd {bytes : Bytes} {pc next : Nat} (h : nextEnd bytes pc = some (some next)) :
    pc < bytes.length ∧ pc < next := by
  unfold nextEnd at h
  split at h
  · cases h
  · rename_i hpc
    refine ⟨by omega, ?_⟩
    split at h
    · cases h
    · cases h
    · rename_i hread
      cases h
      exact lt_of_readChunk hread

/-! ## Deleting a pattern -/

/-- The position after all copies of a pattern that stand at a position. -/
def stripFrom (script pattern : Bytes) (pc : Nat) : Option Nat :=
  if _hpc : pc ≤ script.length then
    if _h : pattern ≠ [] ∧ pattern.isPrefixOf (script.drop pc) then
      match _hnext : add pc pattern.length with
      | none => none
      | some next => stripFrom script pattern next
    else some pc
  else none
termination_by script.length - pc
decreasing_by
  have hpos := List.length_pos_iff.mpr _h.1
  have hle := (List.isPrefixOf_iff_prefix.mp _h.2).length_le
  rw [List.length_drop] at hle
  have hnext := eq_of_add _hnext
  omega

theorem le_of_stripFrom {script pattern : Bytes} {pc kept : Nat}
    (h : stripFrom script pattern pc = some kept) : pc ≤ kept := by
  fun_induction stripFrom script pattern pc with
  | case1 => cases h
  | case2 pc hpc hmatch next hnext ih =>
      have hsum := eq_of_add hnext
      have hle := ih h
      omega
  | case3 =>
      cases h
      exact Nat.le_refl _
  | case4 => cases h

/-- What is left from a position on, with what lies before it back to another position, once all
copies of a pattern are left out at the ends of chunks. -/
def deleteFrom (script pattern : Bytes) (copied pc : Nat) : Option Bytes :=
  match slice script copied pc with
  | none => none
  | some front =>
      match _hkept : stripFrom script pattern pc with
      | none => none
      | some kept =>
          match _hnext : nextEnd script kept with
          | none => none
          | some none => (sliceFrom script kept).map (front ++ ·)
          | some (some next) => (deleteFrom script pattern kept next).map (front ++ ·)
termination_by script.length - pc
decreasing_by
  have hle := le_of_stripFrom _hkept
  have hlt := lt_of_nextEnd _hnext
  omega

/-- Deletes every copy of a pattern found at the end of a chunk. -/
def findAndDelete (script pattern : Bytes) : Option Bytes :=
  if pattern = [] then some script else deleteFrom script pattern 0 0

theorem stripFrom_eq {script : Bytes} (pattern : Bytes) {pc : Nat} (hpc : pc ≤ script.length)
    (hlength : script.length < wordSpan) :
    ∃ kept, stripFrom script pattern pc = some kept ∧ kept ≤ script.length ∧
      script.drop kept = Edit.stripFront pattern (script.drop pc) := by
  fun_induction stripFrom script pattern pc with
  | case1 pc _ hmatch hnext =>
      have hle := (List.isPrefixOf_iff_prefix.mp hmatch.2).length_le
      rw [List.length_drop] at hle
      rw [add_eq (by omega)] at hnext
      cases hnext
  | case2 pc _ hmatch next hnext ih =>
      have hle := (List.isPrefixOf_iff_prefix.mp hmatch.2).length_le
      rw [List.length_drop] at hle
      have hsum := eq_of_add hnext
      obtain ⟨kept, hkept, hend, hdrop⟩ := ih (by omega)
      refine ⟨kept, hkept, hend, ?_⟩
      rw [hdrop]
      conv => rhs; rw [Edit.stripFront, dif_pos hmatch, List.drop_drop, ← hsum]
  | case3 pc _ hmatch =>
      refine ⟨pc, rfl, hpc, ?_⟩
      rw [Edit.stripFront, dif_neg hmatch]
  | case4 pc hnot => exact absurd hpc hnot

/-- One stop of the walk over the chunks, if what is left there is known. -/
theorem deletePattern_eq {pattern script kept : Bytes} (h : kept = Edit.stripFront pattern script) :
    Edit.deletePattern pattern script =
      match Chunk.next? kept with
      | none => kept
      | some (c, rest) => c.encode ++ Edit.deletePattern pattern rest := by
  rw [Edit.deletePattern, ← h]
  split
  · rename_i hnone
    rw [hnone]
  · rename_i c rest hsome
    rw [hsome]

theorem deleteFrom_eq {script pattern : Bytes} {copied pc : Nat} (hcopied : copied ≤ pc)
    (hpc : pc ≤ script.length) (hlength : script.length + 4 < wordSpan) :
    deleteFrom script pattern copied pc =
      some ((script.drop copied).take (pc - copied) ++
        Edit.deletePattern pattern (script.drop pc)) := by
  fun_induction deleteFrom script pattern copied pc with
  | case1 copied pc hslice =>
      rw [slice_eq hcopied hpc] at hslice
      cases hslice
  | case2 copied pc front hslice hkept =>
      obtain ⟨kept, hsome, -, -⟩ := stripFrom_eq pattern hpc (by omega)
      rw [hkept] at hsome
      cases hsome
  | case3 copied pc front hslice kept hkept hnext =>
      rw [nextEnd_eq hlength] at hnext
      cases hnext
  | case4 copied pc front hslice kept hkept hnext =>
      obtain ⟨kept', hsome, hend, hdrop⟩ := stripFrom_eq pattern hpc (by omega)
      rw [hkept] at hsome
      cases hsome
      rw [nextEnd_eq hlength, Option.some.injEq, Option.map_eq_none_iff] at hnext
      rw [sliceFrom_eq hend, deletePattern_eq hdrop, hnext, eq_of_slice hslice]
      rfl
  | case5 copied pc front hslice kept hkept next hnext ih =>
      obtain ⟨kept', hsome, hend, hdrop⟩ := stripFrom_eq pattern hpc (by omega)
      rw [hkept] at hsome
      cases hsome
      have hlt := lt_of_nextEnd hnext
      rw [nextEnd_eq hlength, Option.some.injEq, Option.map_eq_some_iff] at hnext
      obtain ⟨⟨c, tail⟩, hread, htail⟩ := hnext
      -- the chunk fills the script from `kept` to `next`
      have hchunk : c.encode ++ tail = script.drop kept := Chunk.encode_append_of_next? hread
      have hsize := congrArg List.length hchunk
      rw [List.length_append, List.length_drop] at hsize
      dsimp only at htail
      have hwidth : next - kept = c.encode.length := by omega
      have hrest : script.drop next = tail := by
        rw [show next = kept + c.encode.length by omega, ← List.drop_drop, ← hchunk, List.drop_left]
      rw [ih (by omega) (by omega), deletePattern_eq hdrop, hread, eq_of_slice hslice, hwidth, hrest,
        ← hchunk, List.take_left]
      rfl

theorem findAndDelete_eq {script : Bytes} (hlength : script.length + 4 < wordSpan)
    (pattern : Bytes) : findAndDelete script pattern = some (Edit.findAndDelete script pattern) := by
  unfold findAndDelete Edit.findAndDelete
  split
  · rfl
  · rw [deleteFrom_eq (Nat.le_refl _) (Nat.zero_le _) hlength]
    simp

theorem length_deletePattern_le (pattern script : Bytes) :
    (Edit.deletePattern pattern script).length ≤ script.length := by
  fun_induction Edit.deletePattern pattern script with
  | case1 script kept hnext => exact Edit.length_stripFront_le pattern script
  | case2 script kept c rest hnext ih =>
      have hkept : kept.length ≤ script.length := Edit.length_stripFront_le pattern script
      have hchunk := congrArg List.length (Chunk.encode_append_of_next? hnext)
      rw [List.length_append] at hchunk ⊢
      omega

/-- A script without a pattern is no longer than the script. -/
theorem length_findAndDelete_le (script pattern : Bytes) :
    (Edit.findAndDelete script pattern).length ≤ script.length := by
  unfold Edit.findAndDelete
  split
  · exact Nat.le_refl _
  · exact length_deletePattern_le pattern script

/-! ## Writing pushes -/

/-- The shortest push of some data, written to a vector with room for five bytes more. -/
def pushEncoding (data : Bytes) : Option Bytes := do
  let _ ← add data.length 5
  return BitcoinScript.pushEncoding data

theorem pushEncoding_eq {data : Bytes} (h : data.length + 5 < wordSpan) :
    pushEncoding data = some (BitcoinScript.pushEncoding data) := by
  rw [pushEncoding, add_eq h]
  rfl

/-- Whether a push is the shortest one for its data. The opcode of a small number is computed in a
byte. -/
def isMinimalPush (c : Chunk) : Option Bool :=
  match c.payload with
  | some [b] =>
      if 1 ≤ b ∧ b ≤ 16 then do
        let sum := Opcode.one.byte.toNat + b.toNat
        let code ← if sum < 256 then sub sum 1 else none
        return c.opcode.byte.toNat == code
      else some c.isMinimalPush
  | _ => some c.isMinimalPush

theorem isMinimalPush_eq (c : Chunk) : isMinimalPush c = some c.isMinimalPush := by
  unfold isMinimalPush
  split
  · rename_i b hpayload
    split
    · rename_i hrange
      have hle : b.toNat ≤ 16 := UInt8.le_iff_toNat_le.mp hrange.2
      have hone : Opcode.one.byte.toNat = 0x51 := rfl
      have hcode : (0x50 + b).toNat = 0x50 + b.toNat := by
        rw [UInt8.toNat_add]
        exact Nat.mod_eq_of_lt (by show 80 + b.toNat < 256; omega)
      dsimp only
      rw [hone, if_pos (by omega), sub_eq (by omega)]
      simp only [Chunk.isMinimalPush, hpayload, hrange, and_self, if_true, Option.bind_eq_bind,
        Option.bind_some, Option.pure_def]
      rw [Option.some.injEq, Bool.eq_iff_iff, beq_iff_eq, beq_iff_eq, ← UInt8.toNat_inj, hcode]
      omega
    · rfl
  · rfl

end Guarded

end BitcoinScript
