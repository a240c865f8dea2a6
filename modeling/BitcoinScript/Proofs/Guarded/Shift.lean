import BitcoinScript.Proofs.Guarded.Word
import BitcoinScript.Proofs.Machine.ItemSize

/-!
# Guarded shifts

A vector of bytes is shifted by going through its bytes, and writing each of them in two parts to a
new vector: one to the place to which the whole bytes are moved, and what goes beyond that byte to
its neighbour. Both places are computed from the count of the shift, which can be larger than the
vector is long.

The vector that is being written is described by a function from places to bytes (`table`). What is
written to a place does not depend on the order: each of its two parts is there once the byte it
comes from has been gone through (`leftWritten`, `rightWritten`).
-/

namespace BitcoinScript

namespace Guarded

/-! ## Vectors as functions -/

/-- The vector of the values of a function. -/
def table (n : Nat) (f : Nat → UInt8) : Bytes := (List.range n).map f

section Table

variable {n k : Nat} {f g : Nat → UInt8}

theorem length_table : (table n f).length = n := by simp [table]

theorem getElem?_table (h : k < n) : (table n f)[k]? = some (f k) := by
  simp [table, h]

theorem table_congr (h : ∀ k, k < n → f k = g k) : table n f = table n g := by
  apply List.map_congr_left
  intro k hk
  exact h k (List.mem_range.mp hk)

theorem eq_table {v : Bytes} (hlength : v.length = n) (h : ∀ k, k < n → v[k]? = some (f k)) :
    v = table n f := by
  apply List.ext_getElem?
  intro k
  by_cases hk : k < n
  · rw [h k hk, getElem?_table hk]
  · rw [List.getElem?_eq_none (by omega), List.getElem?_eq_none (by rw [length_table]; omega)]

theorem update_table (h : k < n) (g : UInt8 → UInt8) :
    update (table n f) k g = some (table n fun j => if j = k then g (f j) else f j) := by
  rw [update_eq (by rw [length_table]; exact h)]
  congr 1
  apply eq_table
  · rw [List.length_modify, length_table]
  · intro j hj
    rw [List.getElem?_modify, getElem?_table hj]
    by_cases hjk : j = k
    · simp [hjk]
    · have hkj : ¬ k = j := fun h => hjk h.symm
      simp [hjk, hkj]

end Table

/-! ## To the left -/

/-- For every count of bits, the bits of a byte that stay in one byte when shifted to the left. -/
def leftMasks : Bytes := [0xff, 0x7f, 0x3f, 0x1f, 0x0f, 0x07, 0x03, 0x01]

/-- Writes the two parts of the byte at an index. -/
def leftStep (data : Bytes) (bytes bits : Nat) (mask : UInt8) (i : Nat) (result : Bytes) :
    Option Bytes :=
  if bytes > i then some result
  else do
    let k ← sub i bytes
    let value ← index data i
    let result ← update result k (· ||| (value &&& mask) <<< UInt8.ofNat bits)
    if k ≥ 1 ∧ bits > 0 then
      let rest ← sub 8 bits
      update result (← sub k 1) (· ||| (value &&& ~~~mask) >>> UInt8.ofNat rest)
    else return result

/-- Goes through the bytes before an index, the last one first. -/
def leftLoop (data : Bytes) (bytes bits : Nat) (mask : UInt8) : Nat → Bytes → Option Bytes
  | 0, result => some result
  | i + 1, result => do
      let result ← leftStep data bytes bits mask i result
      leftLoop data bytes bits mask i result

/-- Shifts a string of bits to the left. -/
def shiftLeft (n : Nat) (data : Bytes) : Option Bytes := do
  let mask ← index leftMasks (n % 8)
  leftLoop data (n / 8) (n % 8) mask data.length (List.replicate data.length 0)

/-- The byte at a place once all bytes from an index on have been gone through. -/
def leftWritten (data : Bytes) (bytes bits : Nat) (mask : UInt8) (i k : Nat) : UInt8 :=
  (if i ≤ k + bytes then (data.getD (k + bytes) 0 &&& mask) <<< UInt8.ofNat bits else 0) |||
    (if i ≤ k + bytes + 1 ∧ bits > 0 then
      (data.getD (k + bytes + 1) 0 &&& ~~~mask) >>> UInt8.ofNat (8 - bits)
    else 0)

section Left

variable {data : Bytes} {bytes bits : Nat} {mask : UInt8} {i k : Nat}

/-- Going through a byte adds nothing at places that no part of it goes to. -/
theorem leftWritten_of_ne (hmain : k + bytes ≠ i) (hcarry : ¬ (k + bytes + 1 = i ∧ bits > 0)) :
    leftWritten data bytes bits mask (i + 1) k = leftWritten data bytes bits mask i k := by
  have hfirst : i + 1 ≤ k + bytes ↔ i ≤ k + bytes := by omega
  have hsecond : i + 1 ≤ k + bytes + 1 ∧ bits > 0 ↔ i ≤ k + bytes + 1 ∧ bits > 0 := by omega
  unfold leftWritten
  simp only [hfirst, hsecond]

theorem leftWritten_main (h : k + bytes = i) :
    leftWritten data bytes bits mask (i + 1) k ||| (data.getD i 0 &&& mask) <<< UInt8.ofNat bits =
      leftWritten data bytes bits mask i k := by
  subst h
  have hnot : ¬ k + bytes + 1 ≤ k + bytes := by omega
  have hle : k + bytes ≤ k + bytes + 1 := by omega
  simp only [leftWritten, hnot, if_false, Nat.le_refl, if_true, hle, true_and, UInt8.zero_or]
  rw [UInt8.or_comm]

theorem leftWritten_carry (h : k + bytes + 1 = i) (hbits : bits > 0) :
    leftWritten data bytes bits mask (i + 1) k |||
        (data.getD i 0 &&& ~~~mask) >>> UInt8.ofNat (8 - bits) =
      leftWritten data bytes bits mask i k := by
  subst h
  have hfirst : ¬ k + bytes + 1 + 1 ≤ k + bytes := by omega
  have hsecond : ¬ k + bytes + 1 + 1 ≤ k + bytes + 1 := by omega
  have hthird : ¬ k + bytes + 1 ≤ k + bytes := by omega
  simp only [leftWritten, hfirst, hsecond, hthird, hbits, if_false, false_and, Nat.le_refl, true_and,
    if_true, UInt8.zero_or]

theorem leftStep_eq (hi : i < data.length) (hbits : bits < 8) :
    leftStep data bytes bits mask i
        (table data.length (leftWritten data bytes bits mask (i + 1))) =
      some (table data.length (leftWritten data bytes bits mask i)) := by
  unfold leftStep
  by_cases hfar : bytes > i
  · rw [if_pos hfar]
    congr 1
    apply table_congr
    intro k _
    exact leftWritten_of_ne (by omega) (by omega)
  rw [if_neg hfar, bind_of_some (sub_eq (by omega)), bind_of_some (index_eq_getD hi 0),
    bind_of_some (update_table (by omega) _)]
  by_cases hcarry : i - bytes ≥ 1 ∧ bits > 0
  · rw [if_pos hcarry, bind_of_some (sub_eq (by omega)), bind_of_some (sub_eq (by omega)),
      update_table (by omega)]
    congr 1
    apply table_congr
    intro k _
    by_cases hbefore : k = i - bytes - 1
    · rw [if_pos hbefore, if_neg (by omega)]
      exact leftWritten_carry (by omega) hcarry.2
    · rw [if_neg hbefore]
      by_cases hplace : k = i - bytes
      · rw [if_pos hplace]
        exact leftWritten_main (by omega)
      · rw [if_neg hplace]
        exact leftWritten_of_ne (by omega) (by omega)
  · rw [if_neg hcarry, Option.pure_def]
    congr 1
    apply table_congr
    intro k _
    by_cases hplace : k = i - bytes
    · rw [if_pos hplace]
      exact leftWritten_main (by omega)
    · rw [if_neg hplace]
      exact leftWritten_of_ne (by omega) (by omega)

theorem leftLoop_eq (hi : i ≤ data.length) (hbits : bits < 8) :
    leftLoop data bytes bits mask i (table data.length (leftWritten data bytes bits mask i)) =
      some (table data.length (leftWritten data bytes bits mask 0)) := by
  induction i with
  | zero => rfl
  | succ i ih =>
      rw [leftLoop, bind_of_some (leftStep_eq (by omega) hbits)]
      exact ih (by omega)

/-- At the start nothing is written. -/
theorem leftWritten_length : leftWritten data bytes bits mask data.length k = 0 := by
  have hend : ∀ j, data.length ≤ j → data.getD j 0 = 0 := by
    intro j hj
    rw [List.getD_eq_getElem?_getD, List.getElem?_eq_none hj]
    rfl
  unfold leftWritten
  split
  · rename_i hmain
    rw [hend _ hmain]
    split
    · rename_i hcarry
      rw [hend _ hcarry.1]
      simp
    · simp
  · split
    · rename_i hcarry
      rw [hend _ hcarry.1]
      simp
    · simp

end Left

theorem ofNat_eq_zero_iff {bits : Nat} (h : bits < 8) : UInt8.ofNat bits = 0 ↔ bits = 0 := by
  rw [← UInt8.toNat_inj, UInt8.toNat_ofNat', Nat.mod_eq_of_lt (by omega)]
  rfl

/-- The bits that a mask takes away are those that a shift loses. -/
theorem leftMask_eq {bits : Nat} (h : bits < 8) (hpos : bits ≠ 0) (b : UInt8) :
    (b &&& leftMasks.getD bits 0) <<< UInt8.ofNat bits = b <<< UInt8.ofNat bits ∧
      (b &&& ~~~leftMasks.getD bits 0) >>> UInt8.ofNat (8 - bits) =
        b >>> (8 - UInt8.ofNat bits) := by
  have hall : ∀ bits : Fin 8, bits.val ≠ 0 → ∀ n : Fin 256,
      (UInt8.ofNat n &&& leftMasks.getD bits 0) <<< UInt8.ofNat bits =
          UInt8.ofNat n <<< UInt8.ofNat bits ∧
        (UInt8.ofNat n &&& ~~~leftMasks.getD bits 0) >>> UInt8.ofNat (8 - bits) =
          UInt8.ofNat n >>> (8 - UInt8.ofNat bits) := by
    decide +kernel
  have hb := hall ⟨bits, h⟩ hpos ⟨b.toNat, b.toNat_lt⟩
  simpa only [UInt8.ofNat_toNat] using hb

/-- The bytes that a shift by whole bytes to the left moves. -/
theorem getElem?_moved_left (bytes : Nat) (data : Bytes) {k : Nat} (hk : k < data.length) :
    (data.drop bytes ++ List.replicate (min bytes data.length) 0)[k]? =
      some (data.getD (k + bytes) 0) := by
  by_cases hinside : k + bytes < data.length
  · rw [List.getElem?_append_left (by rw [List.length_drop]; omega), List.getElem?_drop,
      List.getD_eq_getElem?_getD, Nat.add_comm, List.getElem?_eq_getElem hinside]
    rfl
  · rw [List.getElem?_append_right (by rw [List.length_drop]; omega), List.getD_eq_getElem?_getD,
      List.getElem?_eq_none (show data.length ≤ k + bytes by omega),
      List.getElem?_replicate_of_lt (by rw [List.length_drop]; omega)]
    rfl

theorem getElem?_shiftLeft (n : Nat) (data : Bytes) {k : Nat} (hk : k < data.length) :
    (Bytes.shiftLeft n data)[k]? =
      some (leftWritten data (n / 8) (n % 8) (leftMasks.getD (n % 8) 0) 0 k) := by
  have hbits : n % 8 < 8 := Nat.mod_lt n (by omega)
  have hmoved := getElem?_moved_left (n / 8) data hk
  have hlength : (data.drop (n / 8) ++ List.replicate (min (n / 8) data.length) 0).length =
      data.length := by
    rw [List.length_append, List.length_drop, List.length_replicate]
    omega
  have hnext : ((data.drop (n / 8) ++ List.replicate (min (n / 8) data.length) 0).drop 1 ++ [0])[k]?
      = some (data.getD (k + n / 8 + 1) 0) := by
    by_cases hlast : k + 1 < data.length
    · rw [List.getElem?_append_left (by rw [List.length_drop]; omega), List.getElem?_drop,
        Nat.add_comm 1 k, getElem?_moved_left _ _ hlast, Nat.add_right_comm]
    · rw [List.getElem?_append_right (by rw [List.length_drop]; omega), List.length_drop, hlength,
        show k - (data.length - 1) = 0 by omega, List.getD_eq_getElem?_getD,
        List.getElem?_eq_none (show data.length ≤ k + n / 8 + 1 by omega)]
      rfl
  unfold Bytes.shiftLeft leftWritten
  simp only [Nat.zero_le, if_true, true_and, ofNat_eq_zero_iff hbits]
  by_cases hzero : n % 8 = 0
  · rw [if_pos hzero, hmoved, hzero]
    exact congrArg some
      (forall_byte (P := fun b => b = (b &&& 0xff) <<< 0 ||| 0) (by decide +kernel) _)
  · rw [if_neg hzero, if_pos (Nat.pos_of_ne_zero hzero), (leftMask_eq hbits hzero _).1,
      (leftMask_eq hbits hzero _).2, List.getElem?_zipWith, hmoved, hnext]

theorem shiftLeft_eq (n : Nat) (data : Bytes) :
    shiftLeft n data = some (Bytes.shiftLeft n data) := by
  have hbits : n % 8 < 8 := Nat.mod_lt n (by omega)
  have hmask : index leftMasks (n % 8) = some (leftMasks.getD (n % 8) 0) := index_eq_getD hbits 0
  have hstart : List.replicate data.length 0 =
      table data.length
        (leftWritten data (n / 8) (n % 8) (leftMasks.getD (n % 8) 0) data.length) := by
    apply eq_table List.length_replicate
    intro k hk
    rw [leftWritten_length, List.getElem?_replicate_of_lt hk]
  rw [shiftLeft, bind_of_some hmask, hstart,
    leftLoop_eq (Nat.le_refl _) hbits]
  congr 1
  symm
  exact eq_table (Bytes.length_shiftLeft n data) fun k hk => getElem?_shiftLeft n data hk

/-! ## To the right -/

/-- For every count of bits, the bits of a byte that stay in one byte when shifted to the right. -/
def rightMasks : Bytes := [0xff, 0xfe, 0xfc, 0xf8, 0xf0, 0xe0, 0xc0, 0x80]

/-- Writes the two parts of a byte, the first of them at the place `k`. -/
def rightStep (length bits : Nat) (mask value : UInt8) (k : Nat) (result : Bytes) :
    Option Bytes := do
  let result ← update result k (· ||| (value &&& mask) >>> UInt8.ofNat bits)
  let next ← add k 1
  if next < length ∧ bits > 0 then
    let rest ← sub 8 bits
    update result next (· ||| (value &&& ~~~mask) <<< UInt8.ofNat rest)
  else return result

/-- Goes through the bytes from an index on, until one is moved past the end. -/
def rightLoop (length bytes bits : Nat) (mask : UInt8) : Nat → Bytes → Bytes → Option Bytes
  | _, [], result => some result
  | i, value :: rest, result =>
      match add i bytes with
      | none => some result
      | some k =>
          if k < length then do
            let result ← rightStep length bits mask value k result
            rightLoop length bytes bits mask (i + 1) rest result
          else some result

/-- Shifts a string of bits to the right. -/
def shiftRight (n : Nat) (data : Bytes) : Option Bytes := do
  let mask ← index rightMasks (n % 8)
  rightLoop data.length (n / 8) (n % 8) mask 0 data (List.replicate data.length 0)

/-- The byte at a place once all bytes before an index have been gone through. -/
def rightWritten (data : Bytes) (bytes bits : Nat) (mask : UInt8) (i k : Nat) : UInt8 :=
  (if bytes ≤ k ∧ k < i + bytes then (data.getD (k - bytes) 0 &&& mask) >>> UInt8.ofNat bits
    else 0) |||
    (if bytes + 1 ≤ k ∧ k < i + bytes + 1 ∧ bits > 0 then
      (data.getD (k - bytes - 1) 0 &&& ~~~mask) <<< UInt8.ofNat (8 - bits)
    else 0)

section Right

variable {data : Bytes} {bytes bits : Nat} {mask : UInt8} {i k : Nat}

theorem rightWritten_of_ne (hmain : k ≠ i + bytes) (hcarry : ¬ (k = i + bytes + 1 ∧ bits > 0)) :
    rightWritten data bytes bits mask i k = rightWritten data bytes bits mask (i + 1) k := by
  have hfirst : bytes ≤ k ∧ k < i + 1 + bytes ↔ bytes ≤ k ∧ k < i + bytes := by omega
  have hsecond : bytes + 1 ≤ k ∧ k < i + 1 + bytes + 1 ∧ bits > 0 ↔
      bytes + 1 ≤ k ∧ k < i + bytes + 1 ∧ bits > 0 := by omega
  unfold rightWritten
  simp only [hfirst, hsecond]

theorem rightWritten_main (h : k = i + bytes) :
    rightWritten data bytes bits mask i k ||| (data.getD i 0 &&& mask) >>> UInt8.ofNat bits =
      rightWritten data bytes bits mask (i + 1) k := by
  subst h
  have hnot : ¬ (bytes ≤ i + bytes ∧ i + bytes < i + bytes) := by omega
  have hmain : bytes ≤ i + bytes ∧ i + bytes < i + 1 + bytes := by omega
  have hcarry : bytes + 1 ≤ i + bytes ∧ i + bytes < i + 1 + bytes + 1 ∧ bits > 0 ↔
      bytes + 1 ≤ i + bytes ∧ i + bytes < i + bytes + 1 ∧ bits > 0 := by omega
  unfold rightWritten
  rw [if_neg hnot, if_pos hmain, Nat.add_sub_cancel, UInt8.zero_or, UInt8.or_comm]
  simp only [hcarry]

theorem rightWritten_carry (h : k = i + bytes + 1) (hbits : bits > 0) :
    rightWritten data bytes bits mask i k |||
        (data.getD i 0 &&& ~~~mask) <<< UInt8.ofNat (8 - bits) =
      rightWritten data bytes bits mask (i + 1) k := by
  subst h
  have hindex : i + bytes + 1 - bytes - 1 = i := by omega
  unfold rightWritten
  rw [if_neg (by omega), if_neg (by omega), if_neg (by omega), if_pos (by omega), hindex,
    UInt8.zero_or, UInt8.zero_or]

theorem rightStep_eq (hk : i + bytes < data.length) (hlength : data.length < wordSpan)
    (hbits : bits < 8) :
    rightStep data.length bits mask (data.getD i 0) (i + bytes)
        (table data.length (rightWritten data bytes bits mask i)) =
      some (table data.length (rightWritten data bytes bits mask (i + 1))) := by
  unfold rightStep
  rw [bind_of_some (update_table hk _), bind_of_some (add_eq (by omega))]
  by_cases hcarry : i + bytes + 1 < data.length ∧ bits > 0
  · rw [if_pos hcarry, bind_of_some (sub_eq (by omega)), update_table hcarry.1]
    congr 1
    apply table_congr
    intro k _
    by_cases hafter : k = i + bytes + 1
    · rw [if_pos hafter, if_neg (by omega)]
      exact rightWritten_carry hafter hcarry.2
    · rw [if_neg hafter]
      by_cases hplace : k = i + bytes
      · rw [if_pos hplace]
        exact rightWritten_main hplace
      · rw [if_neg hplace]
        exact rightWritten_of_ne hplace (by omega)
  · rw [if_neg hcarry, Option.pure_def]
    congr 1
    apply table_congr
    intro k hk
    by_cases hplace : k = i + bytes
    · rw [if_pos hplace]
      exact rightWritten_main hplace
    · rw [if_neg hplace]
      exact rightWritten_of_ne hplace (by omega)

/-- Once a byte is moved past the end, so are all that follow. -/
theorem rightWritten_of_past {j : Nat} (hpast : data.length ≤ i + bytes) (hij : i ≤ j)
    (hk : k < data.length) :
    rightWritten data bytes bits mask i k = rightWritten data bytes bits mask j k := by
  have hfirst : bytes ≤ k ∧ k < i + bytes ↔ bytes ≤ k ∧ k < j + bytes := by omega
  have hsecond : bytes + 1 ≤ k ∧ k < i + bytes + 1 ∧ bits > 0 ↔
      bytes + 1 ≤ k ∧ k < j + bytes + 1 ∧ bits > 0 := by omega
  unfold rightWritten
  simp only [hfirst, hsecond]

theorem rightLoop_eq (hlength : data.length < wordSpan) (hbits : bits < 8) {front rest : Bytes}
    (hdata : data = front ++ rest) :
    rightLoop data.length bytes bits mask front.length rest
        (table data.length (rightWritten data bytes bits mask front.length)) =
      some (table data.length (rightWritten data bytes bits mask data.length)) := by
  induction rest generalizing front with
  | nil =>
      rw [List.append_nil] at hdata
      rw [rightLoop, hdata]
  | cons value rest ih =>
      have hfront : front.length < data.length := by simp [hdata]
      have hvalue : data.getD front.length 0 = value := by simp [hdata]
      have hpast : data.length ≤ front.length + bytes →
          some (table data.length (rightWritten data bytes bits mask front.length)) =
            some (table data.length (rightWritten data bytes bits mask data.length)) := by
        intro hle
        congr 1
        exact table_congr fun k hk => rightWritten_of_past hle (by omega) hk
      rw [rightLoop]
      split
      · rename_i hsum
        apply hpast
        unfold add at hsum
        split at hsum
        · cases hsum
        · omega
      · rename_i place hsum
        cases eq_of_add hsum
        split
        · rename_i hinside
          rw [← hvalue, bind_of_some (rightStep_eq hinside hlength hbits)]
          have hnext : front.length + 1 = (front ++ [value]).length := by simp
          rw [hnext]
          exact ih (by simp [hdata])
        · rename_i houtside
          exact hpast (by omega)

theorem rightWritten_zero : rightWritten data bytes bits mask 0 k = 0 := by
  unfold rightWritten
  rw [if_neg (by omega), if_neg (by omega)]
  rfl

end Right

/-- The bits that a mask takes away are those that a shift loses. -/
theorem rightMask_eq {bits : Nat} (h : bits < 8) (hpos : bits ≠ 0) (b : UInt8) :
    (b &&& rightMasks.getD bits 0) >>> UInt8.ofNat bits = b >>> UInt8.ofNat bits ∧
      (b &&& ~~~rightMasks.getD bits 0) <<< UInt8.ofNat (8 - bits) =
        b <<< (8 - UInt8.ofNat bits) := by
  have hall : ∀ bits : Fin 8, bits.val ≠ 0 → ∀ n : Fin 256,
      (UInt8.ofNat n &&& rightMasks.getD bits 0) >>> UInt8.ofNat bits =
          UInt8.ofNat n >>> UInt8.ofNat bits ∧
        (UInt8.ofNat n &&& ~~~rightMasks.getD bits 0) <<< UInt8.ofNat (8 - bits) =
          UInt8.ofNat n <<< (8 - UInt8.ofNat bits) := by
    decide +kernel
  have hb := hall ⟨bits, h⟩ hpos ⟨b.toNat, b.toNat_lt⟩
  simpa only [UInt8.ofNat_toNat] using hb

/-- The bytes that a shift by whole bytes to the right moves. -/
theorem getElem?_moved_right (bytes : Nat) (data : Bytes) {k : Nat} (hk : k < data.length) :
    (List.replicate (min bytes data.length) 0 ++ data.take (data.length - bytes))[k]? =
      some (if bytes ≤ k then data.getD (k - bytes) 0 else 0) := by
  split
  · rename_i hle
    rw [List.getElem?_append_right (by rw [List.length_replicate]; omega), List.length_replicate,
      List.getElem?_take_of_lt (by omega), List.getD_eq_getElem?_getD,
      show k - min bytes data.length = k - bytes by omega,
      List.getElem?_eq_getElem (show k - bytes < data.length by omega)]
    rfl
  · rename_i hlt
    rw [List.getElem?_append_left (by rw [List.length_replicate]; omega),
      List.getElem?_replicate_of_lt (by omega)]

theorem getElem?_shiftRight (n : Nat) (data : Bytes) {k : Nat} (hk : k < data.length) :
    (Bytes.shiftRight n data)[k]? =
      some (rightWritten data (n / 8) (n % 8) (rightMasks.getD (n % 8) 0) data.length k) := by
  have hbits : n % 8 < 8 := Nat.mod_lt n (by omega)
  have hmoved := getElem?_moved_right (n / 8) data hk
  have hfirst : n / 8 ≤ k ∧ k < data.length + n / 8 ↔ n / 8 ≤ k := by omega
  have hsecond : n / 8 + 1 ≤ k ∧ k < data.length + n / 8 + 1 ∧ n % 8 > 0 ↔
      n / 8 + 1 ≤ k ∧ n % 8 > 0 := by omega
  have hbefore : (0 :: (List.replicate (min (n / 8) data.length) 0 ++
      data.take (data.length - n / 8)))[k]? =
      some (if n / 8 + 1 ≤ k then data.getD (k - n / 8 - 1) 0 else 0) := by
    cases k with
    | zero => simp
    | succ j =>
        rw [List.getElem?_cons_succ, getElem?_moved_right _ _ (by omega)]
        simp only [Nat.add_le_add_iff_right, show j + 1 - n / 8 - 1 = j - n / 8 by omega]
  unfold Bytes.shiftRight rightWritten
  simp only [hfirst, hsecond, ofNat_eq_zero_iff hbits]
  by_cases hzero : n % 8 = 0
  · simp only [hzero, if_true, hmoved, Nat.lt_irrefl, gt_iff_lt, and_false, if_false]
    split
    · exact congrArg some
        (forall_byte (P := fun b => b = (b &&& 0xff) >>> 0 ||| 0) (by decide +kernel) _)
    · rfl
  · have hpos : n % 8 > 0 := Nat.pos_of_ne_zero hzero
    simp only [hzero, hpos, and_true, if_false, (rightMask_eq hbits hzero _).1,
      (rightMask_eq hbits hzero _).2, List.getElem?_zipWith, hmoved, hbefore]
    rw [UInt8.or_comm]
    congr 2
    · split
      · rfl
      · exact UInt8.zero_shiftRight
    · split
      · rfl
      · exact UInt8.zero_shiftLeft

theorem shiftRight_eq {data : Bytes} (hlength : data.length < wordSpan) (n : Nat) :
    shiftRight n data = some (Bytes.shiftRight n data) := by
  have hbits : n % 8 < 8 := Nat.mod_lt n (by omega)
  have hmask : index rightMasks (n % 8) = some (rightMasks.getD (n % 8) 0) := index_eq_getD hbits 0
  have hstart : List.replicate data.length 0 =
      table data.length (rightWritten data (n / 8) (n % 8) (rightMasks.getD (n % 8) 0) 0) := by
    apply eq_table List.length_replicate
    intro k hk
    rw [rightWritten_zero, List.getElem?_replicate_of_lt hk]
  rw [shiftRight, bind_of_some hmask, hstart]
  refine (rightLoop_eq hlength hbits (List.nil_append data).symm).trans ?_
  congr 1
  symm
  exact eq_table (Bytes.length_shiftRight n data) fun k hk => getElem?_shiftRight n data hk

end Guarded

end BitcoinScript
