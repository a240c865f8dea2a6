import Mathlib.Tactic.IntervalCases
import BitcoinScript.Machine.Step
import BitcoinScript.Proofs.Guarded.Shift
import BitcoinScript.Proofs.Number.Minimal

/-!
# Shifts as arithmetic

A shift moves whole bytes first and then puts every byte together from two neighbours. Read as a
big-endian number, a string of bytes is multiplied by a power of two, as far as it has room, or
divided by one (`Bytes.beValue_shiftLeft`, `Bytes.beValue_shiftRight`).

For the whole bytes this is a matter of cutting the string (`Bytes.beValue_split`). For the bits,
both directions come down to one statement about neighbours, `Bytes.beValue_zipWith_neighbours`: a
string with a byte in front of it is shifted to the right. A shift to the left by `k` bits is one to
the right by `8 - k`, once a zero byte is put behind the string.

Counts past a machine word are cut to the largest one. A string of fewer than `2 ^ 64` bits is all
zero by then, so that the operations shift by the count that is meant
(`Machine.shifts_multiply_and_divide`).
-/

namespace BitcoinScript

namespace Bytes

theorem span_eq_two_pow (k : Nat) : span k = 2 ^ (8 * k) := Nat.one_shiftLeft _

theorem span_of_le {j k : Nat} (h : j ≤ k) : span k = span (k - j) * span j := by
  rw [span_eq_two_pow, span_eq_two_pow, span_eq_two_pow, ← Nat.pow_add, ← Nat.mul_add,
    Nat.sub_add_cancel h]

/-- A count of bits as one of bytes and one of the bits that are left. -/
theorem two_pow_eq_span_mul (n : Nat) : 2 ^ n = span (n / 8) * 2 ^ (n % 8) := by
  rw [span_eq_two_pow, ← Nat.pow_add, Nat.div_add_mod]

theorem two_pow_mul_two_pow_sub {k : Nat} (hk : k < 8) : 2 ^ k * 2 ^ (8 - k) = 256 := by
  rw [← Nat.pow_add, Nat.add_sub_cancel' (Nat.le_of_lt hk)]

theorem beValue_append (a b : Bytes) :
    beValue (a ++ b) = span b.length * beValue a + beValue b := by
  have hread : ∀ c : Bytes, beValue c = leValue c.reverse := by
    intro c
    rw [← beValue_reverse, List.reverse_reverse]
  rw [hread, hread, hread, List.reverse_append, leValue_append, List.length_reverse, Nat.add_comm]

theorem beValue_cons (x : UInt8) (rest : Bytes) :
    beValue (x :: rest) = span rest.length * x.toNat + beValue rest := by
  have hsingle : beValue [x] = x.toNat := by simp [beValue]
  rw [← List.singleton_append, beValue_append, hsingle]

theorem beValue_lt (b : Bytes) : beValue b < span b.length := by
  have hlt := leValue_lt b.reverse
  rwa [← beValue_reverse, List.reverse_reverse, List.length_reverse] at hlt

@[simp] theorem beValue_zeros (k : Nat) : beValue (List.replicate k 0) = 0 := by
  induction k with
  | zero => rfl
  | succ k ih => rw [List.replicate_succ, beValue_cons, ih]; rfl

theorem beValue_split (d : Bytes) (k : Nat) :
    beValue d = span (d.length - k) * beValue (d.take k) + beValue (d.drop k) := by
  rw [← List.length_drop, ← beValue_append, List.take_append_drop]

/-! ## Whole bytes -/

theorem beValue_moved_left (m : Nat) (d : Bytes) :
    beValue (d.drop m ++ List.replicate (min m d.length) 0) =
      beValue d * span m % span d.length := by
  rw [beValue_append, List.length_replicate, beValue_zeros, Nat.add_zero]
  rcases Nat.le_total m d.length with hm | hm
  · have hspan := span_of_le hm
    have hlt : beValue (d.drop m) * span m < span d.length := by
      rw [hspan, ← List.length_drop]
      exact Nat.mul_lt_mul_of_pos_right (beValue_lt _) (span_pos m)
    have hsplit : beValue d * span m =
        span d.length * beValue (d.take m) + beValue (d.drop m) * span m := by
      rw [beValue_split d m, Nat.add_mul, Nat.mul_right_comm, ← hspan]
    rw [Nat.min_eq_left hm, hsplit, Nat.mul_add_mod, Nat.mod_eq_of_lt hlt, Nat.mul_comm]
  · rw [List.drop_of_length_le hm, span_of_le hm, ← Nat.mul_assoc, Nat.mul_mod_left]
    rfl

theorem beValue_moved_right (m : Nat) (d : Bytes) :
    beValue (List.replicate (min m d.length) 0 ++ d.take (d.length - m)) =
      beValue d / span m := by
  rw [beValue_append, beValue_zeros, Nat.mul_zero, Nat.zero_add]
  rcases Nat.le_total m d.length with hm | hm
  · have hkept : d.length - (d.length - m) = m := Nat.sub_sub_self hm
    have hlow := beValue_lt (d.drop (d.length - m))
    rw [List.length_drop, hkept] at hlow
    rw [beValue_split d (d.length - m), hkept, Nat.mul_add_div (span_pos m),
      Nat.div_eq_of_lt hlow, Nat.add_zero]
  · have hlt : beValue d < span m := Nat.lt_of_lt_of_le (beValue_lt d) (span_mono hm)
    rw [Nat.sub_eq_zero_of_le hm, Nat.div_eq_of_lt hlt]
    rfl

/-! ## Bits across bytes -/

/-- A byte put together from the low bits of one byte and the high bits of the next. -/
theorem toNat_shiftLeft_or_shiftRight {k : Nat} (hpos : 0 < k) (hk : k < 8) (b c : UInt8) :
    (b <<< (8 - UInt8.ofNat k) ||| c >>> UInt8.ofNat k).toNat =
      (256 * b.toNat + c.toNat) / 2 ^ k % 256 := by
  have hb := b.toNat_lt
  have hc := c.toNat_lt
  have hright : (UInt8.ofNat k).toNat % 8 = k := by
    rw [UInt8.toNat_ofNat', Nat.mod_eq_of_lt (show k < 2 ^ 8 by omega), Nat.mod_eq_of_lt hk]
  have hleft : (8 - UInt8.ofNat k).toNat % 8 = 8 - k := by
    interval_cases k <;> rfl
  have hlow : b.toNat <<< (8 - k) % 2 ^ 8 = (b.toNat % 2 ^ k) <<< (8 - k) := by
    have hpow : 2 ^ 8 = 2 ^ k * 2 ^ (8 - k) := (two_pow_mul_two_pow_sub hk).symm
    rw [Nat.shiftLeft_eq, Nat.shiftLeft_eq, hpow, Nat.mul_mod_mul_right]
  have hhigh : c.toNat >>> k < 2 ^ (8 - k) := by
    rw [Nat.shiftRight_eq_div_pow]
    interval_cases k <;> omega
  rw [UInt8.toNat_or, UInt8.toNat_shiftLeft, UInt8.toNat_shiftRight, hright, hleft, hlow,
    ← Nat.shiftLeft_add_eq_or_of_lt hhigh, Nat.shiftLeft_eq, Nat.shiftRight_eq_div_pow]
  interval_cases k <;> omega

/-- Every byte of a string is put together with the one before it: the string with a first byte in
front is shifted to the right, and its first byte left out. -/
theorem beValue_zipWith_neighbours {k : Nat} (hpos : 0 < k) (hk : k < 8) (first : UInt8)
    (rest : Bytes) :
    beValue (List.zipWith (fun b c => b <<< (8 - UInt8.ofNat k) ||| c >>> UInt8.ofNat k)
      (first :: rest) rest) = beValue (first :: rest) / 2 ^ k % span rest.length := by
  induction rest generalizing first with
  | nil => simp [beValue, Nat.mod_one]
  | cons next rest ih =>
      have hlt := beValue_lt rest
      have hspos := span_pos rest.length
      have hkpos : 0 < 2 ^ k := Nat.two_pow_pos k
      rw [List.zipWith_cons_cons, beValue_cons, ih, toNat_shiftLeft_or_shiftRight hpos hk,
        List.length_zipWith, List.length_cons, Nat.min_eq_right (Nat.le_succ _), span_succ,
        beValue_cons first, beValue_cons next, List.length_cons, span_succ]
      generalize span rest.length = weight at hlt hspos ⊢
      generalize beValue rest = low at hlt ⊢
      -- the new first byte is made of the first two bytes alone
      have hbyte : (256 * weight * first.toNat + (weight * next.toNat + low)) / 2 ^ k / weight =
          (256 * first.toNat + next.toNat) / 2 ^ k := by
        have hjoin : 256 * weight * first.toNat + (weight * next.toNat + low) =
            weight * (256 * first.toNat + next.toNat) + low := by
          rw [Nat.mul_add, ← Nat.add_assoc, Nat.mul_comm 256 weight, Nat.mul_assoc]
        rw [Nat.div_right_comm, hjoin, Nat.mul_add_div hspos, Nat.div_eq_of_lt hlt, Nat.add_zero]
      -- and none of its own bits goes further
      have hrest : (256 * weight * first.toNat + (weight * next.toNat + low)) / 2 ^ k % weight =
          (weight * next.toNat + low) / 2 ^ k % weight := by
        have hfactor : 256 * weight * first.toNat =
            2 ^ k * (weight * (2 ^ (8 - k) * first.toNat)) := by
          rw [← two_pow_mul_two_pow_sub hk, Nat.mul_assoc, Nat.mul_assoc,
            Nat.mul_left_comm (2 ^ (8 - k))]
        rw [hfactor, Nat.mul_add_div hkpos, Nat.mul_add_mod]
      rw [Nat.mul_comm 256 weight, Nat.mod_mul, Nat.mul_comm weight 256, hbyte, hrest, Nat.add_comm]

/-- The last byte of all has no byte after it to go with. -/
theorem zipWith_neighbours_concat (f : UInt8 → UInt8 → UInt8) (first last : UInt8) (rest : Bytes) :
    List.zipWith f (first :: rest) (rest ++ [last]) =
      List.zipWith f (first :: (rest ++ [last])) (rest ++ [last]) := by
  induction rest generalizing first with
  | nil => rfl
  | cons next rest ih =>
      rw [List.cons_append, List.zipWith_cons_cons, List.zipWith_cons_cons, ih]

/-- Shifting to the left by some bits is shifting to the right by the others, after a zero byte is
put behind. -/
theorem beValue_zipWith_drop {k : Nat} (hpos : 0 < k) (hk : k < 8) (b : Bytes) :
    beValue (List.zipWith (fun b c => b <<< UInt8.ofNat k ||| c >>> (8 - UInt8.ofNat k)) b
      (b.drop 1 ++ [0])) = beValue b * 2 ^ k % span b.length := by
  cases b with
  | nil => simp [beValue]
  | cons first rest =>
      have hcount : UInt8.ofNat k = 8 - UInt8.ofNat (8 - k) := by
        interval_cases k <;> rfl
      have hothers : 8 - UInt8.ofNat k = UInt8.ofNat (8 - k) := by
        interval_cases k <;> rfl
      have hvalue : beValue (first :: (rest ++ [0])) =
          2 ^ (8 - k) * (beValue (first :: rest) * 2 ^ k) := by
        have hspan : span [(0 : UInt8)].length = 256 := rfl
        have hlast : beValue [0] = 0 := rfl
        rw [← List.cons_append, beValue_append, hlast, Nat.add_zero, hspan,
          ← two_pow_mul_two_pow_sub hk, Nat.mul_comm (2 ^ k), Nat.mul_assoc, Nat.mul_comm (2 ^ k)]
      rw [hothers, hcount, List.drop_succ_cons, List.drop_zero, zipWith_neighbours_concat,
        beValue_zipWith_neighbours (by omega) (by omega), hvalue,
        Nat.mul_div_cancel_left _ (Nat.two_pow_pos _), List.length_append]
      rfl

theorem beValue_shiftLeft (n : Nat) (d : Bytes) :
    beValue (shiftLeft n d) = beValue d * 2 ^ n % 2 ^ (8 * d.length) := by
  have hmoved := beValue_moved_left (n / 8) d
  have hlength : (d.drop (n / 8) ++ List.replicate (min (n / 8) d.length) 0).length = d.length := by
    rw [List.length_append, List.length_drop, List.length_replicate]
    omega
  have hbits : n % 8 < 8 := Nat.mod_lt n (by omega)
  unfold shiftLeft
  generalize d.drop (n / 8) ++ List.replicate (min (n / 8) d.length) 0 = moved at hmoved hlength ⊢
  rw [← span_eq_two_pow, two_pow_eq_span_mul, ← Nat.mul_assoc, ← Nat.mod_mul_mod, ← hmoved]
  dsimp only
  simp only [Guarded.ofNat_eq_zero_iff hbits, ← hlength]
  split
  · rename_i hzero
    rw [hzero, Nat.pow_zero, Nat.mul_one, Nat.mod_eq_of_lt (beValue_lt moved)]
  · rename_i hpos
    exact beValue_zipWith_drop (Nat.pos_of_ne_zero hpos) hbits moved

theorem beValue_shiftRight (n : Nat) (d : Bytes) :
    beValue (shiftRight n d) = beValue d / 2 ^ n := by
  have hmoved := beValue_moved_right (n / 8) d
  have hbits : n % 8 < 8 := Nat.mod_lt n (by omega)
  unfold shiftRight
  generalize List.replicate (min (n / 8) d.length) 0 ++ d.take (d.length - n / 8) = moved at hmoved ⊢
  dsimp only
  rw [two_pow_eq_span_mul, ← Nat.div_div_eq_div_mul, ← hmoved]
  simp only [Guarded.ofNat_eq_zero_iff hbits]
  split
  · rename_i hzero
    rw [hzero, Nat.pow_zero, Nat.div_one]
  · rename_i hpos
    have hlt := beValue_lt moved
    rw [beValue_zipWith_neighbours (Nat.pos_of_ne_zero hpos) hbits, beValue_cons]
    have hle : beValue moved / 2 ^ (n % 8) ≤ beValue moved := Nat.div_le_self _ _
    have hz : UInt8.toNat 0 = 0 := rfl
    rw [hz, Nat.mul_zero, Nat.zero_add, Nat.mod_eq_of_lt (by omega)]

end Bytes

/-- The number that a shift makes of the number of a string of `width` bytes. -/
def Direction.shifted (direction : Direction) (width count value : Nat) : Nat :=
  match direction with
  | .left => value * 2 ^ count % 2 ^ (8 * width)
  | .right => value / 2 ^ count

theorem Bytes.beValue_shift (direction : Direction) (n : Nat) (d : Bytes) :
    beValue (shift direction n d) = direction.shifted d.length n (beValue d) := by
  cases direction with
  | left => exact beValue_shiftLeft n d
  | right => exact beValue_shiftRight n d

section Saturation

variable {direction : Direction} {width count value : Nat}

/-- Nothing is left of a string that is shifted by its width. -/
theorem Direction.shifted_eq_zero (hvalue : value < 2 ^ (8 * width)) (hcount : 8 * width ≤ count) :
    direction.shifted width count value = 0 := by
  have hpow : 2 ^ count = 2 ^ (8 * width) * 2 ^ (count - 8 * width) := by
    rw [← Nat.pow_add, Nat.add_sub_cancel' hcount]
  cases direction with
  | left =>
      rw [shifted, hpow, Nat.mul_left_comm]
      exact Nat.mul_mod_right _ _
  | right =>
      apply Nat.div_eq_of_lt
      exact Nat.lt_of_lt_of_le hvalue (Nat.pow_le_pow_right (by decide) hcount)

theorem Direction.shifted_min {bound : Nat} (hvalue : value < 2 ^ (8 * width))
    (hbound : 8 * width ≤ bound) :
    direction.shifted width (min count bound) value = direction.shifted width count value := by
  rcases Nat.le_total count bound with hle | hle
  · rw [Nat.min_eq_left hle]
  · rw [Nat.min_eq_right hle, shifted_eq_zero hvalue hbound,
      shifted_eq_zero hvalue (Nat.le_trans hbound hle)]

end Saturation

namespace Machine

/-- A shift by a number that is not negative, however large it is. -/
theorem perform_shift (direction : Direction) {ctx : Context} {c : Chunk} {s : State}
    {count x : Item} {rest : Stack} {n : Int} (hop : c.opcode.operation = .shift direction)
    (hstack : s.stack = count :: x :: rest) (hcount : number ctx.flags count = .ok n)
    (hn : 0 ≤ n) (hwidth : 8 * x.size < 2 ^ 64) :
    ∃ b : Bytes,
      perform ctx c s =
        .next { s with stack := (withBytes x b).merge count.provenance :: rest } ∧
      b.length = x.size ∧
      Bytes.beValue b = direction.shifted x.size n.toNat (Bytes.beValue x.bytes) := by
  refine ⟨Bytes.shift direction (min n.toNat Limits.wordMax) x.bytes, ?_, ?_, ?_⟩
  · simp only [perform, hop, shift, hstack, hcount, if_neg (Int.not_lt.mpr hn)]
  · rw [Bytes.length_shift, Item.length_bytes]
  · have hvalue := Bytes.beValue_lt x.bytes
    rw [Bytes.span_eq_two_pow, Item.length_bytes] at hvalue
    rw [Bytes.beValue_shift, Item.length_bytes]
    apply Direction.shifted_min hvalue
    unfold Limits.wordMax
    omega

/-- **Shifts multiply and divide.** As big-endian numbers, strings shifted to the left are multiplied
by a power of two modulo the power that their length gives, and strings shifted to the right are
divided by it; the length stays. Going through the bytes and writing each in two parts gives the
same. The two operations do this for every count that is not negative, on strings of fewer than
`2 ^ 64` bits, although they cut off counts past a machine word. -/
theorem shifts_multiply_and_divide :
    (∀ (d : Bytes) (n : Nat),
      (Bytes.shiftLeft n d).length = d.length ∧
      (Bytes.shiftRight n d).length = d.length ∧
      Bytes.beValue (Bytes.shiftLeft n d) = Bytes.beValue d * 2 ^ n % 2 ^ (8 * d.length) ∧
      Bytes.beValue (Bytes.shiftRight n d) = Bytes.beValue d / 2 ^ n ∧
      (d.length < Guarded.wordSpan →
        Guarded.shiftLeft n d = some (Bytes.shiftLeft n d) ∧
        Guarded.shiftRight n d = some (Bytes.shiftRight n d))) ∧
    ∀ (ctx : Context) (offset : Nat) (s : State) (count x : Item) (rest : Stack) (n : Int),
      s.stack = count :: x :: rest → number ctx.flags count = .ok n → 0 ≤ n →
      8 * x.size < 2 ^ 64 →
        (∃ b : Bytes,
          perform ctx ⟨⟨0x98⟩, none, offset⟩ s =
            .next { s with stack := (withBytes x b).merge count.provenance :: rest } ∧
          b.length = x.size ∧
          Bytes.beValue b = Bytes.beValue x.bytes * 2 ^ n.toNat % 2 ^ (8 * x.size)) ∧
        ∃ b : Bytes,
          perform ctx ⟨⟨0x99⟩, none, offset⟩ s =
            .next { s with stack := (withBytes x b).merge count.provenance :: rest } ∧
          b.length = x.size ∧
          Bytes.beValue b = Bytes.beValue x.bytes / 2 ^ n.toNat := by
  constructor
  · intro d n
    refine ⟨Bytes.length_shiftLeft n d, Bytes.length_shiftRight n d, Bytes.beValue_shiftLeft n d,
      Bytes.beValue_shiftRight n d, ?_⟩
    intro hlength
    exact ⟨Guarded.shiftLeft_eq n d, Guarded.shiftRight_eq hlength n⟩
  · intro ctx offset s count x rest n hstack hcount hn hwidth
    exact ⟨perform_shift .left rfl hstack hcount hn hwidth,
      perform_shift .right rfl hstack hcount hn hwidth⟩

/-- Three bytes are shifted by twelve bits, a byte and a half, in either direction. -/
theorem shifts_by_twelve_bits :
    number {} (.literal [0x0c]) = .ok 12 ∧
    (∃ b : Bytes,
      perform ⟨{}, .absent, []⟩ ⟨⟨0x98⟩, none, 0⟩
          { stack := [.literal [0x0c], .literal [0x12, 0x34, 0x56]] } =
        .next { stack := [(withBytes (.literal [0x12, 0x34, 0x56]) b).merge .literal] } ∧
      b.length = 3 ∧ Bytes.beValue b = 0x456000) ∧
    ∃ b : Bytes,
      perform ⟨{}, .absent, []⟩ ⟨⟨0x99⟩, none, 0⟩
          { stack := [.literal [0x0c], .literal [0x12, 0x34, 0x56]] } =
        .next { stack := [(withBytes (.literal [0x12, 0x34, 0x56]) b).merge .literal] } ∧
      b.length = 3 ∧ Bytes.beValue b = 0x000123 := by
  have hcount : number {} (.literal [0x0c]) = .ok 12 := rfl
  have hsize : 8 * (Item.literal [0x12, 0x34, 0x56]).size < 2 ^ 64 := by decide
  exact ⟨hcount, shifts_multiply_and_divide.2 ⟨{}, .absent, []⟩ 0
    { stack := [.literal [0x0c], .literal [0x12, 0x34, 0x56]] } _ _ _ 12 rfl hcount (by decide)
    hsize⟩

end Machine

end BitcoinScript
