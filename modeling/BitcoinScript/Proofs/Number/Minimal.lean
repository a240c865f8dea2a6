import Mathlib.Algebra.Group.Nat.Defs
import BitcoinScript.Proofs.Guarded.Word
import BitcoinScript.Proofs.Number.Width

/-!
# Integers and minimal byte strings

Whether a byte string has a redundant byte is tested on its last two bytes. In terms of the number
that it stands for, the test says that the string is as long as the number is wide
(`Number.isMinimal_iff`). As a number and a length leave only one string, the sign of zero apart,
the minimal strings are exactly those that are written (`Number.encode_value`,
`Number.value_encode`), and reading with a bound undoes writing
(`Number.minimal_strings_biject`).

The other functions on the bytes of a number follow its value too: dropping the redundant bytes
gives what would be written (`Number.minimize_eq_encode`), and a string counts as true if its
number is not zero (`Number.isTrue_iff`). `Number.byte_views_agree` puts them together.
-/

namespace BitcoinScript

namespace Bytes

theorem span_pos (k : Nat) : 0 < span k := by
  rw [span, Nat.one_shiftLeft]
  exact Nat.two_pow_pos _

theorem span_mono {j k : Nat} (h : j ≤ k) : span j ≤ span k := by
  rw [span, span, Nat.one_shiftLeft, Nat.one_shiftLeft]
  exact Nat.pow_le_pow_right (by decide) (Nat.mul_le_mul_left 8 h)

theorem leValue_concat (front : Bytes) (top : UInt8) :
    leValue (front ++ [top]) = leValue front + span front.length * top.toNat := by
  rw [leValue_append]
  simp

theorem toNat_eq_zero_iff (b : UInt8) : b.toNat = 0 ↔ b = 0 := by
  rw [← UInt8.toNat_inj]
  rfl

theorem leValue_eq_zero_iff (b : Bytes) : leValue b = 0 ↔ ∀ x ∈ b, x = 0 := by
  induction b with
  | nil => simp
  | cons x rest ih =>
      rw [leValue_cons, List.forall_mem_cons, ← ih, ← toNat_eq_zero_iff]
      omega

/-- Zero bytes at the end add nothing. -/
theorem leValue_append_zeros {front back : Bytes} (h : ∀ x ∈ back, x = 0) :
    leValue (front ++ back) = leValue front := by
  rw [leValue_append, (leValue_eq_zero_iff back).mpr h, Nat.mul_zero, Nat.add_zero]

theorem beValue_reverse (b : Bytes) : beValue b.reverse = leValue b := by
  induction b with
  | nil => rfl
  | cons x rest ih =>
      rw [List.reverse_cons, leValue_cons, ← ih]
      simp only [beValue, List.foldl_append, List.foldl_cons, List.foldl_nil]
      omega

end Bytes

namespace Number

open Guarded (forall_byte and_sign_eq_zero_iff)

/-! ## The last byte -/

theorem signWeight_succ_eq (k : Nat) : signWeight (k + 1) = Bytes.span k * 128 := by
  have hspan := span_eq_two_mul_signWeight k
  rw [Bytes.span_succ] at hspan
  omega

theorem toNat_of_sign {b : UInt8} (h : ¬ b &&& 0x80 = 0) : b.toNat = (b &&& 0x7f).toNat + 128 :=
  forall_byte (P := fun b => ¬ b &&& 0x80 = 0 → b.toNat = (b &&& 0x7f).toNat + 128)
    (by decide +kernel) b h

theorem and_eq_self_of_no_sign {b : UInt8} (h : b &&& 0x80 = 0) : b &&& 0x7f = b :=
  forall_byte (P := fun b => b &&& 0x80 = 0 → b &&& 0x7f = b) (by decide +kernel) b h

/-- The last byte holds the sign above the highest bits of the magnitude. -/
theorem value_concat (front : Bytes) (top : UInt8) :
    value (front ++ [top]) =
      if top &&& 0x80 = 0 then (Bytes.leValue (front ++ [top &&& 0x7f]) : Int)
      else -(Bytes.leValue (front ++ [top &&& 0x7f]) : Int) := by
  have hlt := Bytes.leValue_lt front
  have hlength : (front ++ [top]).length = front.length + 1 := by simp
  rw [value_def, hlength, signWeight_succ_eq, Bytes.leValue_concat, Bytes.leValue_concat]
  by_cases hsign : top &&& 0x80 = 0
  · have hsmall : top.toNat < 128 := UInt8.lt_iff_toNat_lt.mp ((and_sign_eq_zero_iff top).mp hsign)
    have hle : Bytes.span front.length * top.toNat ≤ Bytes.span front.length * 127 :=
      Nat.mul_le_mul_left _ (by omega)
    rw [if_pos hsign, and_eq_self_of_no_sign hsign, if_pos (by omega)]
  · rw [if_neg hsign, toNat_of_sign hsign, Nat.mul_add, if_neg (by omega)]
    omega

theorem natAbs_value_concat (front : Bytes) (top : UInt8) :
    (value (front ++ [top])).natAbs =
      Bytes.leValue front + Bytes.span front.length * (top &&& 0x7f).toNat := by
  rw [value_concat, ← Bytes.leValue_concat]
  split <;> omega

/-! ## Strings without a redundant byte -/

theorem isMinimal_of_magnitude {top : UInt8} (h : ¬ top &&& 0x7f = 0) (front : Bytes) :
    isMinimal (front ++ [top]) = true := by
  rcases List.eq_nil_or_concat front with rfl | ⟨front, next, rfl⟩
  · simpa [isMinimal] using h
  · simp [isMinimal, h]

theorem isMinimal_of_used_bit {next : UInt8} (h : ¬ next &&& 0x80 = 0) (front : Bytes)
    (top : UInt8) : isMinimal (front ++ [next] ++ [top]) = true := by
  simp [isMinimal, h]

/-- The last byte is redundant if the bytes below it have room for the number. -/
theorem not_isMinimal_concat_iff (front : Bytes) (top : UInt8) :
    ¬ isMinimal (front ++ [top]) = true ↔
      width (value (front ++ [top])).natAbs ≤ front.length := by
  rcases List.eq_nil_or_concat front with rfl | ⟨front, next, rfl⟩
  · have hredundant : ¬ isMinimal ([] ++ [top]) = true ↔ top &&& 0x7f = 0 := by
      simp [isMinimal]
    rw [hredundant, natAbs_value_concat, ← Bytes.toNat_eq_zero_iff]
    unfold width
    simp
  · rw [List.concat_eq_append]
    have hredundant : ¬ isMinimal (front ++ [next] ++ [top]) = true ↔
        top &&& 0x7f = 0 ∧ next &&& 0x80 = 0 := by
      simp [isMinimal]
    have hlength : (front ++ [next]).length = front.length + 1 := by simp
    rw [hredundant, hlength, width_le_iff (Nat.succ_pos _), signWeight_succ_eq,
      natAbs_value_concat, hlength, Bytes.leValue_concat, Bytes.span_succ,
      ← Bytes.toNat_eq_zero_iff, and_sign_eq_zero_iff, UInt8.lt_iff_toNat_lt]
    have hpos := Bytes.span_pos front.length
    have hlt := Bytes.leValue_lt front
    generalize Bytes.span front.length = weight at hpos hlt ⊢
    constructor
    · rintro ⟨htop, hnext⟩
      have hle : weight * next.toNat ≤ weight * 127 :=
        Nat.mul_le_mul_left _ (Nat.le_of_lt_succ hnext)
      rw [htop]
      omega
    · intro hroom
      constructor
      · apply Nat.eq_zero_of_not_pos
        intro htop
        have hle : 256 * weight * 1 ≤ 256 * weight * (top &&& 0x7f).toNat :=
          Nat.mul_le_mul_left _ htop
        omega
      · apply Nat.lt_of_mul_lt_mul_left (a := weight)
        have h128 : (0x80 : UInt8).toNat = 128 := rfl
        rw [h128]
        omega

/-- A string is minimal if it is as long as its number is wide. -/
theorem isMinimal_iff (b : Bytes) : isMinimal b = true ↔ width (value b).natAbs = b.length := by
  rcases List.eq_nil_or_concat b with rfl | ⟨front, top, rfl⟩
  · decide
  rw [List.concat_eq_append]
  have hlength : (front ++ [top]).length = front.length + 1 := by simp
  have hlt := natAbs_value_lt (front ++ [top])
  rw [hlength, ← width_le_iff (Nat.succ_pos _)] at hlt
  have hredundant := not_isMinimal_concat_iff front top
  rw [hlength]
  constructor
  · intro hminimal
    have hwide := mt hredundant.mpr (not_not_intro hminimal)
    omega
  · intro hwidth
    apply Decidable.not_not.mp
    intro hnot
    have hroom := hredundant.mp hnot
    omega

/-! ## Writing and reading -/

theorem natAbs_lt_signWeight_width {m : Nat} (hm : m ≠ 0) : m < signWeight (width m) := by
  have hpos : 0 < width m := by
    unfold width
    rw [if_neg hm]
    exact Nat.succ_pos _
  exact (width_le_iff hpos).mp (Nat.le_refl _)

theorem leValue_encode (n : Int) : Bytes.leValue (encode n) =
    n.natAbs + if n < 0 then signWeight (width n.natAbs) else 0 := by
  by_cases hzero : n = 0
  · rw [hzero]
    rfl
  have hm : n.natAbs ≠ 0 := by omega
  have hlt := natAbs_lt_signWeight_width hm
  obtain ⟨k, hk⟩ : ∃ k, width n.natAbs = k + 1 := ⟨_, if_neg hm⟩
  rw [encode_def]
  apply Bytes.leValue_le_of_lt
  rw [hk] at hlt ⊢
  rw [span_eq_two_mul_signWeight]
  split <;> omega

/-- What was written is read. -/
theorem value_encode (n : Int) : value (encode n) = n := by
  by_cases hzero : n = 0
  · rw [hzero]
    rfl
  have hlt := natAbs_lt_signWeight_width (m := n.natAbs) (by omega)
  rw [value_def, leValue_encode, length_encode]
  generalize signWeight (width n.natAbs) = weight at hlt ⊢
  by_cases hneg : n < 0
  · rw [if_pos hneg, if_neg (by omega)]
    omega
  · rw [if_neg hneg, if_pos (by omega)]
    omega

theorem isMinimal_encode (n : Int) : isMinimal (encode n) = true := by
  rw [isMinimal_iff, value_encode, length_encode]

/-- A minimal string is what is written for its number. -/
theorem encode_value {b : Bytes} (h : isMinimal b = true) : encode (value b) = b := by
  have hwidth := (isMinimal_iff b).mp h
  by_cases hzero : value b = 0
  · -- no byte is left for the sign of zero
    rw [hzero] at hwidth ⊢
    exact (List.eq_nil_of_length_eq_zero hwidth.symm).symm
  apply Bytes.eq_of_leValue_eq
  · rw [length_encode, hwidth]
  · rw [leValue_encode, hwidth]
    rw [value_def] at hzero ⊢
    generalize signWeight b.length = weight at hzero ⊢
    by_cases hsmall : Bytes.leValue b < weight
    · rw [if_pos hsmall, if_neg (by omega)]
      omega
    · rw [if_neg hsmall] at hzero ⊢
      rw [if_pos (by omega)]
      omega

/-- The minimal strings are those that are written for some integer. -/
theorem isMinimal_iff_exists_encode (b : Bytes) : isMinimal b = true ↔ ∃ n, encode n = b := by
  constructor
  · intro h
    exact ⟨value b, encode_value h⟩
  · rintro ⟨n, rfl⟩
    exact isMinimal_encode n

/-- The size of what is written. -/
theorem length_encode_le_iff {k : Nat} (hk : 0 < k) (n : Int) :
    (encode n).length ≤ k ↔ n.natAbs < 2 ^ (8 * k - 1) := by
  rw [length_encode, width_le_iff hk, signWeight, Nat.one_shiftLeft]

/-! ## Reading with a bound -/

section Decode

variable {requireMinimal : Bool} {k : Nat} {b : Bytes}

theorem decode_eq_overflow_iff : decode requireMinimal k b = .error .overflow ↔ k < b.length := by
  unfold decode
  split
  · rename_i hlong
    exact ⟨fun _ => hlong, fun _ => rfl⟩
  · rename_i hfits
    split <;> exact ⟨nofun, fun hlong => absurd hlong hfits⟩

theorem decode_eq_notMinimal_iff :
    decode true k b = .error .notMinimal ↔ b.length ≤ k ∧ ¬ isMinimal b = true := by
  unfold decode
  split
  · rename_i hlong
    exact ⟨nofun, fun h => absurd hlong (Nat.not_lt.mpr h.1)⟩
  · rename_i hfits
    cases isMinimal b <;> simp [Nat.not_lt.mp hfits]

theorem decode_eq_ok_iff {n : Int} :
    decode requireMinimal k b = .ok n ↔
      b.length ≤ k ∧ (requireMinimal = true → isMinimal b = true) ∧ value b = n := by
  unfold decode
  split
  · rename_i hlong
    exact ⟨nofun, fun h => absurd hlong (Nat.not_lt.mpr h.1)⟩
  · rename_i hfits
    cases requireMinimal <;> cases isMinimal b <;> simp [Nat.not_lt.mp hfits]

end Decode

theorem decode_encode (requireMinimal : Bool) {k : Nat} (hk : 0 < k) (n : Int) :
    decode requireMinimal k (encode n) =
      if n.natAbs < 2 ^ (8 * k - 1) then .ok n else .error .overflow := by
  split
  · rename_i hlt
    exact decode_eq_ok_iff.mpr
      ⟨(length_encode_le_iff hk n).mpr hlt, fun _ => isMinimal_encode n, value_encode n⟩
  · rename_i hwide
    exact decode_eq_overflow_iff.mpr (Nat.not_le.mp (mt (length_encode_le_iff hk n).mp hwide))

/-- **Integers and minimal strings are in bijection.** What is written for an integer is minimal,
it has at most `k` bytes if and only if the magnitude is below the weight of the sign bit there,
and reading it under that bound gives the integer back, or an overflow. Whatever is read under the
rule of minimality is written again as it was; a string is refused for its length if it is too
long, and for its form if it is written for no integer. -/
theorem minimal_strings_biject {k : Nat} (hk : 1 ≤ k) :
    (∀ n : Int, isMinimal (encode n) = true ∧
      ((encode n).length ≤ k ↔ n.natAbs < 2 ^ (8 * k - 1)) ∧
      ∀ requireMinimal : Bool, decode requireMinimal k (encode n) =
        if n.natAbs < 2 ^ (8 * k - 1) then .ok n else .error .overflow) ∧
    (∀ (b : Bytes) (n : Int), decode true k b = .ok n → encode n = b) ∧
    ∀ b : Bytes,
      (decode true k b = .error .overflow ↔ k < b.length) ∧
      (decode true k b = .error .notMinimal ↔ b.length ≤ k ∧ ¬ ∃ n : Int, encode n = b) := by
  refine ⟨?_, ?_, ?_⟩
  · intro n
    exact ⟨isMinimal_encode n, length_encode_le_iff hk n, fun _ => decode_encode _ hk n⟩
  · intro b n h
    obtain ⟨-, hminimal, rfl⟩ := decode_eq_ok_iff.mp h
    exact encode_value (hminimal rfl)
  · intro b
    rw [← isMinimal_iff_exists_encode]
    exact ⟨decode_eq_overflow_iff, decode_eq_notMinimal_iff⟩

/-- The borders of two bytes: the last number that fits, the first that does not, and a string that
is written for no number since its last byte is a sign that would have had room below. -/
theorem minimal_strings_biject_two_bytes :
    encode (-32767) = [0xff, 0xff] ∧ decode false 2 (encode 32768) = .error .overflow ∧
      ¬ ∃ n : Int, encode n = [0x7f, 0x80] := by
  obtain ⟨hwritten, hread, hrefused⟩ := minimal_strings_biject (k := 2) (by decide)
  refine ⟨hread _ _ rfl, ?_, ((hrefused [0x7f, 0x80]).2.mp rfl).2⟩
  rw [(hwritten 32768).2.2 false]
  rfl

/-! ## Dropping what is redundant -/

/-- A byte without magnitude is a sign. -/
theorem and_magnitude_eq_zero_iff (b : UInt8) : b &&& 0x7f = 0 ↔ b = 0 ∨ b = 0x80 :=
  forall_byte (P := fun b => b &&& 0x7f = 0 ↔ b = 0 ∨ b = 0x80) (by decide +kernel) b

theorem sign_of_not_isMinimal {front : Bytes} {top : UInt8}
    (h : ¬ isMinimal (front ++ [top]) = true) : top = 0 ∨ top = 0x80 := by
  apply (and_magnitude_eq_zero_iff top).mp
  apply Decidable.not_not.mp
  intro hmagnitude
  exact h (isMinimal_of_magnitude hmagnitude front)

/-- A sign is added to a byte that has none. -/
theorem or_sign {sign next : UInt8} (hsign : sign = 0 ∨ sign = 0x80) (hnext : next &&& 0x80 = 0) :
    (next ||| sign) &&& 0x7f = next ∧ ((next ||| sign) &&& 0x80 = 0 ↔ sign = 0) := by
  rcases hsign with rfl | rfl
  · rw [UInt8.or_zero]
    exact ⟨and_eq_self_of_no_sign hnext, ⟨fun _ => rfl, fun _ => hnext⟩⟩
  · exact forall_byte (P := fun b => b &&& 0x80 = 0 →
      (b ||| 0x80) &&& 0x7f = b ∧ ((b ||| 0x80) &&& 0x80 = 0 ↔ (0x80 : UInt8) = 0))
      (by decide +kernel) next hnext

/-- The number of a string to whose last byte a sign is added. -/
theorem value_concat_or {sign next : UInt8} (hsign : sign = 0 ∨ sign = 0x80)
    (hnext : next &&& 0x80 = 0) (front : Bytes) :
    value (front ++ [next ||| sign]) =
      if sign = 0 then (Bytes.leValue (front ++ [next]) : Int)
      else -(Bytes.leValue (front ++ [next]) : Int) := by
  obtain ⟨hmagnitude, hset⟩ := or_sign hsign hnext
  simp only [value_concat, hmagnitude, hset]

/-- The number of a string whose last byte is a sign. -/
theorem value_concat_sign {sign : UInt8} (hsign : sign = 0 ∨ sign = 0x80) (front : Bytes) :
    value (front ++ [sign]) =
      if sign = 0 then (Bytes.leValue front : Int) else -(Bytes.leValue front : Int) := by
  have hzero : Bytes.leValue (front ++ [0]) = Bytes.leValue front := by
    simp [Bytes.leValue_concat]
  rw [← hzero, ← value_concat_or hsign (by decide) front, UInt8.zero_or]

theorem leValue_reverse_dropWhile (b : Bytes) :
    Bytes.leValue (b.reverse.dropWhile (· == 0)).reverse = Bytes.leValue b := by
  have hcut : (b.reverse.dropWhile (· == 0)).reverse ++ (b.reverse.takeWhile (· == 0)).reverse =
      b := by
    rw [← List.reverse_append, List.takeWhile_append_dropWhile, List.reverse_reverse]
  conv => rhs; rw [← hcut]
  refine (Bytes.leValue_append_zeros ?_).symm
  intro x hx
  simpa using List.all_eq_true.mp List.all_takeWhile x (List.mem_reverse.mp hx)

/-- What is left of a string whose last byte is redundant: the bytes below it without the zero bytes
at their end, with the sign put onto them or behind them. -/
theorem minimize_concat {below : Bytes} {top : UInt8}
    (h : ¬ isMinimal (below ++ [top]) = true) :
    minimize (below ++ [top]) =
      match below.reverse.dropWhile (· == 0) with
      | [] => []
      | next :: rest =>
          if next &&& 0x80 = 0 then rest.reverse ++ [next ||| top]
          else rest.reverse ++ [next] ++ [top] := by
  have hreverse : (below ++ [top]).reverse = top :: below.reverse := by simp
  have hsame : top &&& 0x80 = top := by
    rcases sign_of_not_isMinimal h with rfl | rfl <;> rfl
  rw [minimize, if_neg h, hreverse]
  dsimp only
  rw [hsame]
  cases below.reverse.dropWhile (· == 0) with
  | nil => rfl
  | cons next rest =>
      by_cases hbit : next &&& 0x80 = 0
      · simp [hbit]
      · simp [hbit]

/-- Dropping redundant bytes keeps the number and leaves a minimal string. -/
theorem minimize_keeps (b : Bytes) :
    value (minimize b) = value b ∧ isMinimal (minimize b) = true := by
  by_cases hminimal : isMinimal b = true
  · rw [minimize, if_pos hminimal]
    exact ⟨rfl, hminimal⟩
  rcases List.eq_nil_or_concat b with rfl | ⟨below, top, rfl⟩
  · exact absurd rfl hminimal
  rw [List.concat_eq_append] at hminimal ⊢
  have hsign := sign_of_not_isMinimal hminimal
  rw [value_concat_sign hsign, ← leValue_reverse_dropWhile below, minimize_concat hminimal]
  cases hkept : below.reverse.dropWhile (· == 0) with
  | nil => exact ⟨(ite_self _).symm, rfl⟩
  | cons next rest =>
      have hne : next ≠ 0 := by
        have hhead := List.head?_dropWhile_not (· == (0 : UInt8)) below.reverse
        rw [hkept] at hhead
        simpa using hhead
      dsimp only
      rw [List.reverse_cons]
      by_cases hbit : next &&& 0x80 = 0
      · have hmagnitude : ¬ (next ||| top) &&& 0x7f = 0 := by
          rw [(or_sign hsign hbit).1]
          exact hne
        rw [if_pos hbit]
        exact ⟨value_concat_or hsign hbit _, isMinimal_of_magnitude hmagnitude _⟩
      · rw [if_neg hbit]
        exact ⟨value_concat_sign hsign _, isMinimal_of_used_bit hbit _ _⟩

theorem minimize_eq_encode (b : Bytes) : minimize b = encode (value b) := by
  obtain ⟨hvalue, hminimal⟩ := minimize_keeps b
  rw [← hvalue, encode_value hminimal]

theorem minimize_eq_self_iff (b : Bytes) : minimize b = b ↔ isMinimal b = true := by
  constructor
  · intro h
    rw [← h]
    exact (minimize_keeps b).2
  · intro h
    rw [minimize, if_pos h]

/-- No string is shorter than the minimal one of its number. -/
theorem length_encode_value_le (b : Bytes) : (encode (value b)).length ≤ b.length := by
  rw [length_encode]
  cases b with
  | nil => exact Nat.le_refl 0
  | cons x rest => exact (width_le_iff (Nat.succ_pos _)).mpr (natAbs_value_lt (x :: rest))

theorem length_minimize_le (b : Bytes) : (minimize b).length ≤ b.length := by
  rw [minimize_eq_encode]
  exact length_encode_value_le b

theorem encode_eq_nil_iff (n : Int) : encode n = [] ↔ n = 0 := by
  constructor
  · intro h
    rw [← value_encode n, h]
    rfl
  · rintro rfl
    rfl

/-- Zero has zero bytes only, a sign in the last one apart. -/
theorem value_concat_eq_zero_iff (front : Bytes) (top : UInt8) :
    value (front ++ [top]) = 0 ↔ (∀ x ∈ front, x = 0) ∧ (top = 0 ∨ top = 0x80) := by
  have hpos := Bytes.span_pos front.length
  rw [← Int.natAbs_eq_zero, natAbs_value_concat, Nat.add_eq_zero_iff, Nat.mul_eq_zero,
    Bytes.leValue_eq_zero_iff, ← and_magnitude_eq_zero_iff, Bytes.toNat_eq_zero_iff]
  simp only [Nat.pos_iff_ne_zero.mp hpos, false_or]

/-- A string counts as true if its number is not zero. -/
theorem isTrue_iff (b : Bytes) : isTrue b = true ↔ value b ≠ 0 := by
  rcases List.eq_nil_or_concat b with rfl | ⟨front, top, rfl⟩
  · decide
  rw [List.concat_eq_append]
  have hfalse : ¬ isTrue (front ++ [top]) = true ↔
      (∀ x ∈ front, x = 0) ∧ (top = 0 ∨ top = 0x80) := by
    simp [isTrue, Classical.or_iff_not_imp_left]
  rw [Ne, value_concat_eq_zero_iff, ← hfalse, Decidable.not_not]

/-- **The byte strings follow the numbers.** For every string, with `v` the number it stands for:
dropping its redundant bytes gives what is written for `v`, and no shorter string stands for `v`; it
is minimal if and only if nothing is dropped; and it counts as true if and only if `v` is not zero,
that is, if a byte is left. Packed strings of the same bytes are treated alike. -/
theorem byte_views_agree (b : Bytes) :
    ∃ v : Int, decode false b.length b = .ok v ∧ minimize b = encode v ∧
      (∀ (requireMinimal : Bool) (maxSize : Nat) (c : Bytes),
        decode requireMinimal maxSize c = .ok v → (minimize b).length ≤ c.length) ∧
      (isMinimal b = true ↔ minimize b = b) ∧
      (isTrue b = true ↔ v ≠ 0) ∧ (v ≠ 0 ↔ minimize b ≠ []) ∧
      ∀ p : Packed, p.bytes = b →
        p.isMinimal = isMinimal b ∧ p.minimize.bytes = minimize b ∧ p.isTrue = isTrue b := by
  refine ⟨value b, ?_, minimize_eq_encode b, ?_, (minimize_eq_self_iff b).symm, isTrue_iff b, ?_,
    ?_⟩
  · exact decode_eq_ok_iff.mpr ⟨Nat.le_refl _, nofun, rfl⟩
  · intro requireMinimal maxSize c h
    have hvalue := (decode_eq_ok_iff.mp h).2.2
    rw [minimize_eq_encode, ← hvalue]
    exact length_encode_value_le c
  · rw [minimize_eq_encode]
    exact not_congr (encode_eq_nil_iff _).symm
  · rintro p rfl
    exact ⟨p.isMinimal_eq, p.bytes_minimize, p.isTrue_eq⟩

/-- A run of zero bytes between the sign and a byte that uses its highest bit: the sign keeps a byte
of its own, and two bytes are the fewest there can be. -/
theorem byte_views_agree_padded :
    decode false 4 [0x80, 0x00, 0x00, 0x80] = .ok (-128) ∧
      decode true 2 [0x80, 0x80] = .ok (-128) ∧
      (minimize [0x80, 0x00, 0x00, 0x80]).length ≤ 2 := by
  have hread : decode false 4 [0x80, 0x00, 0x00, 0x80] = .ok (-128) := rfl
  obtain ⟨v, hv, -, hshortest, -⟩ := byte_views_agree [0x80, 0x00, 0x00, 0x80]
  obtain rfl : v = -128 := Except.ok.inj (hv.symm.trans hread)
  exact ⟨hread, rfl, hshortest true 2 [0x80, 0x80] rfl⟩

end Number

end BitcoinScript
