/-!
# Byte strings

Scripts, signatures, keys and transactions are finite byte strings, held as lists of bytes.

* `Bytes.leValue` and `Bytes.beValue` read a byte string as a natural number.
* `Bytes.le w n` writes the `w` low-order bytes of `n`, least significant first;
  `leValue_le` says that reading it gives `n` modulo `span w`, the number of strings of `w` bytes,
  and `le_leValue` that a string is the writing of its own value.
* `Bytes.leValueByHalves` and `Bytes.leByHalves` compute the same by splitting in the middle,
  so that strings of several hundred thousand bytes stay affordable; the equations
  `leValueByHalves_eq` and `leByHalves_eq` let every proof use the plain definitions.
-/

namespace BitcoinScript

/-- A finite byte string. -/
abbrev Bytes := List UInt8

namespace Bytes

/-- The number whose little-endian digits in base 256 are the given bytes. -/
def leValue : Bytes → Nat
  | [] => 0
  | b :: rest => b.toNat + 256 * leValue rest

/-- The number whose big-endian digits in base 256 are the given bytes. -/
def beValue (b : Bytes) : Nat :=
  b.foldl (fun acc x => 256 * acc + x.toNat) 0

/-- The `width` low-order bytes of `n`, least significant first. -/
def le : (width n : Nat) → Bytes
  | 0, _ => []
  | width + 1, n => UInt8.ofNat n :: le width (n / 256)

/-- The `width` low-order bytes of `n`, most significant first. -/
def be (width n : Nat) : Bytes :=
  (le width n).reverse

/-- The number of byte strings of a given length. -/
def span (width : Nat) : Nat :=
  1 <<< (8 * width)

@[simp] theorem span_zero : span 0 = 1 := rfl

theorem span_succ (width : Nat) : span (width + 1) = 256 * span width := by
  rw [span, span, Nat.mul_succ, Nat.shiftLeft_add, Nat.shiftLeft_eq _ 8, Nat.mul_comm]

theorem shiftLeft_eq_span_mul (n width : Nat) : n <<< (8 * width) = span width * n := by
  rw [span, Nat.shiftLeft_eq, Nat.one_shiftLeft, Nat.mul_comm]

theorem shiftRight_eq_div_span (n width : Nat) : n >>> (8 * width) = n / span width := by
  rw [span, Nat.shiftRight_eq_div_pow, Nat.one_shiftLeft]

@[simp] theorem leValue_nil : leValue [] = 0 := rfl

@[simp] theorem leValue_cons (b : UInt8) (rest : Bytes) :
    leValue (b :: rest) = b.toNat + 256 * leValue rest := rfl

@[simp] theorem le_zero (n : Nat) : le 0 n = [] := rfl

theorem le_succ (width n : Nat) :
    le (width + 1) n = UInt8.ofNat n :: le width (n / 256) := rfl

@[simp] theorem length_le (width n : Nat) : (le width n).length = width := by
  induction width generalizing n with
  | zero => rfl
  | succ width ih => simp [le_succ, ih]

@[simp] theorem length_be (width n : Nat) : (be width n).length = width := by
  simp [be]

theorem leValue_lt (b : Bytes) : leValue b < span b.length := by
  induction b with
  | nil => simp
  | cons x rest ih =>
      have hx : x.toNat < 256 := x.toNat_lt
      rw [leValue_cons, List.length_cons, span_succ]
      omega

theorem leValue_append (a b : Bytes) :
    leValue (a ++ b) = leValue a + span a.length * leValue b := by
  induction a with
  | nil => simp
  | cons x rest ih =>
      rw [List.cons_append, leValue_cons, leValue_cons, ih, List.length_cons, span_succ,
        Nat.mul_add, Nat.mul_assoc, Nat.add_assoc]

theorem leValue_le (width n : Nat) : leValue (le width n) = n % span width := by
  induction width generalizing n with
  | zero => simp [Nat.mod_one]
  | succ width ih =>
      rw [le_succ, leValue_cons, ih, span_succ, Nat.mod_mul]
      simp

theorem leValue_le_of_lt {width n : Nat} (h : n < span width) : leValue (le width n) = n := by
  rw [leValue_le, Nat.mod_eq_of_lt h]

theorem le_leValue (b : Bytes) : le b.length (leValue b) = b := by
  induction b with
  | nil => rfl
  | cons x rest ih =>
      have hx : x.toNat < 256 := x.toNat_lt
      have hdiv : (x.toNat + 256 * leValue rest) / 256 = leValue rest := by omega
      have hmod : UInt8.ofNat (x.toNat + 256 * leValue rest) = x := by
        apply UInt8.toNat_inj.mp
        simp
      rw [List.length_cons, le_succ, leValue_cons, hdiv, hmod, ih]

/-- Byte strings of one length are determined by their value. -/
theorem eq_of_leValue_eq {a b : Bytes} (hlen : a.length = b.length)
    (h : leValue a = leValue b) : a = b := by
  rw [← le_leValue a, ← le_leValue b, hlen, h]

theorem le_add (a b n : Nat) : le (a + b) n = le a n ++ le b (n / span a) := by
  induction a generalizing n with
  | zero => simp
  | succ a ih =>
      rw [Nat.succ_add, le_succ, le_succ, ih, List.cons_append, Nat.div_div_eq_div_mul,
        ← span_succ]

theorem le_mod (width n : Nat) : le width (n % span width) = le width n := by
  apply eq_of_leValue_eq
  · simp
  · rw [leValue_le, leValue_le, Nat.mod_mod]

/-! ## Long strings -/

/-- Strings up to this length are converted directly. -/
def directLength : Nat := 64

/-- `leValue`, computed on the two halves of a long string; `depth` bounds the halving. -/
def leValueByHalves : (depth : Nat) → Bytes → Nat
  | 0, b => leValue b
  | depth + 1, b =>
      let half := b.length / 2
      if half < directLength then
        leValue b
      else
        leValueByHalves depth (b.take half) +
          (leValueByHalves depth (b.drop half)) <<< (8 * half)

theorem leValueByHalves_eq (depth : Nat) (b : Bytes) : leValueByHalves depth b = leValue b := by
  induction depth generalizing b with
  | zero => rfl
  | succ depth ih =>
      rw [leValueByHalves]
      split
      · rfl
      · have hsplit := leValue_append (b.take (b.length / 2)) (b.drop (b.length / 2))
        have hlen : (b.take (b.length / 2)).length = b.length / 2 := by
          rw [List.length_take]; omega
        rw [List.take_append_drop, hlen] at hsplit
        rw [ih, ih, hsplit, shiftLeft_eq_span_mul]

/-- `le`, computed on the two halves of a wide result; `depth` bounds the halving. -/
def leByHalves : (depth width n : Nat) → Bytes
  | 0, width, n => le width n
  | depth + 1, width, n =>
      let half := width / 2
      if half < directLength then
        le width n
      else
        leByHalves depth half (n % span half) ++
          leByHalves depth (width - half) (n >>> (8 * half))

theorem leByHalves_eq (depth width n : Nat) : leByHalves depth width n = le width n := by
  induction depth generalizing width n with
  | zero => rfl
  | succ depth ih =>
      rw [leByHalves]
      split
      · rfl
      · have hwidth : width = width / 2 + (width - width / 2) := by omega
        rw [ih, ih, le_mod, shiftRight_eq_div_span, ← le_add, ← hwidth]

end Bytes

end BitcoinScript
