import BitcoinScript.Machine.Arithmetic

/-!
# The width of numbers

A number fits a string of `k` bytes if its magnitude is below the weight of the sign bit there
(`Number.width_le_iff`), and what is read from a string of `k` bytes is below it
(`Number.natAbs_value_lt`). Arithmetic on two numbers of `k` bytes therefore stays within `2 * k`
bytes (`BinaryOp.width_eval_le`).
-/

namespace BitcoinScript

namespace Number

theorem signWeight_succ (k : Nat) : signWeight (k + 1) = 1 <<< (8 * k + 7) := rfl

theorem span_eq_two_mul_signWeight (k : Nat) : Bytes.span (k + 1) = 2 * signWeight (k + 1) := by
  have hexp : 8 * (k + 1) = (8 * k + 7) + 1 := by omega
  rw [Bytes.span, signWeight_succ, hexp, Nat.shiftLeft_add, Nat.shiftLeft_eq _ 1, Nat.mul_comm]

theorem signWeight_mono {j k : Nat} (h : j ≤ k) : signWeight j ≤ signWeight k := by
  unfold signWeight
  rw [Nat.one_shiftLeft, Nat.one_shiftLeft]
  exact Nat.pow_le_pow_right (by omega) (by omega)

theorem lt_signWeight {k : Nat} (hk : 0 < k) : k < signWeight k := by
  unfold signWeight
  rw [Nat.one_shiftLeft]
  calc k < 2 ^ k := Nat.lt_two_pow_self
    _ ≤ 2 ^ (8 * k - 1) := Nat.pow_le_pow_right (by omega) (by omega)

/-- Twice the bytes hold the square twice. -/
theorem signWeight_two_mul {k : Nat} (hk : 0 < k) :
    signWeight (2 * k) = 2 * (signWeight k * signWeight k) := by
  have hexp : 8 * (2 * k) - 1 = 1 + ((8 * k - 1) + (8 * k - 1)) := by omega
  unfold signWeight
  rw [hexp, Nat.one_shiftLeft, Nat.one_shiftLeft, Nat.pow_add, Nat.pow_add, Nat.pow_one]

/-- What is read from a string is below the weight of its sign bit. -/
theorem natAbs_value_lt (b : Bytes) : (value b).natAbs < signWeight b.length := by
  rw [value_def]
  cases b with
  | nil => decide
  | cons x rest =>
      have hlt := Bytes.leValue_lt (x :: rest)
      rw [List.length_cons, span_eq_two_mul_signWeight] at hlt
      rw [List.length_cons]
      generalize signWeight (rest.length + 1) = weight at hlt ⊢
      generalize Bytes.leValue (x :: rest) = m at hlt ⊢
      split
      · rename_i hsmall
        omega
      · rename_i hbig
        omega

/-- The numbers that fit a string of `k` bytes. -/
theorem width_le_iff {m k : Nat} (hk : 0 < k) : width m ≤ k ↔ m < signWeight k := by
  unfold width signWeight
  rw [Nat.one_shiftLeft]
  split
  · rename_i hzero
    have hpos : 0 < 2 ^ (8 * k - 1) := Nat.two_pow_pos _
    omega
  · rename_i hm
    rw [← Nat.log2_lt hm]
    omega

/-- A number read under a size bound is below the weight of the sign bit there. -/
theorem natAbs_lt_of_decode {requireMinimal : Bool} {maxSize : Nat} {b : Bytes} {n : Int}
    (h : decode requireMinimal maxSize b = .ok n) : n.natAbs < signWeight maxSize := by
  unfold decode at h
  split at h
  · cases h
  · rename_i hsize
    split at h
    · cases h
    · cases h
      exact Nat.lt_of_lt_of_le (natAbs_value_lt b) (signWeight_mono (by omega))

end Number

open Number

theorem UnaryOp.natAbs_eval_le (op : UnaryOp) (a : Int) : (op.eval a).natAbs ≤ a.natAbs + 1 := by
  cases op with
  | increment => simp only [eval]; omega
  | decrement => simp only [eval]; omega
  | negate => simp only [eval]; omega
  | absolute => simp only [eval]; omega
  | isZero => simp only [eval]; split <;> simp
  | isNonZero => simp only [eval]; split <;> simp

theorem BinaryOp.natAbs_eval_lt {op : BinaryOp} {a b n : Int} {j k : Nat} (ha : a.natAbs < j)
    (hb : b.natAbs < k) (h : op.eval a b = .ok (.int n)) : n.natAbs < 2 * (j * k) := by
  have hj : j ≤ j * k := Nat.le_mul_of_pos_right j (by omega)
  have hk : k ≤ j * k := Nat.le_mul_of_pos_left k (by omega)
  cases op with
  | add => cases h; omega
  | sub => cases h; omega
  | mul =>
      cases h
      have hmul : a.natAbs * b.natAbs < j * k := Nat.mul_lt_mul'' ha hb
      rw [Int.natAbs_mul]
      omega
  | div =>
      simp only [eval] at h
      split at h
      · cases h
      · cases h
        have hle := Int.natAbs_tdiv_le_natAbs a b
        omega
  | mod =>
      simp only [eval] at h
      split at h
      · cases h
      · cases h
        have hle := Nat.mod_le a.natAbs b.natAbs
        rw [Int.natAbs_tmod]
        omega
  | both => cases h
  | either => cases h
  | equal => cases h
  | different => cases h
  | less => cases h
  | greater => cases h
  | lessOrEqual => cases h
  | greaterOrEqual => cases h
  | min => cases h; split <;> omega
  | max => cases h; split <;> omega

theorem UnaryOp.width_eval_le {op : UnaryOp} {a : Int} {k : Nat} (hk : 0 < k)
    (ha : a.natAbs < signWeight k) : width (op.eval a).natAbs ≤ 2 * k := by
  have hle := op.natAbs_eval_le a
  have hsquare : signWeight k ≤ signWeight k * signWeight k := Nat.le_mul_self _
  rw [width_le_iff (by omega), signWeight_two_mul hk]
  omega

theorem BinaryOp.width_eval_le {op : BinaryOp} {a b n : Int} {k : Nat} (hk : 0 < k)
    (ha : a.natAbs < signWeight k) (hb : b.natAbs < signWeight k)
    (h : op.eval a b = .ok (.int n)) : width n.natAbs ≤ 2 * k := by
  rw [width_le_iff (by omega), signWeight_two_mul hk]
  exact natAbs_eval_lt ha hb h

end BitcoinScript
