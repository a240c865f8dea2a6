import BitcoinScript.Number

/-!
# Packed byte strings

Stack items can be many million bytes long, so they hold their bytes packed. The bytes of a packed
string are read with `Packed.bytes`, and every operation here is a byte-string operation seen
through that view: `bytes_append`, `bytes_zeros`, `isTrue_eq`, `bytes_minimize`.
-/

namespace BitcoinScript

/-- A packed byte string. -/
abbrev Packed := ByteArray

/-- Packed strings are compared as they are. -/
instance : DecidableEq Packed := ByteArray.decEq

namespace Packed

/-- The bytes of a packed string. -/
def bytes (p : Packed) : Bytes := p.data.toList

/-- Packs a byte string. -/
def ofBytes (b : Bytes) : Packed := b.toByteArray

@[simp] theorem bytes_ofBytes (b : Bytes) : bytes (ofBytes b) = b := by
  simp [bytes, ofBytes]

@[simp] theorem length_bytes (p : Packed) : (bytes p).length = p.size := by
  simp [bytes]

@[simp] theorem size_ofBytes (b : Bytes) : (ofBytes b).size = b.length := by
  simp [ofBytes]

theorem bytes_injective {p q : Packed} (h : bytes p = bytes q) : p = q :=
  ByteArray.ext (Array.ext' h)

@[simp] theorem ofBytes_bytes (p : Packed) : ofBytes (bytes p) = p :=
  bytes_injective (bytes_ofBytes _)

@[simp] theorem bytes_append (p q : Packed) : bytes (p ++ q) = bytes p ++ bytes q := by
  simp [bytes]

@[simp] theorem bytes_push (p : Packed) (b : UInt8) : bytes (p.push b) = bytes p ++ [b] := by
  simp [bytes, ByteArray.data_push]

@[simp] theorem bytes_extract (p : Packed) (start stop : Nat) :
    bytes (p.extract start stop) = (bytes p).extract start stop := by
  simp [bytes]

/-! ## Zero bytes -/

/-- A string of zero bytes, made by doubling. -/
def zeros (n : Nat) : Packed :=
  if n = 0 then .empty
  else
    let half := zeros (n / 2)
    let even := half ++ half
    if n % 2 = 0 then even else even.push 0

@[simp] theorem bytes_zeros (n : Nat) : bytes (zeros n) = List.replicate n 0 := by
  fun_induction zeros n with
  | case1 => rfl
  | case2 n _ half even heven ih =>
      have hn : n / 2 + n / 2 = n := by omega
      simp only [even, bytes_append, half, ih, List.replicate_append_replicate, hn]
  | case3 n _ half even hodd ih =>
      have hn : n / 2 + n / 2 + 1 = n := by omega
      simp only [even, bytes_push, bytes_append, half, ih, List.replicate_append_replicate]
      rw [← List.replicate_succ', hn]

/-! ## Reading from the end -/

/-- The byte at a position, zero past the end. -/
def byteAt (p : Packed) (i : Nat) : UInt8 :=
  if h : i < p.size then p[i] else 0

/-- The length of the first `k` bytes once zero bytes are dropped from their end. -/
def significant (p : Packed) : (k : Nat) → Nat
  | 0 => 0
  | k + 1 => if byteAt p k = 0 then significant p k else k + 1

theorem significant_le (p : Packed) (k : Nat) : significant p k ≤ k := by
  induction k with
  | zero => exact Nat.le_refl _
  | succ k ih =>
      rw [significant]
      split <;> omega

theorem byteAt_eq (p : Packed) {i : Nat} (h : i < p.size) :
    (bytes p)[i]? = some (byteAt p i) := by
  have hb : i < (bytes p).length := by simpa using h
  rw [List.getElem?_eq_getElem hb, byteAt, dif_pos h]
  simp [bytes, ByteArray.getElem_eq_getElem_data]

/-- The dropped bytes are zero bytes. -/
theorem take_eq_significant (p : Packed) {k : Nat} (hk : k ≤ p.size) :
    (bytes p).take k =
      (bytes p).take (significant p k) ++ List.replicate (k - significant p k) 0 := by
  induction k with
  | zero => simp [significant]
  | succ k ih =>
      rw [significant]
      split
      · rename_i hzero
        have hle := significant_le p k
        have hsub : k + 1 - significant p k = (k - significant p k) + 1 := by omega
        rw [List.take_add_one, byteAt_eq p (by omega), hzero, ih (by omega), hsub,
          List.replicate_succ', List.append_assoc]
        rfl
      · simp

/-- The last byte kept is not zero. -/
theorem byteAt_significant_ne (p : Packed) {k : Nat} (h : significant p k ≠ 0) :
    byteAt p (significant p k - 1) ≠ 0 := by
  induction k with
  | zero => exact absurd rfl h
  | succ k ih =>
      rw [significant] at h ⊢
      split
      · rename_i hzero
        rw [if_pos hzero] at h
        exact ih h
      · rename_i hne
        simpa using hne

/-- A packed string without its last byte, and the last byte. -/
theorem bytes_eq_take_append (p : Packed) (h : p.size ≠ 0) :
    bytes p = (bytes p).take (p.size - 1) ++ [byteAt p (p.size - 1)] := by
  have hlen : (bytes p).take (p.size - 1 + 1) = bytes p := by
    apply List.take_of_length_le
    simp only [length_bytes]
    omega
  rw [← hlen, List.take_add_one, byteAt_eq p (by omega)]
  simp

/-- Whether a packed string counts as true. -/
def isTrue (p : Packed) : Bool :=
  if p.size = 0 then false
  else
    let top := byteAt p (p.size - 1)
    significant p (p.size - 1) != 0 || (top != 0 && top != 0x80)

theorem isTrue_eq (p : Packed) : isTrue p = Number.isTrue (bytes p) := by
  unfold isTrue
  split
  · rename_i h
    have : bytes p = [] := List.eq_nil_of_length_eq_zero (by simpa using h)
    simp [this, Number.isTrue]
  · rename_i h
    have hbytes := bytes_eq_take_append p h
    have hany : ((bytes p).take (p.size - 1)).reverse.any (· != 0) =
        (significant p (p.size - 1) != 0) := by
      rw [List.any_reverse, take_eq_significant p (by omega), List.any_append]
      have hrep : (List.replicate (p.size - 1 - significant p (p.size - 1)) (0 : UInt8)).any
          (· != 0) = false := by
        simp
      rw [hrep, Bool.or_false]
      by_cases hs : significant p (p.size - 1) = 0
      · simp [hs]
      · have hle := significant_le p (p.size - 1)
        have hget := byteAt_eq p (i := significant p (p.size - 1) - 1) (by omega)
        have hmem : byteAt p (significant p (p.size - 1) - 1) ∈
            (bytes p).take (significant p (p.size - 1)) := by
          apply List.mem_of_getElem? (i := significant p (p.size - 1) - 1)
          rw [List.getElem?_take_of_lt (by omega), hget]
        have htrue : ((bytes p).take (significant p (p.size - 1))).any (· != 0) = true :=
          List.any_eq_true.mpr ⟨_, hmem, by simpa using byteAt_significant_ne p hs⟩
        rw [htrue]
        simp [hs]
    rw [hbytes, Number.isTrue, List.reverse_append, List.reverse_singleton, List.singleton_append]
    simp only [hany]

/-! ## Redundant bytes of numbers -/

/-- A short string with the same minimal form: if the last byte holds only a sign, all but one of
the zero bytes below it are left out. -/
def condense (p : Packed) : Bytes :=
  let kept := significant p (p.size - 1)
  let top := byteAt p (p.size - 1)
  if top &&& 0x7f = 0 ∧ kept + 1 < p.size then bytes (p.extract 0 kept) ++ [0, top]
  else bytes p

/-- Whether a packed string is the minimal form of a number. -/
def isMinimal (p : Packed) : Bool :=
  p.size == 0 || byteAt p (p.size - 1) &&& 0x7f != 0 ||
    (2 ≤ p.size && byteAt p (p.size - 2) &&& 0x80 != 0)

/-- The minimal form of the number that a packed string stands for. -/
def minimize (p : Packed) : Packed :=
  if isMinimal p then p else ofBytes (Number.minimize (condense p))

/-- Zero bytes below a byte that holds only a sign do not matter for the minimal form, as long as
one is there. -/
theorem minimize_replicate_zero (front : Bytes) (k : Nat) {top : UInt8} (htop : top &&& 0x7f = 0) :
    Number.minimize (front ++ List.replicate (k + 1) 0 ++ [top]) =
      Number.minimize (front ++ [0, top]) := by
  have hrev : (front ++ List.replicate (k + 1) 0 ++ [top]).reverse =
      top :: 0 :: (List.replicate k 0 ++ front.reverse) := by
    rw [List.reverse_append, List.reverse_append, List.reverse_replicate, List.replicate_succ]
    rfl
  have hrev' : (front ++ [0, top]).reverse = top :: 0 :: front.reverse := by simp
  have hlong : Number.isMinimal (front ++ List.replicate (k + 1) 0 ++ [top]) = false := by
    simp only [Number.isMinimal, hrev, htop]
    rfl
  have hshort : Number.isMinimal (front ++ [0, top]) = false := by
    simp only [Number.isMinimal, hrev', htop]
    rfl
  have hdrop : ((0 : UInt8) :: (List.replicate k 0 ++ front.reverse)).dropWhile (· == 0) =
      ((0 : UInt8) :: front.reverse).dropWhile (· == 0) := by
    simp only [List.dropWhile_cons, beq_self_eq_true, if_true]
    induction k with
    | zero => rfl
    | succ k ih => simp [List.replicate_succ]
  simp only [Number.minimize, hlong, hshort, hrev, hrev', hdrop, Bool.false_eq_true, if_false]

theorem minimize_condense (p : Packed) :
    Number.minimize (condense p) = Number.minimize (bytes p) := by
  unfold condense
  simp only
  split
  · rename_i h
    have hle := significant_le p (p.size - 1)
    obtain ⟨k, hk⟩ : ∃ k, p.size - 1 - significant p (p.size - 1) = k + 1 :=
      ⟨p.size - 1 - significant p (p.size - 1) - 1, by omega⟩
    have htake : bytes (p.extract 0 (significant p (p.size - 1))) =
        (bytes p).take (significant p (p.size - 1)) := by
      simp
    conv => rhs; rw [bytes_eq_take_append p (by omega), take_eq_significant p (by omega), hk]
    rw [minimize_replicate_zero _ _ h.1, htake]
  · rfl

theorem isMinimal_eq (p : Packed) : isMinimal p = Number.isMinimal (bytes p) := by
  by_cases h0 : p.size = 0
  · have : bytes p = [] := List.eq_nil_of_length_eq_zero (by simpa using h0)
    simp [isMinimal, h0, this, Number.isMinimal]
  · have hrev : (bytes p).reverse =
        byteAt p (p.size - 1) :: ((bytes p).take (p.size - 1)).reverse := by
      conv => lhs; rw [bytes_eq_take_append p h0]
      simp
    by_cases h1 : p.size = 1
    · simp [isMinimal, Number.isMinimal, hrev, h1]
    · have htake : (bytes p).take (p.size - 1) =
          (bytes p).take (p.size - 2) ++ [byteAt p (p.size - 2)] := by
        have hstep : p.size - 1 = (p.size - 2) + 1 := by omega
        rw [hstep, List.take_add_one, byteAt_eq p (by omega)]
        rfl
      have h2 : 2 ≤ p.size := by omega
      have hsize : (p.size == 0) = false := by simpa using h0
      rw [htake, List.reverse_append, List.reverse_singleton, List.singleton_append] at hrev
      simp [isMinimal, Number.isMinimal, hrev, hsize, h2]

@[simp] theorem bytes_minimize (p : Packed) : bytes (minimize p) = Number.minimize (bytes p) := by
  unfold minimize
  split
  · rename_i h
    rw [isMinimal_eq] at h
    rw [Number.minimize, if_pos h]
  · rw [bytes_ofBytes, minimize_condense]

end Packed

end BitcoinScript
