import BitcoinScript.Machine.Splice
import BitcoinScript.Proofs.Guarded.Word
import BitcoinScript.Proofs.Number.Minimal

/-!
# Guarded numbers

Numbers are read from a vector of bytes and written to one by looking at its last bytes: the sign is
taken off the last byte, or put onto it, or into a byte behind it. The positions are computed from
the length, so that an empty vector would be read in front of its start. Every function here has the
answer of the one on byte strings (`decode_eq`, `encode_eq`, `minimize_eq`, `widen_eq`).
-/

namespace BitcoinScript

namespace Guarded

open Checked

/-! ## Reading -/

/-- Whether no shorter vector stands for the same number. -/
def isMinimal (b : Bytes) : Option Bool :=
  match b.getLast? with
  | none => some true
  | some last =>
      if last &&& 0x7f = 0 then
        if b.length ≤ 1 then some false
        else do
          let next ← index b (← sub b.length 2)
          return next &&& 0x80 != 0
      else some true

/-- The number that a vector stands for which is not empty. -/
def value (b : Bytes) : Option Int := do
  let last ← sub b.length 1
  let top ← index b last
  let magnitude ← update b last (· &&& 0x7f)
  return if top &&& 0x80 = 0 then Bytes.leValue magnitude else -(Bytes.leValue magnitude : Int)

/-- The number that a vector of bounded length stands for. -/
def decode (requireMinimal : Bool) (maxSize : Nat) (b : Bytes) : Checked Number.Error Int :=
  if b.length > maxSize then .failed .overflow
  else if b = [] then .done 0
  else if requireMinimal then do
    if ← isMinimal b then
      let n ← value b
      return n
    else .failed .notMinimal
  else do
    let n ← value b
    return n

theorem isMinimal_eq (b : Bytes) : isMinimal b = some (Number.isMinimal b) := by
  rcases List.eq_nil_or_concat b with rfl | ⟨front, top, rfl⟩
  · rfl
  rw [List.concat_eq_append]
  unfold isMinimal
  rw [List.getLast?_concat]
  dsimp only
  rcases List.eq_nil_or_concat front with rfl | ⟨front, next, rfl⟩
  · by_cases htop : top &&& 0x7f = 0
    · rw [if_pos htop]
      simp [Number.isMinimal, htop]
    · rw [if_neg htop]
      simp [Number.isMinimal, htop]
  · rw [List.concat_eq_append]
    by_cases htop : top &&& 0x7f = 0
    · have hsub : sub (front ++ [next] ++ [top]).length 2 = some front.length := by simp [sub]
      have hnext : index (front ++ [next] ++ [top]) front.length = some next := by simp [index]
      rw [if_pos htop, if_neg (by simp), bind_of_some hsub, bind_of_some hnext]
      simp [Number.isMinimal, htop]
    · rw [if_neg htop]
      simp [Number.isMinimal, htop]

theorem value_eq {b : Bytes} (hb : b ≠ []) : value b = some (Number.value b) := by
  rcases List.eq_nil_or_concat b with rfl | ⟨front, top, rfl⟩
  · exact absurd rfl hb
  rw [List.concat_eq_append]
  have hlast : sub (front ++ [top]).length 1 = some front.length := sub_length_append front [top]
  unfold value
  rw [bind_of_some hlast, bind_of_some (index_append_cons _ _ _),
    bind_of_some (update_append_cons _ _ _ _), Option.pure_def, Number.value_concat]

theorem decode_eq (requireMinimal : Bool) (maxSize : Nat) (b : Bytes) :
    decode requireMinimal maxSize b = answer (Number.decode requireMinimal maxSize b) := by
  unfold decode Number.decode
  by_cases hlong : b.length > maxSize
  · simp only [hlong, if_true, answer_error]
  simp only [hlong, if_false]
  by_cases hempty : b = []
  · rw [hempty]
    cases requireMinimal <;> rfl
  rw [if_neg hempty, value_eq hempty, isMinimal_eq]
  cases requireMinimal with
  | false => rfl
  | true => cases Number.isMinimal b <;> rfl

/-! ## Writing -/

/-- The bytes of a magnitude, as few as there can be. -/
def magnitudeBytes (n : Nat) : Bytes := Bytes.le (n.log2 / 8 + 1) n

/-- The minimal vector of a number. -/
def encode (n : Int) : Option Bytes :=
  if n = 0 then some []
  else do
    let bytes := magnitudeBytes n.natAbs
    let last ← sub bytes.length 1
    let top ← index bytes last
    if top &&& 0x80 ≠ 0 then return bytes ++ [if n < 0 then 0x80 else 0x00]
    else if n < 0 then update bytes last (· ||| 0x80)
    else return bytes

theorem le_succ_eq (k n : Nat) :
    Bytes.le (k + 1) n = Bytes.le k n ++ [UInt8.ofNat (n / Bytes.span k)] := by
  rw [Bytes.le_add]
  rfl

theorem le_add_span_mul (k m n : Nat) : Bytes.le k (n + Bytes.span k * m) = Bytes.le k n := by
  rw [← Bytes.le_mod, Nat.add_mul_mod_self_left, Bytes.le_mod]

/-- The last byte of a magnitude has the place of the sign in use exactly if the number needs one
byte more. -/
theorem width_eq {m : Nat} (hm : m ≠ 0) :
    m / Bytes.span (m.log2 / 8) < 256 ∧
      Number.width m =
        if m / Bytes.span (m.log2 / 8) < 128 then m.log2 / 8 + 1 else m.log2 / 8 + 2 := by
  have hpos := Bytes.span_pos (m.log2 / 8)
  have hlt : m < Bytes.span (m.log2 / 8 + 1) := by
    rw [Bytes.span, Nat.one_shiftLeft, ← Nat.log2_lt hm]
    omega
  rw [Bytes.span_succ] at hlt
  refine ⟨(Nat.div_lt_iff_lt_mul hpos).mpr hlt, ?_⟩
  have hwidth : Number.width m = (m.log2 + 1) / 8 + 1 := if_neg hm
  have hiff : Number.width m ≤ m.log2 / 8 + 1 ↔ m / Bytes.span (m.log2 / 8) < 128 := by
    rw [Number.width_le_iff (by omega), Number.signWeight_succ_eq, Nat.div_lt_iff_lt_mul hpos,
      Nat.mul_comm]
  split
  · rename_i hsmall
    have hle := hiff.mpr hsmall
    omega
  · rename_i hbig
    have hnot := mt hiff.mp hbig
    omega

theorem ofNat_or_sign {n : Nat} (h : n < 128) : UInt8.ofNat n ||| 0x80 = UInt8.ofNat (n + 128) := by
  have hall : ∀ n : Fin 128, UInt8.ofNat n ||| 0x80 = UInt8.ofNat (n + 128) := by decide +kernel
  exact hall ⟨n, h⟩

theorem ofNat_and_sign {n : Nat} (h : n < 256) : UInt8.ofNat n &&& 0x80 = 0 ↔ n < 128 := by
  rw [and_sign_eq_zero_iff, UInt8.lt_iff_toNat_lt, UInt8.toNat_ofNat', Nat.mod_eq_of_lt h]
  rfl

theorem encode_eq (n : Int) : encode n = some (Number.encode n) := by
  by_cases hzero : n = 0
  · rw [hzero]
    rfl
  rw [encode, if_neg hzero, Number.encode_def]
  have hm : n.natAbs ≠ 0 := by omega
  obtain ⟨htop, hwidth⟩ := width_eq hm
  rw [hwidth]
  generalize n.natAbs = m at hm htop hwidth ⊢
  have hbytes : magnitudeBytes m =
      Bytes.le (m.log2 / 8) m ++ [UInt8.ofNat (m / Bytes.span (m.log2 / 8))] := le_succ_eq _ m
  generalize m.log2 / 8 = k at htop hwidth hbytes ⊢
  have hlast : sub (magnitudeBytes m).length 1 = some (Bytes.le k m).length := by
    rw [hbytes]
    exact sub_length_append _ [_]
  dsimp only
  rw [bind_of_some hlast, hbytes, bind_of_some (index_append_cons _ _ _)]
  by_cases hsmall : m / Bytes.span k < 128
  · -- the sign has room in the last byte
    rw [if_neg (not_not_intro ((ofNat_and_sign htop).mpr hsmall)), if_pos hsmall, le_succ_eq]
    by_cases hneg : n < 0
    · rw [if_pos hneg, if_pos hneg, update_append_cons, ofNat_or_sign hsmall,
        Number.signWeight_succ_eq, le_add_span_mul, Nat.add_mul_div_left _ _ (Bytes.span_pos k)]
    · rw [if_neg hneg, if_neg hneg]
      rfl
  · -- the sign needs a byte behind it
    have hdiv : m / Bytes.span (k + 1) = 0 := by
      rw [Bytes.span_succ, Nat.mul_comm, ← Nat.div_div_eq_div_mul]
      exact Nat.div_eq_of_lt htop
    rw [if_pos (mt (ofNat_and_sign htop).mp hsmall), if_neg hsmall, ← le_succ_eq,
      le_succ_eq (k + 1)]
    by_cases hneg : n < 0
    · rw [if_pos hneg, if_pos hneg, Number.signWeight_succ_eq, le_add_span_mul,
        Nat.add_mul_div_left _ _ (Bytes.span_pos (k + 1)), hdiv]
      rfl
    · simp only [hneg, if_false, Nat.add_zero, hdiv]
      rfl

/-! ## Resizing -/

/-- The index of the last element with a property. -/
def lastIndex? {α : Type} (p : α → Bool) : List α → Option Nat
  | [] => none
  | x :: rest =>
      match lastIndex? p rest with
      | some i => some (i + 1)
      | none => if p x then some 0 else none

/-- The minimal vector for the number that a vector stands for. -/
def minimize (b : Bytes) : Option Bytes :=
  match b.getLast? with
  | none => some []
  | some last => do
      if ← isMinimal b then return b
      else
        let sign := last &&& 0x80
        let below ← sliceTo b (← sub b.length 1)
        match lastIndex? (· != 0) below with
        | none => return []
        | some i =>
            let kept ← sliceTo b (← add i 1)
            let top ← index kept i
            if top &&& 0x80 ≠ 0 then return kept ++ [sign]
            else update kept i (· ||| sign)

/-- A number widened to `size` bytes, its sign moved to the new last one. -/
def widen (size : Nat) (raw : Bytes) : Option Bytes := do
  let length ← sub size 1
  let sign := match raw.getLast? with
    | some last => last &&& 0x80
    | none => 0x00
  let magnitude := match raw.getLast? with
    | some last => raw.dropLast ++ [last &&& 0x7f]
    | none => []
  return magnitude.take length ++ List.replicate (length - magnitude.length) 0 ++ [sign]

section LastIndex

variable {α : Type} {p : α → Bool} {v : List α}

theorem dropWhile_of_lastIndex?_none (h : lastIndex? p v = none) :
    v.reverse.dropWhile (fun x => !p x) = [] := by
  induction v with
  | nil => rfl
  | cons x rest ih =>
      simp only [lastIndex?] at h
      split at h
      · cases h
      · rename_i hrest
        split at h
        · cases h
        · rename_i hx
          rw [List.reverse_cons, List.dropWhile_append, ih hrest]
          simp [hx]

/-- What is left once the elements behind the index are dropped. -/
theorem dropWhile_of_lastIndex?_some {i : Nat} (h : lastIndex? p v = some i) :
    ∃ front x back, v = front ++ x :: back ∧ i = front.length ∧
      v.reverse.dropWhile (fun x => !p x) = x :: front.reverse := by
  induction v generalizing i with
  | nil => cases h
  | cons y rest ih =>
      simp only [lastIndex?] at h
      split at h
      · rename_i j hj
        cases h
        obtain ⟨front, x, back, rfl, rfl, hdrop⟩ := ih hj
        refine ⟨y :: front, x, back, rfl, rfl, ?_⟩
        rw [List.reverse_cons, List.dropWhile_append, hdrop]
        simp
      · rename_i hrest
        split at h
        · rename_i hy
          cases h
          refine ⟨[], y, rest, rfl, rfl, ?_⟩
          rw [List.reverse_cons, List.dropWhile_append, dropWhile_of_lastIndex?_none hrest]
          simp [hy]
        · cases h

end LastIndex

theorem minimize_eq {b : Bytes} (hb : b.length < wordSpan) :
    minimize b = some (Number.minimize b) := by
  rcases List.eq_nil_or_concat b with rfl | ⟨below, top, rfl⟩
  · rfl
  rw [List.concat_eq_append] at hb ⊢
  unfold minimize Number.minimize
  rw [List.getLast?_concat, isMinimal_eq]
  cases Number.isMinimal (below ++ [top]) with
  | true => rfl
  | false =>
      have hsub : sub (below ++ [top]).length 1 = some below.length := sub_length_append below [top]
      have hbelow := sliceTo_append below [top]
      have hreverse : (below ++ [top]).reverse = top :: below.reverse := by simp
      have hzero : (fun x : UInt8 => x == 0) = fun x => !(x != 0) := by
        funext x
        exact (Bool.not_not _).symm
      simp only [Option.bind_eq_bind, Option.bind_some, Bool.false_eq_true, if_false, hsub, hbelow,
        hreverse, hzero]
      cases hindex : lastIndex? (· != 0) below with
      | none => rw [dropWhile_of_lastIndex?_none hindex]; rfl
      | some i =>
          obtain ⟨front, x, back, rfl, rfl, hdrop⟩ := dropWhile_of_lastIndex?_some hindex
          have hword : front.length + 1 < wordSpan := by
            simp only [List.length_append, List.length_cons, List.length_nil] at hb
            omega
          have hkept : sliceTo (front ++ x :: back ++ [top]) (front.length + 1) =
              some (front ++ [x]) := by
            have hcut : front ++ x :: back ++ [top] = (front ++ [x]) ++ (back ++ [top]) := by simp
            have hlength : front.length + 1 = (front ++ [x]).length := by simp
            rw [hcut, hlength, sliceTo_append]
          rw [hdrop]
          simp only [Option.bind_some, add_eq hword, hkept,
            index_append_cons, update_append_cons]
          by_cases hsign : x &&& 0x80 = 0
          · simp [hsign]
          · simp [hsign]

theorem widen_eq {size : Nat} {raw : Packed} (h : raw.size < size) :
    widen size raw.bytes = some (Packed.widen size raw).bytes := by
  obtain ⟨length, rfl⟩ : ∃ length, size = length + 1 := ⟨size - 1, by omega⟩
  unfold widen Packed.widen
  rw [bind_of_some (sub_eq (by omega)), Nat.add_sub_cancel]
  by_cases hempty : raw.size = 0
  · have hbytes : raw.bytes = [] := by
      apply List.eq_nil_of_length_eq_zero
      rw [Packed.length_bytes, hempty]
    rw [if_pos hempty, hbytes, Packed.bytes_zeros, List.replicate_succ']
    simp
  · have hbytes := Packed.bytes_eq_take_append raw hempty
    have hfront : ((raw.bytes.take (raw.size - 1)) ++ [raw.byteAt (raw.size - 1) &&& 0x7f]).length =
        raw.size := by
      simp
      omega
    rw [if_neg hempty, hbytes, List.getLast?_concat, List.dropLast_concat]
    dsimp only
    rw [List.take_of_length_le (by omega), hfront]
    simp

end Guarded

end BitcoinScript
