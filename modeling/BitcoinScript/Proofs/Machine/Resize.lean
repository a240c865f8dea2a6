import BitcoinScript.Machine.Step
import BitcoinScript.Proofs.Machine.ItemSize
import BitcoinScript.Proofs.Number.Minimal

/-!
# Numbers of a given size

One operation writes a number with a given number of bytes, another one in its minimal form. A
number is made longer by putting zero bytes below its sign, which moves to the new last byte
(`Packed.widen`); this keeps the number (`Packed.value_widen`). As a length and a number leave only
one string (`Number.eq_of_value_eq`), the two operations undo each other
(`Machine.resizing_inverts`). The exception is zero, of which every length has two strings: the one
with a sign (`Number.IsNegativeZero`) is never written.
-/

namespace BitcoinScript

namespace Number

/-- A string of one length is determined by its number, unless this is zero. -/
theorem eq_of_value_eq {a b : Bytes} (hlength : a.length = b.length) (hvalue : value a = value b)
    (hne : value b ≠ 0) : a = b := by
  apply Bytes.eq_of_leValue_eq hlength
  rw [value_def, value_def, hlength] at hvalue
  rw [value_def] at hne
  generalize signWeight b.length = weight at hvalue hne
  split at hvalue
  · rename_i hsmall
    split at hvalue
    · exact Int.ofNat_inj.mp hvalue
    · rename_i hlarge
      rw [if_neg hlarge] at hne
      omega
  · rename_i hlarge
    split at hvalue
    · rename_i hsmall
      rw [if_pos hsmall] at hne
      omega
    · omega

theorem decode_unbounded (x : Item) : decode false x.size x.bytes = .ok (value x.bytes) := by
  rw [← Item.length_bytes]
  exact decode_eq_ok_iff.mpr ⟨Nat.le_refl _, nofun, rfl⟩

/-- Strings of the same number have the same minimal form. -/
theorem minimize_congr {a b : Bytes} (h : value a = value b) : minimize a = minimize b := by
  rw [minimize_eq_encode, minimize_eq_encode, h]

theorem sign_cases (b : UInt8) : b &&& 0x80 = 0 ∨ b &&& 0x80 = 0x80 :=
  Guarded.forall_byte (P := fun b => b &&& 0x80 = 0 ∨ b &&& 0x80 = 0x80) (by decide +kernel) b

/-- The strings of zero that have a sign. -/
def IsNegativeZero (b : Bytes) : Prop := ∃ k : Nat, b = List.replicate k 0 ++ [0x80]

/-- The strings of zero. -/
theorem value_eq_zero_iff (b : Bytes) :
    value b = 0 ↔ b = List.replicate b.length 0 ∨ IsNegativeZero b := by
  rcases List.eq_nil_or_concat b with rfl | ⟨front, top, rfl⟩
  · exact ⟨fun _ => .inl rfl, fun _ => rfl⟩
  rw [List.concat_eq_append, value_concat_eq_zero_iff]
  constructor
  · rintro ⟨hfront, htop⟩
    have hzeros : front = List.replicate front.length 0 := List.eq_replicate_of_mem hfront
    rcases htop with rfl | rfl
    · refine .inl ?_
      rw [List.length_append, List.length_singleton, List.replicate_succ', ← hzeros]
    · exact .inr ⟨front.length, by rw [← hzeros]⟩
  · rintro (hzeros | ⟨k, hsigned⟩)
    · have hall : ∀ x ∈ front ++ [top], x = 0 := by
        rw [hzeros]
        exact fun x hx => List.eq_of_mem_replicate hx
      rw [List.forall_mem_append, List.forall_mem_singleton] at hall
      exact ⟨hall.1, .inl hall.2⟩
    · obtain ⟨rfl, htop⟩ := List.append_inj' hsigned rfl
      refine ⟨fun x hx => List.eq_of_mem_replicate hx, .inr ?_⟩
      simpa using htop

end Number

theorem Item.size_minimize (x : Item) :
    x.data.minimize.size = (Number.minimize x.bytes).length := by
  rw [← Packed.length_bytes, Packed.bytes_minimize]
  rfl

namespace Packed

/-! ## Longer strings -/

theorem bytes_widen {raw : Packed} {front : Bytes} {top : UInt8}
    (hraw : raw.bytes = front ++ [top]) (size : Nat) :
    (widen size raw).bytes =
      front ++ [top &&& 0x7f] ++ List.replicate (size - 1 - raw.size) 0 ++ [top &&& 0x80] := by
  have hsize : raw.size = front.length + 1 := by
    rw [← length_bytes, hraw]
    simp
  have hlast := byteAt_eq raw (i := raw.size - 1) (by omega)
  rw [hraw, hsize, Nat.add_sub_cancel, List.getElem?_concat_length, Option.some.injEq] at hlast
  have hbelow : raw.bytes.extract 0 front.length = front := by
    rw [hraw]
    simp
  unfold widen
  rw [if_neg (by omega)]
  simp only [bytes_append, bytes_push, bytes_extract, bytes_zeros, bytes_ofBytes, hbelow, hsize,
    Nat.add_sub_cancel, ← hlast]

/-- The longer string stands for the same number. -/
theorem value_widen (size : Nat) (raw : Packed) :
    Number.value (widen size raw).bytes = Number.value raw.bytes := by
  rcases List.eq_nil_or_concat raw.bytes with hraw | ⟨front, top, hraw⟩
  · have hempty : raw.size = 0 := by
      rw [← length_bytes, hraw]
      rfl
    have hzeros : (widen size raw).bytes = List.replicate size 0 := by
      rw [widen, if_pos hempty, bytes_zeros]
    rw [hzeros, hraw]
    apply (Number.value_eq_zero_iff _).mpr
    exact .inl (by rw [List.length_replicate])
  · rw [List.concat_eq_append] at hraw
    have hsign : top &&& 0x80 = 0 ∨ top &&& 0x80 = 0x80 := Number.sign_cases top
    have hpadding : ∀ x ∈ List.replicate (size - 1 - raw.size) (0 : UInt8), x = 0 :=
      fun x hx => List.eq_of_mem_replicate hx
    rw [bytes_widen hraw, hraw, Number.value_concat_sign hsign, Bytes.leValue_append_zeros hpadding,
      Number.value_concat]

/-- The number of a packed string, written with a given size that is large enough. -/
def resized (size : Nat) (p : Packed) : Packed :=
  if p.minimize.size = size then p.minimize else widen size p.minimize

theorem size_resized {size : Nat} {p : Packed} (h : p.minimize.size ≤ size) :
    (resized size p).size = size := by
  unfold resized
  split
  · assumption
  · exact size_widen (by omega)

theorem value_resized (size : Nat) (p : Packed) :
    Number.value (resized size p).bytes = Number.value p.bytes := by
  have hminimize : Number.value p.minimize.bytes = Number.value p.bytes := by
    rw [bytes_minimize]
    exact (Number.minimize_keeps p.bytes).1
  unfold resized
  split
  · exact hminimize
  · rw [value_widen, hminimize]

/-- Zero is written without a sign. -/
theorem bytes_resized_of_zero {p : Packed} (h : Number.value p.bytes = 0) (size : Nat) :
    (resized size p).bytes = List.replicate size 0 := by
  have hempty : p.minimize.size = 0 := by
    rw [← length_bytes, bytes_minimize, Number.minimize_eq_encode, h]
    rfl
  unfold resized
  split
  · rename_i hsize
    rw [← hsize, hempty]
    exact List.eq_nil_of_length_eq_zero (by rw [length_bytes, hempty])
  · rw [widen, if_pos hempty, bytes_zeros]

/-- A number written with the size of a string is that string again. -/
theorem bytes_resized {p : Packed} {b : Bytes} (h : Number.value p.bytes = Number.value b)
    (hsign : ¬ Number.IsNegativeZero b) : (resized b.length p).bytes = b := by
  by_cases hzero : Number.value b = 0
  · rw [bytes_resized_of_zero (h.trans hzero)]
    exact (((Number.value_eq_zero_iff b).mp hzero).resolve_right hsign).symm
  · have hfits : p.minimize.size ≤ b.length := by
      rw [← length_bytes, bytes_minimize, Number.minimize_eq_encode, h]
      exact Number.length_encode_value_le b
    apply Number.eq_of_value_eq
    · rw [length_bytes, size_resized hfits]
    · rw [value_resized, h]
    · exact hzero

end Packed

namespace Machine

/-! ## The operations -/

/-- The memory of the stacks suffices for one more item of the given length. -/
def Affords (limits : Limits) (rest altStack : Stack) (length : Nat) : Prop :=
  ∀ bytes : Nat, limits.stack = .memory bytes →
    Stack.memory rest + Stack.memory altStack + Limits.itemOverhead + length ≤ bytes

theorem reserve_eq_ok {limits : Limits} {rest altStack : Stack} {length : Nat}
    (h : Affords limits rest altStack length) (y x : Item) :
    reserve limits.stack altStack 2 length (y :: x :: rest) = .ok () := by
  unfold reserve
  split
  · rfl
  · rename_i bytes hbound
    have hfits := h bytes hbound
    have hreleased : Stack.memory ((y :: x :: rest).take 2) = Stack.cost y + Stack.cost x := by
      simp
    have hmemory : Stack.memory (y :: x :: rest) =
        Stack.cost y + (Stack.cost x + Stack.memory rest) := by
      simp
    dsimp only
    rw [hreleased, hmemory, if_neg (by omega)]

section Operations

variable {ctx : Context} {s : State} {rest : Stack} {x size : Item} {n : Int}

/-- Writing a number with a given size, once the size can be read and there is room. -/
theorem perform_numToBin (offset : Nat) (hstack : s.stack = size :: x :: rest)
    (hsize : number ctx.flags size = .ok n) (hn : 0 ≤ n) (hle : n ≤ ctx.limits.elementSize)
    (hroom : Affords ctx.limits rest s.altStack n.toNat) :
    perform ctx ⟨⟨0x80⟩, none, offset⟩ s =
      if n.toNat < (Number.minimize x.bytes).length then .fail .impossibleEncoding s
      else .next { s with stack := ⟨.resized n.toNat x.data, .int,
        x.provenance.union size.provenance⟩ :: rest } := by
  have hrange : ¬ (n < 0 ∨ n > ctx.flags.limits.elementSize) := by
    unfold Context.limits at hle
    omega
  have hreserve : reserve ctx.flags.limits.stack s.altStack 2 n.toNat (size :: x :: rest) =
      .ok () := reserve_eq_ok hroom size x
  have hop : (⟨0x80⟩ : Opcode).operation = .numToBin := rfl
  simp only [perform, hop, numToBin, hstack, hsize, if_neg hrange, hreserve, gt_iff_lt,
    Packed.resized, Item.size_minimize]
  split
  · rfl
  · split <;> rfl

/-- Writing a number in its minimal form. -/
theorem perform_binToNum (offset : Nat) (hstack : s.stack = x :: rest)
    (hfits : (Number.minimize x.bytes).length ≤ ctx.limits.numberSize) :
    perform ctx ⟨⟨0x81⟩, none, offset⟩ s =
      .next { s with stack := ⟨x.data.minimize, .int, x.provenance⟩ :: rest } := by
  have hop : (⟨0x81⟩ : Opcode).operation = .binToNum := rfl
  simp only [perform, hop, binToNum, hstack, Item.size_minimize, gt_iff_lt,
    if_neg (Nat.not_lt.mpr hfits)]
  rfl

/-- What was written with some size has the minimal form of the number again. -/
theorem perform_binToNum_resized (offset : Nat) {length : Nat} {kind : Kind} {p : Provenance}
    (hfits : (Number.minimize x.bytes).length ≤ ctx.limits.numberSize) :
    ∃ w : Item,
      perform ctx ⟨⟨0x81⟩, none, offset⟩
          { s with stack := ⟨.resized length x.data, kind, p⟩ :: rest } =
        .next { s with stack := w :: rest } ∧
      w.bytes = Number.minimize x.bytes := by
  have hminimize : Number.minimize (Packed.resized length x.data).bytes =
      Number.minimize x.bytes :=
    Number.minimize_congr (Packed.value_resized length x.data)
  refine ⟨_, perform_binToNum offset rfl ?_, ?_⟩
  · rw [← hminimize] at hfits
    exact hfits
  · rw [← hminimize]
    exact Packed.bytes_minimize _

/-- What was written in its minimal form has the size again that it is written with. -/
theorem perform_numToBin_minimize (offset : Nat) (hlong : x.size ≤ ctx.limits.elementSize)
    (hsize : number ctx.flags size = .ok x.size)
    (hroom : Affords ctx.limits rest s.altStack x.size) :
    ∃ w : Item,
      perform ctx ⟨⟨0x80⟩, none, offset⟩
          { s with stack := size :: ⟨x.data.minimize, .int, x.provenance⟩ :: rest } =
        .next { s with stack := w :: rest } ∧
      w.data = .resized x.size x.data.minimize := by
  have hshort : (Number.minimize x.data.minimize.bytes).length ≤ x.size := by
    rw [← Item.length_bytes, Packed.bytes_minimize]
    exact Nat.le_trans (Number.length_minimize_le _) (Number.length_minimize_le _)
  have hwrite := perform_numToBin (s := { s with
    stack := size :: ⟨x.data.minimize, .int, x.provenance⟩ :: rest }) offset rfl hsize
    (Int.natCast_nonneg _) (Int.ofNat_le.mpr hlong) hroom
  refine ⟨_, hwrite.trans (if_neg (Nat.not_lt.mpr hshort)), rfl⟩

end Operations

/-- **Resizing inverts.** With a size that can be read and memory for the result, a number is written
with that size if and only if its minimal form is not longer, and nothing changes otherwise; the
result has the size and stands for the same number, and its minimal form is that of the operand.
Conversely, a string that is written in its minimal form, and then with the size it had, is as
before, unless it was a zero with a sign, which loses its sign. -/
theorem resizing_inverts (ctx : Context) (s : State) (rest : Stack) (offset offset' : Nat) :
    (∀ (x size : Item) (n : Int), s.stack = size :: x :: rest → number ctx.flags size = .ok n →
      0 ≤ n → n ≤ ctx.limits.elementSize → Affords ctx.limits rest s.altStack n.toNat →
        ((∃ t, perform ctx ⟨⟨0x80⟩, none, offset⟩ s = .next t) ↔
          (Number.minimize x.bytes).length ≤ n.toNat) ∧
        (n.toNat < (Number.minimize x.bytes).length →
          perform ctx ⟨⟨0x80⟩, none, offset⟩ s = .fail .impossibleEncoding s) ∧
        ∀ t, perform ctx ⟨⟨0x80⟩, none, offset⟩ s = .next t →
          ∃ z : Item, t = { s with stack := z :: rest } ∧ z.size = n.toNat ∧
            (∃ v : Int, Number.decode false x.size x.bytes = .ok v ∧
              Number.decode false z.size z.bytes = .ok v) ∧
            ((Number.minimize x.bytes).length ≤ ctx.limits.numberSize →
              ∃ w : Item, perform ctx ⟨⟨0x81⟩, none, offset'⟩ t =
                .next { s with stack := w :: rest } ∧ w.bytes = Number.minimize x.bytes)) ∧
    ∀ y size : Item, s.stack = y :: rest → y.size ≤ ctx.limits.elementSize →
      (Number.minimize y.bytes).length ≤ ctx.limits.numberSize →
      number ctx.flags size = .ok y.size → Affords ctx.limits rest s.altStack y.size →
        ∃ z w : Item,
          perform ctx ⟨⟨0x81⟩, none, offset⟩ s = .next { s with stack := z :: rest } ∧
          z.bytes = Number.minimize y.bytes ∧
          perform ctx ⟨⟨0x80⟩, none, offset'⟩ { s with stack := size :: z :: rest } =
            .next { s with stack := w :: rest } ∧
          (¬ Number.IsNegativeZero y.bytes → w.bytes = y.bytes) ∧
          (Number.IsNegativeZero y.bytes → w.bytes = List.replicate y.size 0) := by
  constructor
  · intro x size n hstack hsize hn hle hroom
    have hwrite := perform_numToBin offset hstack hsize hn hle hroom
    by_cases hfits : (Number.minimize x.bytes).length ≤ n.toNat
    · rw [if_neg (Nat.not_lt.mpr hfits)] at hwrite
      refine ⟨⟨fun _ => hfits, fun _ => ⟨_, hwrite⟩⟩, fun h => absurd hfits (Nat.not_le.mpr h), ?_⟩
      intro t ht
      cases hwrite.symm.trans ht
      refine ⟨_, rfl, ?_, ?_, ?_⟩
      · exact Packed.size_resized (by rwa [Item.size_minimize])
      · refine ⟨_, Number.decode_unbounded x, ?_⟩
        rw [Number.decode_unbounded]
        exact congrArg _ (Packed.value_resized n.toNat x.data)
      · exact perform_binToNum_resized offset'
    · rw [if_pos (Nat.not_le.mp hfits)] at hwrite
      refine ⟨⟨?_, fun h => absurd h hfits⟩, fun _ => hwrite, ?_⟩
      · rintro ⟨t, ht⟩
        cases hwrite.symm.trans ht
      · intro t ht
        cases hwrite.symm.trans ht
  · intro y size hstack hlong hfits hsize hroom
    obtain ⟨w, hwrite, hw⟩ := perform_numToBin_minimize offset' hlong hsize hroom
    have hkept : Number.value y.data.minimize.bytes = Number.value y.bytes := by
      rw [Packed.bytes_minimize]
      exact (Number.minimize_keeps y.bytes).1
    have hbytes : w.bytes = (Packed.resized y.bytes.length y.data.minimize).bytes := by
      rw [Item.length_bytes, ← hw]
      rfl
    refine ⟨_, w, perform_binToNum offset hstack hfits, Packed.bytes_minimize _, hwrite, ?_, ?_⟩
    · intro hsign
      rw [hbytes, Packed.bytes_resized hkept hsign]
    · intro hsign
      have hzero := (Number.value_eq_zero_iff y.bytes).mpr (.inr hsign)
      rw [hbytes, Packed.bytes_resized_of_zero (hkept.trans hzero), Item.length_bytes]

/-- The number -128, whose sign has a byte of its own, is written with four bytes; a zero of three
bytes loses its sign. -/
theorem resizing_inverts_at_signs :
    (∃ z : Item,
      perform ⟨{ genesis := true }, .absent, []⟩ ⟨⟨0x80⟩, none, 0⟩
          { stack := [.literal [0x04], .literal [0x80, 0x80]] } = .next { stack := [z] } ∧
      z.size = 4 ∧ Number.decode false z.size z.bytes = .ok (-128)) ∧
    ∃ z w : Item,
      perform ⟨{ genesis := true }, .absent, []⟩ ⟨⟨0x81⟩, none, 0⟩
          { stack := [.literal [0x00, 0x00, 0x80]] } = .next { stack := [z] } ∧
      perform ⟨{ genesis := true }, .absent, []⟩ ⟨⟨0x80⟩, none, 1⟩
          { stack := [.literal [0x03], z] } = .next { stack := [w] } ∧
      w.bytes = [0x00, 0x00, 0x00] := by
  have hroom : ∀ k : Nat, k ≤ 4 → Affords ({ genesis := true } : Flags).limits [] [] k := by
    intro k hk bytes hbound
    cases hbound
    have hmemory : Stack.memory [] + Stack.memory [] + Limits.itemOverhead = 32 := rfl
    omega
  constructor
  · obtain ⟨hwritten, -, hresult⟩ := (resizing_inverts ⟨{ genesis := true }, .absent, []⟩
      { stack := [.literal [0x04], .literal [0x80, 0x80]] } [] 0 1).1 (.literal [0x80, 0x80])
      (.literal [0x04]) 4 rfl rfl (by decide) (by decide) (hroom 4 (by decide))
    obtain ⟨t, ht⟩ := hwritten.mpr (by decide)
    obtain ⟨z, rfl, hsize, ⟨v, hread, hsame⟩, -⟩ := hresult t ht
    have hv : Number.decode false 2 [0x80, 0x80] = .ok (-128) := rfl
    obtain rfl : v = -128 := Except.ok.inj (hread.symm.trans hv)
    exact ⟨z, ht, hsize, hsame⟩
  · obtain ⟨z, w, hminimal, -, hwritten, -, hzero⟩ :=
      (resizing_inverts ⟨{ genesis := true }, .absent, []⟩
        { stack := [.literal [0x00, 0x00, 0x80]] } [] 0 1).2 (.literal [0x00, 0x00, 0x80])
        (.literal [0x03]) rfl (by decide) (by decide) rfl (hroom 3 (by decide))
    exact ⟨z, w, hminimal, hwritten, hzero ⟨2, rfl⟩⟩

end Machine

end BitcoinScript
