import BitcoinScript.Curve.Field
import BitcoinScript.Proofs.Number.Minimal
import BitcoinScript.Proofs.Signature.StrictEncoding

/-!
# One encoding for each signature

A third party that changes the bytes of a signature, but not what it proves, changes the
transaction that carries it. There are two ways to do so: to write one of the two integers in
another form, and to replace the second one by its complement to the group order, which signs the
same. The strict encoding closes the first way: the integers it accepts are minimal script numbers
in the other byte order, zero apart (`Encoding.IsShortest.reverse_eq_encode`), and are therefore
determined by their values (`Encoding.IsShortest.eq_of_beValue_eq`). The rule of low values closes
the second: no two low integers add up to the group order. Together they leave one byte string for
each signature (`Encoding.low_signature_unique`).
-/

namespace BitcoinScript

namespace Encoding

open Guarded (and_sign_eq_zero_iff)
open Number (and_eq_self_of_no_sign)

/-! ## Integers -/

instance decidableIsShortest : DecidablePred IsShortest
  | [] => isFalse id
  | [a] => inferInstanceAs (Decidable (a < 0x80))
  | a :: b :: _ => inferInstanceAs (Decidable (a < 0x80 ∧ ¬ (a = 0x00 ∧ b < 0x80)))

theorem IsShortest.exists_cons {n : Bytes} (h : IsShortest n) :
    ∃ first rest, n = first :: rest ∧ first &&& 0x80 = 0 := by
  match n, h with
  | [a], h => exact ⟨a, [], rfl, (and_sign_eq_zero_iff a).mpr h⟩
  | a :: b :: rest, h => exact ⟨a, b :: rest, rfl, (and_sign_eq_zero_iff a).mpr h.1⟩

/-- Read from the other end, a shortest integer is a minimal number, except for zero, which has a
byte here and none there. -/
theorem IsShortest.isMinimal_reverse {n : Bytes} (h : IsShortest n) (hzero : n ≠ [0]) :
    Number.isMinimal n.reverse = true := by
  match n, h with
  | [a], h =>
      have hmagnitude := and_eq_self_of_no_sign ((and_sign_eq_zero_iff a).mpr h)
      refine Number.isMinimal_of_magnitude ?_ []
      rw [hmagnitude]
      rintro rfl
      exact hzero rfl
  | a :: b :: rest, ⟨hsign, hpadding⟩ =>
      have hmagnitude := and_eq_self_of_no_sign ((and_sign_eq_zero_iff a).mpr hsign)
      rw [List.reverse_cons, List.reverse_cons]
      by_cases hfirst : a = 0
      · apply Number.isMinimal_of_used_bit
        intro hbit
        exact hpadding ⟨hfirst, (and_sign_eq_zero_iff b).mp hbit⟩
      · apply Number.isMinimal_of_magnitude
        rw [hmagnitude]
        exact hfirst

theorem IsShortest.value_reverse {n : Bytes} (h : IsShortest n) :
    Number.value n.reverse = Bytes.beValue n := by
  obtain ⟨first, rest, rfl, hsign⟩ := h.exists_cons
  have hread := Bytes.beValue_reverse (first :: rest).reverse
  rw [List.reverse_reverse] at hread
  rw [hread, List.reverse_cons, Number.value_concat, if_pos hsign, and_eq_self_of_no_sign hsign]

theorem IsShortest.reverse_eq_encode {n : Bytes} (h : IsShortest n) (hzero : n ≠ [0]) :
    n.reverse = Number.encode (Bytes.beValue n) := by
  rw [← h.value_reverse, Number.encode_value (h.isMinimal_reverse hzero)]

theorem IsShortest.beValue_ne_zero {n : Bytes} (h : IsShortest n) (hzero : n ≠ [0]) :
    Bytes.beValue n ≠ 0 := by
  intro hvalue
  have hencode := h.reverse_eq_encode hzero
  rw [hvalue] at hencode
  obtain ⟨first, rest, rfl, -⟩ := h.exists_cons
  exact List.cons_ne_nil _ _ (List.reverse_eq_nil_iff.mp hencode)

/-- A shortest integer is determined by its value. -/
theorem IsShortest.eq_of_beValue_eq {m n : Bytes} (hm : IsShortest m) (hn : IsShortest n)
    (h : Bytes.beValue m = Bytes.beValue n) : m = n := by
  have hzero : Bytes.beValue [0] = 0 := rfl
  by_cases hm0 : m = [0]
  · subst hm0
    apply Eq.symm
    apply Decidable.not_not.mp
    intro hn0
    exact hn.beValue_ne_zero hn0 (h ▸ hzero)
  · by_cases hn0 : n = [0]
    · subst hn0
      exact absurd (h.trans hzero) (hm.beValue_ne_zero hm0)
    · apply List.reverse_inj.mp
      rw [hm.reverse_eq_encode hm0, hn.reverse_eq_encode hn0, h]

/-! ## Signatures -/

/-- What is accepted under the rule of low values is strictly encoded, and its second integer is
low. -/
theorem exists_strictS_of_low {sig : Bytes} {flags : Flags} (hlow : flags.lowS = true)
    (hne : sig ≠ []) (hok : checkSignature sig flags = .ok ()) :
    ∃ S, strictS sig = .ok S ∧ Bytes.beValue S ≤ halfOrder := by
  have hlast := List.getLast?_eq_some_getLast hne
  have hstrict : checkStrict sig flags = .ok () := by
    unfold checkSignature at hok
    rw [hlast] at hok
    simp only [hlow, Bool.or_true, Bool.true_or, if_true] at hok
    split at hok
    · cases hok
    · assumption
  unfold checkStrict at hstrict
  split at hstrict
  · cases hstrict
  · rename_i S hS
    refine ⟨S, hS, ?_⟩
    split at hstrict
    · cases hstrict
    · rename_i hhigh
      simpa [hlow] using hhigh

/-- **One encoding for each signature.** Two byte strings that are accepted under the rule of low
values, under whatever other rules, are both strictly encoded; if they have the same hash type,
first integers of the same value, and second integers whose values are the same or add up to the
group order, they are the same string. -/
theorem low_signature_unique {sig other : Bytes} {flags otherFlags : Flags}
    (hlow : flags.lowS = true) (hotherLow : otherFlags.lowS = true)
    (hne : sig ≠ []) (hotherNe : other ≠ [])
    (hok : checkSignature sig flags = .ok ())
    (hotherOk : checkSignature other otherFlags = .ok ()) :
    (∃ R S hashByte, IsStrict sig R S hashByte) ∧
    (∃ R S hashByte, IsStrict other R S hashByte) ∧
    ∀ (R S R' S' : Bytes) (hashByte : UInt8),
      IsStrict sig R S hashByte → IsStrict other R' S' hashByte →
      Bytes.beValue R = Bytes.beValue R' →
      (Bytes.beValue S = Bytes.beValue S' ∨
        Bytes.beValue S + Bytes.beValue S' = 2 * halfOrder + 1) →
      sig = other := by
  obtain ⟨S₀, hS₀, hS₀low⟩ := exists_strictS_of_low hlow hne hok
  obtain ⟨S₁, hS₁, hS₁low⟩ := exists_strictS_of_low hotherLow hotherNe hotherOk
  obtain ⟨R₀, hash₀, hstrict₀⟩ := (strictS_eq_ok_iff sig S₀).mp hS₀
  obtain ⟨R₁, hash₁, hstrict₁⟩ := (strictS_eq_ok_iff other S₁).mp hS₁
  refine ⟨⟨R₀, S₀, hash₀, hstrict₀⟩, ⟨R₁, S₁, hash₁, hstrict₁⟩, ?_⟩
  intro R S R' S' hashByte hsig hother hR hS
  -- the second integers are those that were found low
  have hfound := (strictS_eq_ok_iff sig S).mpr ⟨R, hashByte, hsig⟩
  have hotherFound := (strictS_eq_ok_iff other S').mpr ⟨R', hashByte, hother⟩
  obtain rfl : S₀ = S := Except.ok.inj (hS₀.symm.trans hfound)
  obtain rfl : S₁ = S' := Except.ok.inj (hS₁.symm.trans hotherFound)
  have hvalue : Bytes.beValue S₀ = Bytes.beValue S₁ := by
    rcases hS with hequal | hsum
    · exact hequal
    · omega
  rw [hsig.eq, hother.eq, hsig.shortest_R.eq_of_beValue_eq hother.shortest_R hR,
    hsig.shortest_S.eq_of_beValue_eq hother.shortest_S hvalue]

example : 2 * halfOrder + 1 = Curve.groupOrder := by decide +kernel

/-- A signature whose second integer is the largest low one. -/
def highestLow : Bytes :=
  [0x30, 0x25, 0x02, 0x01, 0x01, 0x02, 0x20, 0x7f, 0xff, 0xff, 0xff, 0xff, 0xff, 0xff, 0xff, 0xff,
    0xff, 0xff, 0xff, 0xff, 0xff, 0xff, 0xff, 0x5d, 0x57, 0x6e, 0x73, 0x57, 0xa4, 0x50, 0x1d,
    0xdf, 0xe9, 0x2f, 0x46, 0x68, 0x1b, 0x20, 0xa0, 0x41]

theorem isStrict_highestLow : IsStrict highestLow [0x01] (Bytes.be 32 halfOrder) 0x41 where
  eq := rfl
  length_le := by decide
  shortest_R := by decide
  shortest_S := by decide +kernel

/-- The border of the rule: the signature is accepted with and without the other rules, and it is
what is written for its two integers. -/
theorem low_signature_unique_highest :
    checkSignature highestLow { lowS := true } = .ok () ∧
    checkSignature (written [0x01] (Bytes.be 32 halfOrder) 0x41)
      { lowS := true, strictEncoding := true, forkId := true } = .ok () ∧
    highestLow = written [0x01] (Bytes.be 32 halfOrder) 0x41 := by
  have hok : checkSignature highestLow { lowS := true } = .ok () := rfl
  have hwrittenOk : checkSignature (written [0x01] (Bytes.be 32 halfOrder) 0x41)
      { lowS := true, strictEncoding := true, forkId := true } = .ok () := rfl
  obtain ⟨-, -, hunique⟩ := low_signature_unique rfl rfl (List.cons_ne_nil _ _)
    (List.cons_ne_nil _ _) hok hwrittenOk
  exact ⟨hok, hwrittenOk, hunique _ _ _ _ _ isStrict_highestLow isStrict_highestLow rfl (.inl rfl)⟩

-- one more, and only the complement is low
example : checkSignature
    ([0x30, 0x25, 0x02, 0x01, 0x01, 0x02, 0x20] ++ Bytes.be 32 (halfOrder + 1) ++ [0x41])
    { lowS := true } = .error .highS := rfl

end Encoding

end BitcoinScript
