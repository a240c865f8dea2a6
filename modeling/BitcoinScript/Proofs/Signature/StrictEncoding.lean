import BitcoinScript.Proofs.Guarded.Word
import BitcoinScript.Signature.Encoding

/-!
# The grammar of strict signatures

The strict encoding of a signature is checked by a dozen tests on bytes whose positions are steered
by two of them, the lengths. They accept exactly the strings of one grammar: a header, two positive
integers with their lengths, each as short as it can be, and one byte for the hash type
(`strictS_eq_ok_iff`). The second integer is the one that is returned.

That the positions always lie inside of the string depends on the order of the tests.
`strictRange` makes them in that order with a guard on every position, and answers with the place
of the second integer instead of its bytes.
-/

namespace BitcoinScript

open Guarded Guarded.Checked

namespace Encoding

/-! ## The grammar -/

/-- Two integers and a hash type, written one after the other with their lengths. -/
def written (R S : Bytes) (hashByte : UInt8) : Bytes :=
  [0x30, UInt8.ofNat (R.length + S.length + 4), 0x02, UInt8.ofNat R.length] ++ R ++
    [0x02, UInt8.ofNat S.length] ++ S ++ [hashByte]

/-- A positive integer in the fewest bytes: its first byte has no sign, and it is a zero byte only if
the second byte would have one. -/
def IsShortest : Bytes → Prop
  | [] => False
  | [a] => a < 0x80
  | a :: b :: _ => a < 0x80 ∧ ¬ (a = 0x00 ∧ b < 0x80)

/-- The signature is the strict encoding of two integers. -/
structure IsStrict (sig R S : Bytes) (hashByte : UInt8) : Prop where
  eq : sig = written R S hashByte
  length_le : sig.length ≤ 73
  shortest_R : IsShortest R
  shortest_S : IsShortest S

/-- The tests of an integer that stands inside of a string: there is a byte, without a sign, and no
zero byte too much. -/
theorem isShortest_iff {n string : Bytes} {start : Nat}
    (h : ∀ i, i < n.length → string.getD (start + i) 0 = n.getD i 0) :
    IsShortest n ↔ ¬ n.length = 0 ∧ ¬ string.getD start 0 &&& 0x80 ≠ 0 ∧
      ¬ (n.length > 1 ∧ string.getD start 0 = 0 ∧ string.getD (start + 1) 0 &&& 0x80 = 0) := by
  match n with
  | [] => simp [IsShortest]
  | [a] =>
      have hfirst : string.getD start 0 = a := h 0 (by simp)
      rw [hfirst]
      simp [IsShortest, and_sign_eq_zero_iff]
  | a :: b :: rest =>
      have hfirst : string.getD start 0 = a := h 0 (by simp)
      have hsecond : string.getD (start + 1) 0 = b := h 1 (by simp)
      rw [hfirst, hsecond]
      simp [IsShortest, and_sign_eq_zero_iff]

/-! ## The tests -/

/-- A test that is passed. -/
theorem if_error_eq_ok_iff {ε α : Type} {p : Prop} [Decidable p] {e : ε} {x : Except ε α} {a : α} :
    (if p then .error e else x) = .ok a ↔ ¬ p ∧ x = .ok a := by
  split
  · rename_i hp
    constructor
    · intro h
      cases h
    · rintro ⟨hnot, -⟩
      exact absurd hp hnot
  · rename_i hp
    exact ⟨fun h => ⟨hp, h⟩, fun h => h.2⟩

theorem getD_inside {front part back : Bytes} {i : Nat} (hi : i < part.length) :
    (front ++ part ++ back).getD (front.length + i) 0 = part.getD i 0 := by
  simp only [List.getD_eq_getElem?_getD]
  rw [List.append_assoc, List.getElem?_append_right (Nat.le_add_right _ _), Nat.add_sub_cancel_left,
    List.getElem?_append_left hi]

/-- A string with two parts whose lengths stand where the tests look for them. -/
def framed (a b c d : UInt8) (R : Bytes) (m l : UInt8) (S : Bytes) (h : UInt8) : Bytes :=
  [a, b, c, d] ++ R ++ [m, l] ++ S ++ [h]

section Framed

variable {a b c d m l h : UInt8} {R S : Bytes}

theorem length_framed : (framed a b c d R m l S h).length = R.length + S.length + 7 := by
  simp [framed]
  omega

theorem getD_framed_first {i : Nat} (hi : i < R.length) :
    (framed a b c d R m l S h).getD (4 + i) 0 = R.getD i 0 := by
  have hcut : framed a b c d R m l S h = [a, b, c, d] ++ R ++ ([m, l] ++ S ++ [h]) := by
    simp [framed]
  rw [hcut]
  exact getD_inside hi

theorem getD_framed_marks {i : Nat} (hi : i < 2) :
    (framed a b c d R m l S h).getD (4 + R.length + i) 0 = [m, l].getD i 0 := by
  have hcut : framed a b c d R m l S h = ([a, b, c, d] ++ R) ++ [m, l] ++ (S ++ [h]) := by
    simp [framed]
  have hlength : 4 + R.length = ([a, b, c, d] ++ R).length := by
    simp
    omega
  rw [hcut, hlength]
  exact getD_inside hi

theorem getD_framed_second {i : Nat} (hi : i < S.length) :
    (framed a b c d R m l S h).getD (R.length + 6 + i) 0 = S.getD i 0 := by
  have hcut : framed a b c d R m l S h = ([a, b, c, d] ++ R ++ [m, l]) ++ S ++ [h] := rfl
  have hlength : R.length + 6 = ([a, b, c, d] ++ R ++ [m, l]).length := by simp
  rw [hcut, hlength]
  exact getD_inside hi

theorem second_of_framed :
    ((framed a b c d R m l S h).drop (R.length + 6)).take S.length = S := by
  have hcut : framed a b c d R m l S h = ([a, b, c, d] ++ R ++ [m, l]) ++ (S ++ [h]) := by
    simp [framed]
  have hlength : R.length + 6 = ([a, b, c, d] ++ R ++ [m, l]).length := by simp
  rw [hcut, hlength, List.drop_left, List.take_left]

/-- The tests, on a string whose two lengths are right. -/
theorem strictS_framed_eq_ok_iff (hd : d.toNat = R.length) (hl : l.toNat = S.length) {s : Bytes} :
    strictS (framed a b c d R m l S h) = .ok s ↔
      s = S ∧ R.length + S.length ≤ 66 ∧ a = 0x30 ∧ b.toNat = R.length + S.length + 4 ∧
        c = 0x02 ∧ m = 0x02 ∧ IsShortest R ∧ IsShortest S := by
  have h0 : (framed a b c d R m l S h).getD 0 0 = a := rfl
  have h1 : (framed a b c d R m l S h).getD 1 0 = b := rfl
  have h2 : (framed a b c d R m l S h).getD 2 0 = c := rfl
  have h3 : (framed a b c d R m l S h).getD 3 0 = d := rfl
  have hm : (framed a b c d R m l S h).getD (R.length + 4) 0 = m := by
    rw [Nat.add_comm]
    exact getD_framed_marks (i := 0) (by omega)
  have hlength : (framed a b c d R m l S h).getD (5 + R.length) 0 = l := by
    rw [show 5 + R.length = 4 + R.length + 1 by omega]
    exact getD_framed_marks (by omega)
  unfold strictS
  simp only [h0, h1, h2, h3, hd, hlength, hl, hm, length_framed, second_of_framed,
    if_error_eq_ok_iff, Except.ok.injEq]
  rw [isShortest_iff fun i hi => getD_framed_first (a := a) (b := b) (c := c) (d := d) (m := m)
      (l := l) (S := S) (h := h) hi,
    isShortest_iff fun i hi => getD_framed_second (a := a) (b := b) (c := c) (d := d) (m := m)
      (l := l) (R := R) (h := h) hi]
  constructor
  · rintro ⟨-, hlong, ha, hb, -, -, hc, hR, hfirstR, hpadR, hm, hS, hfirstS, hpadS, rfl⟩
    exact ⟨rfl, by omega, Decidable.not_not.mp ha, by omega, Decidable.not_not.mp hc,
      Decidable.not_not.mp hm, ⟨hR, hfirstR, hpadR⟩, hS, hfirstS, hpadS⟩
  · rintro ⟨rfl, hlong, ha, hb, hc, hm, ⟨hR, hfirstR, hpadR⟩, hS, hfirstS, hpadS⟩
    exact ⟨by omega, by omega, not_not_intro ha, by omega, by omega, by omega, not_not_intro hc, hR,
      hfirstR, hpadR, not_not_intro hm, hS, hfirstS, hpadS, rfl⟩

end Framed

/-- What passes the tests has two parts whose lengths are right. -/
theorem exists_framed_of_strictS {sig s : Bytes} (hs : strictS sig = .ok s) :
    ∃ a b c d R m l S h, d.toNat = R.length ∧ l.toNat = S.length ∧
      sig = framed a b c d R m l S h := by
  simp only [strictS, if_error_eq_ok_iff] at hs
  obtain ⟨hshort, -, -, -, -, hsum, -⟩ := hs
  obtain ⟨a, b, c, d, tail, rfl⟩ : ∃ a b c d tail, sig = a :: b :: c :: d :: tail := by
    match sig with
    | [] => simp at hshort
    | [_] => simp at hshort
    | [_, _] => simp at hshort
    | [_, _, _] => simp at hshort
    | a :: b :: c :: d :: tail => exact ⟨a, b, c, d, tail, rfl⟩
  have hd : (a :: b :: c :: d :: tail).getD 3 0 = d := rfl
  rw [hd] at hsum
  simp only [List.length_cons] at hsum
  -- behind the first part stand a mark, a length, the second part and the hash type
  have hR : (tail.take d.toNat).length = d.toNat := by
    rw [List.length_take]
    omega
  have hrest : (tail.drop d.toNat).length ≥ 3 := by
    rw [List.length_drop]
    omega
  obtain ⟨m, l, S, h, hcut⟩ : ∃ m l S h, tail.drop d.toNat = m :: l :: (S ++ [h]) := by
    match tail.drop d.toNat, hrest with
    | m :: l :: x :: rest, _ =>
        refine ⟨m, l, (x :: rest).dropLast, (x :: rest).getLast (by simp), ?_⟩
        rw [List.dropLast_concat_getLast]
  have hsig : a :: b :: c :: d :: tail = framed a b c d (tail.take d.toNat) m l S h := by
    rw [← List.take_append_drop d.toNat tail, hcut]
    simp [framed, hR]
  refine ⟨a, b, c, d, tail.take d.toNat, m, l, S, h, hR.symm, ?_, hsig⟩
  have hl : (a :: b :: c :: d :: tail).getD (5 + d.toNat) 0 = l := by
    have hposition : 5 + d.toNat = 4 + (tail.take d.toNat).length + 1 := by omega
    rw [hsig, hposition]
    exact getD_framed_marks (by omega)
  have hlength := congrArg List.length hcut
  rw [hl] at hsum
  simp only [List.length_drop, List.length_cons, List.length_append, List.length_nil] at hlength
  omega

/-- The tests accept the grammar and return the second integer. -/
theorem strictS_eq_ok_iff (sig S : Bytes) :
    strictS sig = .ok S ↔ ∃ R hashByte, IsStrict sig R S hashByte := by
  constructor
  · intro hS
    obtain ⟨a, b, c, d, R, m, l, S', h, hd, hl, rfl⟩ := exists_framed_of_strictS hS
    obtain ⟨rfl, hlong, rfl, hb, rfl, rfl, hR, hshortest⟩ := (strictS_framed_eq_ok_iff hd hl).mp hS
    refine ⟨R, h, ?_, ?_, hR, hshortest⟩
    · rw [written, ← hb, ← hd, ← hl, UInt8.ofNat_toNat, UInt8.ofNat_toNat, UInt8.ofNat_toNat]
      rfl
    · rw [length_framed]
      omega
  · rintro ⟨R, h, rfl, hlong, hR, hS⟩
    have hlength : (written R S h).length = R.length + S.length + 7 := length_framed
    have hbyte : ∀ n, n < 256 → (UInt8.ofNat n).toNat = n := by
      intro n hn
      rw [UInt8.toNat_ofNat', Nat.mod_eq_of_lt hn]
    refine (strictS_framed_eq_ok_iff (hbyte _ (by omega)) (hbyte _ (by omega))).mpr ?_
    exact ⟨rfl, by omega, rfl, hbyte _ (by omega), rfl, rfl, hR, hS⟩

/-! ## The tests with guards -/

/-- Whether an integer that stands inside of a string starts with a zero byte too much. -/
def isPadded (sig : Bytes) (start length : Nat) : Option Bool :=
  if length > 1 then do
    if (← index sig start) = 0 then
      return (← index sig (← add start 1)) &&& 0x80 = 0
    else return false
  else some false

/-- The position and the length of the second integer, once all tests are passed. -/
def strictRange (sig : Bytes) : Checked DerError (Nat × Nat) := do
  if sig.length < 9 then .failed .tooShort
  if sig.length > 73 then .failed .tooLong
  if (← index sig 0) ≠ 0x30 then .failed .invalidSequenceId
  if (← index sig 1).toNat ≠ (← sub sig.length 3) then .failed .invalidDataLength
  let r := (← index sig 3).toNat
  if (← add 5 r) ≥ sig.length then .failed .invalidDataLength
  let s := (← index sig (← add 5 r)).toNat
  if (← add (← add r s) 7) ≠ sig.length then .failed .invalidDataLength
  if (← index sig 2) ≠ 0x02 then .failed .invalidIntegerIdR
  if r = 0 then .failed .zeroLengthR
  if (← index sig 4) &&& 0x80 ≠ 0 then .failed .negativeR
  if ← isPadded sig 4 r then .failed .tooMuchPaddingR
  if (← index sig (← add r 4)) ≠ 0x02 then .failed .invalidIntegerIdS
  if s = 0 then .failed .zeroLengthS
  if (← index sig (← add r 6)) &&& 0x80 ≠ 0 then .failed .negativeS
  if ← isPadded sig (← add r 6) s then .failed .tooMuchPaddingS
  return (← add r 6, s)

/-- The second integer, cut out of the string at its place. -/
def readS (sig : Bytes) : Checked DerError Bytes := do
  let (offset, length) ← strictRange sig
  let s ← slice sig offset (← add offset length)
  return s

theorem isPadded_eq {sig : Bytes} (start length : Nat) (hend : start + length < sig.length)
    (hlong : sig.length ≤ 73) :
    isPadded sig start length = some (decide (length > 1 ∧ sig.getD start 0 = 0 ∧
      sig.getD (start + 1) 0 &&& 0x80 = 0)) := by
  unfold isPadded
  by_cases hmany : length > 1
  · have hword : start + 1 < wordSpan := Nat.lt_trans (by omega) (show 73 < wordSpan by decide)
    have hfirst := index_eq_getD (show start < sig.length by omega) 0
    have hsecond := index_eq_getD (show start + 1 < sig.length by omega) 0
    by_cases hzero : sig.getD start 0 = 0
    · simp only [hmany, if_true, hfirst, hzero, add_eq hword, hsecond, true_and, Option.bind_eq_bind,
        Option.bind_some, Option.pure_def]
    · simp only [hmany, if_true, hfirst, hzero, false_and, and_false, decide_false, if_false,
        Option.bind_eq_bind, Option.bind_some, Option.pure_def]
  · simp only [hmany, if_false, false_and, decide_false]

/-- On every string the guarded tests come to the same answer. -/
theorem readS_eq (sig : Bytes) : readS sig = .answer (strictS sig) := by
  have hat : ∀ i, i < sig.length → index sig i = some (sig.getD i 0) :=
    fun i hi => index_eq_getD hi 0
  have hsum : ∀ a b, a + b < 1000 → add a b = some (a + b) :=
    fun a b h => add_eq (Nat.lt_trans h (by decide))
  unfold readS strictRange strictS
  simp only [failed_bind, pure_eq]
  refine test_bind_eq fun hshort => ?_
  refine test_bind_eq fun hlong => ?_
  rw [lift_bind (hat 0 (by omega))]
  refine test_bind_eq fun _ => ?_
  rw [lift_bind (hat 1 (by omega)), lift_bind (sub_eq (by omega))]
  refine test_bind_eq fun _ => ?_
  -- the length of the first integer, and behind it that of the second
  have hr := (sig.getD 3 0).toNat_lt
  rw [lift_bind (hat 3 (by omega))]
  generalize (sig.getD 3 0).toNat = r at hr ⊢
  rw [lift_bind (hsum 5 r (by omega))]
  refine test_bind_eq fun hinside => ?_
  have hs := (sig.getD (5 + r) 0).toNat_lt
  rw [lift_bind (hsum 5 r (by omega)), lift_bind (hat (5 + r) (by omega))]
  generalize (sig.getD (5 + r) 0).toNat = s at hs ⊢
  rw [lift_bind (hsum r s (by omega)), lift_bind (hsum (r + s) 7 (by omega))]
  refine test_bind_eq fun htotal => ?_
  rw [lift_bind (hat 2 (by omega))]
  refine test_bind_eq fun _ => ?_
  refine test_bind_eq fun _ => ?_
  rw [lift_bind (hat 4 (by omega))]
  refine test_bind_eq fun _ => ?_
  rw [lift_bind (isPadded_eq 4 r (by omega) (by omega))]
  simp only [decide_eq_true_eq]
  refine test_bind_eq fun _ => ?_
  rw [lift_bind (hsum r 4 (by omega)), lift_bind (hat (r + 4) (by omega))]
  refine test_bind_eq fun _ => ?_
  refine test_bind_eq fun _ => ?_
  rw [lift_bind (hsum r 6 (by omega)), lift_bind (hat (r + 6) (by omega))]
  refine test_bind_eq fun _ => ?_
  rw [lift_bind (hsum r 6 (by omega)),
    lift_bind (isPadded_eq (r + 6) s (by omega) (by omega))]
  simp only [decide_eq_true_eq]
  refine test_bind_eq fun _ => ?_
  rw [lift_bind (hsum r 6 (by omega)), done_bind, lift_bind (hsum (r + 6) s (by omega)),
    slice_eq (by omega) (by omega), Nat.add_sub_cancel_left]
  rfl

/-- The tests stay inside of the string, and the place they answer with is that of the second
integer. -/
theorem exists_strictRange_eq (sig : Bytes) :
    ∃ r, strictRange sig = .answer r ∧
      strictS sig = r.map fun place => (sig.drop place.1).take place.2 := by
  have hread := readS_eq sig
  unfold readS at hread
  cases hrange : strictRange sig with
  | stopped =>
      rw [hrange] at hread
      cases hs : strictS sig <;> rw [hs] at hread <;> cases hread
  | failed e =>
      rw [hrange, failed_bind] at hread
      refine ⟨.error e, rfl, ?_⟩
      cases hs : strictS sig <;> rw [hs] at hread <;> cases hread
      rfl
  | done place =>
      rw [hrange, done_bind] at hread
      obtain ⟨stop, hstop, hread⟩ := exists_of_lift_bind_eq_answer hread
      refine ⟨.ok place, rfl, ?_⟩
      cases hs : strictS sig with
      | error e =>
          cases hslice : slice sig place.1 stop <;> rw [hs, hslice] at hread <;> cases hread
      | ok s =>
          cases hslice : slice sig place.1 stop <;> rw [hs, hslice] at hread <;> cases hread
          rw [eq_of_slice hslice, eq_of_add hstop, Nat.add_sub_cancel_left]
          rfl

theorem checkHashType_ne_highS (t : HashType) (flags : Flags) :
    checkHashType t flags ≠ .error .highS := by
  unfold checkHashType
  intro h
  split at h
  · cases h
  · split at h
    · cases h
    · split at h <;> cases h

theorem checkStrict_eq_highS_iff (sig : Bytes) (flags : Flags) :
    checkStrict sig { flags with lowS := true } = .error .highS ↔
      ∃ S, strictS sig = .ok S ∧ halfOrder < Bytes.beValue S := by
  unfold checkStrict
  cases hs : strictS sig with
  | error e => simp
  | ok S =>
      simp only [Bool.true_and, decide_eq_true_eq, Except.ok.injEq, exists_eq_left']
      split
      · rename_i hhigh
        exact ⟨fun _ => hhigh, fun _ => rfl⟩
      · rename_i hlow
        exact ⟨nofun, fun h => absurd h hlow⟩

theorem checkSignature_eq_highS_iff (sig : Bytes) (flags : Flags) :
    checkSignature sig { flags with lowS := true } = .error .highS ↔
      ∃ S, strictS sig = .ok S ∧ halfOrder < Bytes.beValue S := by
  rw [← checkStrict_eq_highS_iff sig flags]
  unfold checkSignature
  cases hlast : sig.getLast? with
  | none =>
      rw [List.getLast?_eq_none_iff.mp hlast]
      exact ⟨nofun, nofun⟩
  | some hashByte =>
      simp only [Bool.or_true, Bool.true_or, if_true]
      cases hstrict : checkStrict sig { flags with lowS := true } with
      | error e => exact Iff.rfl
      | ok done =>
          refine ⟨fun h => ?_, nofun⟩
          dsimp only at h
          split at h
          · exact absurd h (checkHashType_ne_highS _ _)
          · cases h

end Encoding

open Encoding

/-- **The grammar of strict signatures.** On every byte string the tests stay inside of it, and what
they accept are the two shortest integers with their lengths and the hash type, at most 73 bytes in
all. The place they answer with holds the second integer, so that under the rule of low values a
signature is refused for it exactly if it is above half the group order. -/
theorem strict_encoding_grammar (sig : Bytes) (flags : Flags) :
    (∃ r, strictRange sig = .answer r ∧
      strictS sig = r.map fun place => (sig.drop place.1).take place.2) ∧
    (∀ S, strictS sig = .ok S ↔ ∃ R hashByte, IsStrict sig R S hashByte) ∧
    (checkSignature sig { flags with lowS := true } = .error .highS ↔
      ∃ R S hashByte, IsStrict sig R S hashByte ∧ halfOrder < Bytes.beValue S) := by
  refine ⟨exists_strictRange_eq sig, strictS_eq_ok_iff sig, ?_⟩
  rw [checkSignature_eq_highS_iff]
  constructor
  · rintro ⟨S, hs, hhigh⟩
    obtain ⟨R, hashByte, hstrict⟩ := (strictS_eq_ok_iff sig S).mp hs
    exact ⟨R, S, hashByte, hstrict, hhigh⟩
  · rintro ⟨R, S, hashByte, hstrict, hhigh⟩
    exact ⟨S, (strictS_eq_ok_iff sig S).mpr ⟨R, hashByte, hstrict⟩, hhigh⟩

end BitcoinScript
