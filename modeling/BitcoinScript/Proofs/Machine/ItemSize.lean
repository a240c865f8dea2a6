import BitcoinScript.Proofs.Machine.Run
import BitcoinScript.Proofs.Number.Width

/-!
# How long items get

Before the limits are lifted, no operation makes an item of more than 520 bytes out of items that
have at most as many. Three checks say so outright: pushes, joins and the writing of a number with a
given size are refused where they would be longer. The rest is a matter of what the operations
compute: numbers are read from four bytes, so results have at most eight; cuts, shifts and bitwise
logic keep lengths; hashes have 20 or 32 bytes; and moves make no new items.
-/

namespace BitcoinScript

/-- All items have at most `k` bytes. -/
def Stack.Fits (k : Nat) (s : Stack) : Prop := ∀ x ∈ s, x.size ≤ k

open Stack

section Fits

variable {k : Nat} {x : Item} {s t : Stack}

theorem Stack.fits_nil : Fits k [] := by
  intro x hx
  cases hx

theorem Stack.fits_cons : Fits k (x :: s) ↔ x.size ≤ k ∧ Fits k s := List.forall_mem_cons

theorem Stack.Fits.tail (h : Fits k (x :: s)) : Fits k s := (fits_cons.mp h).2

theorem Stack.Fits.push (hx : x.size ≤ k) (h : Fits k s) : Fits k (x :: s) := fits_cons.mpr ⟨hx, h⟩

theorem Stack.Fits.subset (h : Fits k s) (hts : t ⊆ s) : Fits k t := fun x hx => h x (hts hx)

end Fits

namespace Item

@[simp] theorem size_literal (b : Bytes) : (literal b).size = b.length := Packed.size_ofBytes b

@[simp] theorem size_ofInt (n : Int) (p : Provenance) :
    (ofInt n p).size = Number.width n.natAbs := by
  rw [← length_bytes, bytes_ofInt, Number.length_encode]

/-- An item that holds a number is as long as the number is wide. -/
theorem size_ofInt_le {n : Int} {p : Provenance} {k : Nat} (hk : 0 < k)
    (hn : n.natAbs < Number.signWeight k) : (ofInt n p).size ≤ k := by
  rw [size_ofInt, Number.width_le_iff hk]
  exact hn

theorem size_ofBool_le (b : Bool) (p : Provenance) : (ofBool b p).size ≤ 1 := by
  rw [← length_bytes, bytes_ofBool]
  cases b <;> decide

@[simp] theorem size_merge (x : Item) (p : Provenance) : (x.merge p).size = x.size := rfl

end Item

namespace Bytes

theorem length_shiftLeft (n : Nat) (d : Bytes) : (shiftLeft n d).length = d.length := by
  unfold shiftLeft
  have hmoved : (d.drop (n / 8) ++ List.replicate (min (n / 8) d.length) 0).length = d.length := by
    rw [List.length_append, List.length_drop, List.length_replicate]
    omega
  generalize d.drop (n / 8) ++ List.replicate (min (n / 8) d.length) 0 = moved at hmoved ⊢
  dsimp only
  split
  · exact hmoved
  · rw [List.length_zipWith, List.length_append, List.length_drop, List.length_singleton, hmoved]
    omega

theorem length_shiftRight (n : Nat) (d : Bytes) : (shiftRight n d).length = d.length := by
  unfold shiftRight
  have hmoved : (List.replicate (min (n / 8) d.length) 0 ++ d.take (d.length - n / 8)).length =
      d.length := by
    rw [List.length_append, List.length_take, List.length_replicate]
    omega
  generalize List.replicate (min (n / 8) d.length) 0 ++ d.take (d.length - n / 8) = moved
    at hmoved ⊢
  dsimp only
  split
  · exact hmoved
  · rw [List.length_zipWith, List.length_cons, hmoved]
    omega

theorem length_shift (direction : Direction) (n : Nat) (d : Bytes) :
    (shift direction n d).length = d.length := by
  cases direction with
  | left => exact length_shiftLeft n d
  | right => exact length_shiftRight n d

end Bytes

theorem HashOp.length_eval_le (op : HashOp) (m : Packed) : (op.eval m).length ≤ 32 := by
  cases op with
  | ripemd160 => simp [eval]
  | sha1 => simp [eval]
  | sha256 => simp [eval]
  | hash160 => simp [eval]
  | hash256 => simp [eval]

namespace Packed

theorem size_widen {size : Nat} {raw : Packed} (h : raw.size < size) :
    (widen size raw).size = size := by
  have hzeros : ∀ n, (zeros n).size = n := by
    intro n
    rw [← length_bytes, bytes_zeros, List.length_replicate]
  unfold widen
  split
  · exact hzeros size
  · rename_i hraw
    simp only [ByteArray.size_append, ByteArray.size_push, ByteArray.size_extract, hzeros,
      size_ofBytes, List.length_singleton]
    omega

end Packed

/-! ## Moves -/

theorem Stack.eq_of_require {α : Type} {n : Nat} {s r t : List α} (h : require n s r = some t) :
    t = r := by
  unfold require at h
  split at h
  · cases h
    rfl
  · cases h

/-- Moves and copies make no new items. -/
theorem StackOp.apply_subset {op : StackOp} {s t : Stack} (h : op.apply s = some t) : t ⊆ s := by
  intro x hx
  cases op with
  | drop n =>
      rw [eq_of_require h] at hx
      exact List.mem_of_mem_drop hx
  | dup n =>
      rw [eq_of_require h] at hx
      rcases List.mem_append.mp hx with hx | hx
      · exact List.mem_of_mem_take hx
      · exact hx
  | copyOver n =>
      rw [eq_of_require h] at hx
      rcases List.mem_append.mp hx with hx | hx
      · exact List.mem_of_mem_drop (List.mem_of_mem_take hx)
      · exact hx
  | rotate n =>
      rw [eq_of_require h] at hx
      rcases List.mem_append.mp hx with hx | hx
      · exact List.mem_of_mem_drop (List.mem_of_mem_take hx)
      · rcases List.mem_append.mp hx with hx | hx
        · exact List.mem_of_mem_take hx
        · exact List.mem_of_mem_drop hx
  | swap n =>
      rw [eq_of_require h] at hx
      rcases List.mem_append.mp hx with hx | hx
      · exact List.mem_of_mem_drop (List.mem_of_mem_take hx)
      · rcases List.mem_append.mp hx with hx | hx
        · exact List.mem_of_mem_take hx
        · exact List.mem_of_mem_drop hx
  | nip =>
      match s, h with
      | a :: b :: rest, h =>
          cases h
          rcases List.mem_cons.mp hx with rfl | hx
          · exact List.mem_cons_self
          · exact List.mem_cons_of_mem a (List.mem_cons_of_mem b hx)
  | tuck =>
      match s, h with
      | a :: b :: rest, h =>
          cases h
          simp only [List.mem_cons] at hx ⊢
          rcases hx with rfl | rfl | rfl | hx
          · exact Or.inl rfl
          · exact Or.inr (Or.inl rfl)
          · exact Or.inl rfl
          · exact Or.inr (Or.inr hx)

/-! ## Operations on the stack -/

namespace Machine

theorem natAbs_lt_of_number {flags : Flags} (hg : flags.genesis = false) {x : Item} {n : Int}
    (h : number flags x = .ok n) : n.natAbs < Number.signWeight 4 := by
  unfold number at h
  split at h
  · rename_i m hm
    cases h
    rw [Item.toInt_eq, Flags.numberSize_of_not_genesis hg] at hm
    exact Number.natAbs_lt_of_decode hm
  · cases h

theorem numbers_of_pair {flags : Flags} {x y : Item} {a b : Int}
    (h : pair flags x y = .ok (a, b)) : number flags x = .ok a ∧ number flags y = .ok b := by
  unfold pair at h
  split at h
  · rename_i m hm
    split at h
    · rename_i n hn
      cases h
      exact ⟨hm, hn⟩
    · cases h
  · cases h

theorem size_withBytes (x : Item) (b : Bytes) : (withBytes x b).size = b.length :=
  Packed.size_ofBytes b

section Handlers

variable {flags : Flags} {k : Nat} {s t : Stack}

/-- There is always room for a truth value. -/
theorem ofBool_fits (hk : 520 ≤ k) {b : Bool} {p : Provenance} (hs : Fits k s) :
    Fits k (.ofBool b p :: s) :=
  Fits.push (Nat.le_trans (Item.size_ofBool_le b p) (by omega)) hs

theorem verify_fits {op : Opcode} (hs : Fits k s) (h : verify op s = .ok t) : Fits k t := by
  unfold verify at h
  split at h
  · cases h
  · split at h
    · cases h
      exact hs.tail
    · cases h

theorem moved_fits {op : StackOp} (hs : Fits k s) (h : moved (op.apply s) = .ok t) :
    Fits k t := by
  cases happly : op.apply s with
  | none => rw [happly] at h; cases h
  | some u =>
      rw [happly] at h
      cases h
      exact hs.subset (StackOp.apply_subset happly)

theorem dupIfTrue_fits (hs : Fits k s) (h : dupIfTrue s = .ok t) : Fits k t := by
  unfold dupIfTrue at h
  split at h
  · cases h
  · rename_i x rest
    cases h
    split
    · exact hs.push (fits_cons.mp hs).1
    · exact hs

theorem fetch_fits {takeOut : Bool} (hs : Fits k s) (h : fetch flags takeOut s = .ok t) :
    Fits k t := by
  unfold fetch at h
  split at h
  · cases h
  · rename_i index rest
    split at h
    · cases h
    · split at h
      · cases h
      · rename_i n hn hneg
        split at h
        · cases h
        · rename_i x hx
          cases h
          refine Fits.push (hs.tail x (List.mem_of_getElem? hx)) ?_
          split
          · exact hs.tail.subset (List.eraseIdx_subset ..)
          · exact hs.tail

theorem cat_fits (hk : 520 ≤ k) (hg : flags.genesis = false) (hs : Fits k s)
    (h : cat flags.limits s = .ok t) : Fits k t := by
  unfold cat at h
  split at h
  · rename_i y x rest
    split at h
    · cases h
    · rename_i hsize
      cases h
      refine Fits.push ?_ hs.tail.tail
      rw [Flags.elementSize_of_not_genesis hg] at hsize
      rw [Item.size_merge]
      show (x.data ++ y.data).size ≤ k
      rw [ByteArray.size_append]
      exact Nat.le_trans (Nat.not_lt.mp hsize) hk
  · cases h

theorem split_fits (hs : Fits k s) (h : split flags s = .ok t) : Fits k t := by
  unfold Machine.split at h
  split at h
  · cases h
  · rename_i position rest
    split at h
    · cases h
    · split at h
      · cases h
      · rename_i n hn rest x below
        split at h
        · cases h
          have hx : x.size ≤ k := (fits_cons.mp hs.tail).1
          refine Fits.push ?_ (Fits.push ?_ hs.tail.tail)
          · show (x.data.extract n.toNat x.size).size ≤ k
            rw [ByteArray.size_extract]
            unfold Item.size at hx ⊢
            omega
          · show (x.data.extract 0 n.toNat).size ≤ k
            rw [ByteArray.size_extract]
            unfold Item.size at hx
            omega
        · cases h

theorem numToBin_fits (hk : 520 ≤ k) (hg : flags.genesis = false) {altStack : Stack}
    (hs : Fits k s) (h : numToBin flags altStack s = .ok t) : Fits k t := by
  unfold numToBin at h
  split at h
  · cases h
  · rename_i size rest
    split at h
    · cases h
    · rename_i n hn
      split at h
      · cases h
      · rename_i hrange
        rw [Flags.elementSize_of_not_genesis hg] at hrange
        have hsize : n.toNat ≤ k := by omega
        split at h
        · cases h
        · split at h
          · cases h
          · rename_i x below hreserve
            dsimp only at h
            split at h
            · cases h
            · rename_i hfits
              split at h
              · rename_i hexact
                cases h
                refine Fits.push ?_ hs.tail.tail
                show x.data.minimize.size ≤ k
                omega
              · rename_i hshort
                cases h
                refine Fits.push ?_ hs.tail.tail
                show (Packed.widen n.toNat x.data.minimize).size ≤ k
                rw [Packed.size_widen (by omega)]
                exact hsize

theorem binToNum_fits (hk : 520 ≤ k) (hg : flags.genesis = false) (hs : Fits k s)
    (h : binToNum flags.limits s = .ok t) : Fits k t := by
  unfold binToNum at h
  split at h
  · cases h
  · rename_i x rest
    dsimp only at h
    split at h
    · cases h
    · rename_i hsize
      cases h
      rw [Flags.numberSize_of_not_genesis hg] at hsize
      refine Fits.push ?_ hs.tail
      show x.data.minimize.size ≤ k
      omega

theorem size_fits (hk : 520 ≤ k) (hs : Fits k s) (h : size s = .ok t) : Fits k t := by
  unfold size at h
  split at h
  · cases h
  · rename_i x rest
    cases h
    have hx : x.size ≤ k := (fits_cons.mp hs).1
    have hnumber : (x.size : Int).natAbs < Number.signWeight k :=
      Nat.lt_of_le_of_lt hx (Number.lt_signWeight (by omega))
    exact Fits.push (Item.size_ofInt_le (by omega) hnumber) hs

theorem invert_fits (hs : Fits k s) (h : invert s = .ok t) : Fits k t := by
  unfold invert at h
  split at h
  · cases h
  · rename_i x rest
    cases h
    refine Fits.push ?_ hs.tail
    rw [size_withBytes, List.length_map, Item.length_bytes]
    exact (fits_cons.mp hs).1

theorem bitwise_fits {op : BitOp} (hs : Fits k s) (h : bitwise op s = .ok t) : Fits k t := by
  unfold bitwise at h
  split at h
  · rename_i y x rest
    split at h
    · cases h
      refine Fits.push ?_ hs.tail.tail
      have hx : x.size ≤ k := (fits_cons.mp hs.tail).1
      rw [Item.size_merge, size_withBytes, List.length_zipWith, Item.length_bytes,
        Item.length_bytes]
      omega
    · cases h
  · cases h

theorem equal_fits (hk : 520 ≤ k) (hs : Fits k s) (h : equal s = .ok t) : Fits k t := by
  unfold equal at h
  split at h
  · rename_i y x rest
    cases h
    exact ofBool_fits hk hs.tail.tail
  · cases h

theorem equalVerify_fits (hs : Fits k s) (h : equalVerify s = .ok t) : Fits k t := by
  unfold equalVerify at h
  split at h
  · split at h
    · cases h
      exact hs.tail.tail
    · cases h
  · cases h

theorem unary_fits (hk : 520 ≤ k) (hg : flags.genesis = false) {op : UnaryOp} (hs : Fits k s)
    (h : unary flags op s = .ok t) : Fits k t := by
  unfold unary at h
  split at h
  · rename_i x rest
    split at h
    · rename_i a ha
      cases h
      have hwidth : Number.width (op.eval a).natAbs ≤ 2 * 4 :=
        UnaryOp.width_eval_le (by omega) (natAbs_lt_of_number hg ha)
      refine Fits.push ?_ hs.tail
      rw [Item.size_ofInt]
      omega
    · cases h
  · cases h

theorem binary_fits (hk : 520 ≤ k) (hg : flags.genesis = false) {op : BinaryOp} (hs : Fits k s)
    (h : binary flags op s = .ok t) : Fits k t := by
  unfold binary at h
  split at h
  · rename_i y x rest
    split at h
    · rename_i a b hab
      obtain ⟨ha, hb⟩ := numbers_of_pair hab
      split at h
      · rename_i v hv
        cases h
        cases v with
        | int n =>
            have hwidth : Number.width n.natAbs ≤ 2 * 4 := BinaryOp.width_eval_le (by omega)
              (natAbs_lt_of_number hg ha) (natAbs_lt_of_number hg hb) hv
            refine Fits.push ?_ hs.tail.tail
            rw [Value.item, Item.size_ofInt]
            omega
        | bool b => exact ofBool_fits hk hs.tail.tail
      · cases h
    · cases h
  · cases h

theorem numEqualVerify_fits (hs : Fits k s) (h : numEqualVerify flags s = .ok t) :
    Fits k t := by
  unfold numEqualVerify at h
  split at h
  · split at h
    · split at h
      · cases h
        exact hs.tail.tail
      · cases h
    · cases h
  · cases h

theorem within_fits (hk : 520 ≤ k) (hs : Fits k s) (h : within flags s = .ok t) : Fits k t := by
  unfold within at h
  split at h
  · split at h
    · split at h
      · cases h
        exact ofBool_fits hk hs.tail.tail.tail
      · cases h
    · cases h
  · cases h

theorem hash_fits (hk : 520 ≤ k) {op : HashOp} (hs : Fits k s) (h : hash op s = .ok t) :
    Fits k t := by
  unfold hash at h
  split at h
  · cases h
  · rename_i x rest
    cases h
    refine Fits.push ?_ hs.tail
    have hlength := op.length_eval_le x.data
    rw [size_withBytes]
    omega

theorem depth_fits (hk : 520 ≤ k) (hs : Fits k s) (hlength : s.length ≤ 1000) :
    Fits k (depth s) := by
  have hnumber : (s.length : Int).natAbs < Number.signWeight 2 :=
    Nat.lt_of_le_of_lt hlength (by decide)
  exact Fits.push (Nat.le_trans (Item.size_ofInt_le (by omega) hnumber) (by omega)) hs

end Handlers

end Machine

end BitcoinScript
