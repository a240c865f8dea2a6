import BitcoinScript.Bytes

/-!
# Guarded words and accesses

The machine is described with unbounded numbers and with lists that are taken apart. A processor has
words of 64 bits and vectors that are read at an index. In what follows the machine is described a
second time in those terms, with a guard on every operation that could go wrong: a sum that does not
fit in a word, a difference below zero, an index, a range or a cut outside of its vector answers
`none`. That such a description always answers, and what the machine answers, says that no guard
ever strikes.

A function that can also fail by itself answers in `Checked ε`, which tells a guard from a failure.
-/

namespace BitcoinScript

namespace Guarded

/-! ## Words -/

/-- The number of words of 64 bits. -/
def wordSpan : Nat := 0x10000000000000000

/-- The number of words that are not negative if read with a sign. No vector has as many bytes. -/
def signedSpan : Nat := 0x8000000000000000

/-- The sum of two words. -/
def add (a b : Nat) : Option Nat := if a + b < wordSpan then some (a + b) else none

/-- The product of two words. -/
def mul (a b : Nat) : Option Nat := if a * b < wordSpan then some (a * b) else none

/-- The difference of two words. -/
def sub (a b : Nat) : Option Nat := if b ≤ a then some (a - b) else none

/-- The sum of two words, or the largest word if the sum is none. -/
def saturatingAdd (a b : Nat) : Nat := min (a + b) (wordSpan - 1)

/-- A word read with a sign. -/
def signed (a : Nat) : Option Int := if a < signedSpan then some a else none

/-- A number as a word, if it is one. -/
def word? (n : Int) : Option Nat := if 0 ≤ n ∧ n < wordSpan then some n.toNat else none

section Words

variable {a b : Nat}

theorem add_eq (h : a + b < wordSpan) : add a b = some (a + b) := if_pos h

theorem mul_eq (h : a * b < wordSpan) : mul a b = some (a * b) := if_pos h

theorem add_eq_none (h : wordSpan ≤ a + b) : add a b = none := if_neg (Nat.not_lt.mpr h)

theorem mul_eq_none (h : wordSpan ≤ a * b) : mul a b = none := if_neg (Nat.not_lt.mpr h)

theorem sub_eq (h : b ≤ a) : sub a b = some (a - b) := if_pos h

theorem signed_eq (h : a < signedSpan) : signed a = some (a : Int) := if_pos h

/-- A sum that stops at the largest word is the sum from a lower number, unless it fits in a word. -/
theorem exists_saturatingAdd_eq (hb : b < wordSpan) :
    ∃ c ≤ a, (a + b < wordSpan → c = a) ∧ saturatingAdd a b = c + b := by
  refine ⟨min a (wordSpan - 1 - b), Nat.min_le_left _ _, ?_, ?_⟩
  · intro hfits
    exact Nat.min_eq_left (by omega)
  · unfold saturatingAdd
    omega

theorem eq_of_add {c : Nat} (h : add a b = some c) : c = a + b := by
  unfold add at h
  split at h
  · cases h
    rfl
  · cases h

/-- The numbers that pass a test on words which no larger number passes. -/
theorem filter_word? {p : Nat → Bool} (hp : ∀ k, p k = true → k < wordSpan) (n : Int) :
    (word? n).filter p = if 0 ≤ n ∧ p n.toNat = true then some n.toNat else none := by
  unfold word?
  by_cases hword : 0 ≤ n ∧ n < wordSpan
  · rw [if_pos hword]
    by_cases htest : p n.toNat = true
    · rw [if_pos ⟨hword.1, htest⟩]
      simp [htest]
    · rw [if_neg fun h => htest h.2]
      simp [htest]
  · rw [if_neg hword, if_neg]
    · rfl
    · rintro ⟨hpos, htest⟩
      have hlt := hp n.toNat htest
      omega

end Words

/-! ## Bytes -/

/-- What holds of 256 bytes holds of all. -/
theorem forall_byte {P : UInt8 → Prop} (h : ∀ n : Fin 256, P (UInt8.ofNat n)) (b : UInt8) : P b := by
  have hb := h ⟨b.toNat, b.toNat_lt⟩
  rwa [UInt8.ofNat_toNat] at hb

theorem and_sign_eq_zero_iff (b : UInt8) : b &&& 0x80 = 0 ↔ b < 0x80 :=
  forall_byte (P := fun b => b &&& 0x80 = 0 ↔ b < 0x80) (by decide +kernel) b

theorem bind_of_some {α β : Type} {x : Option α} {a : α} (h : x = some a) (f : α → Option β) :
    (x >>= f) = f a := by
  rw [h]
  rfl

/-! ## Vectors -/

section Vectors

variable {α : Type} {v : List α} {i j : Nat}

/-- The element at an index. -/
def index (v : List α) (i : Nat) : Option α := v[i]?

/-- The vector with a changed element. -/
def update (v : List α) (i : Nat) (f : α → α) : Option (List α) :=
  if i < v.length then some (v.modify i f) else none

/-- The elements from an index on. -/
def sliceFrom (v : List α) (i : Nat) : Option (List α) :=
  if i ≤ v.length then some (v.drop i) else none

/-- The elements before an index. -/
def sliceTo (v : List α) (i : Nat) : Option (List α) :=
  if i ≤ v.length then some (v.take i) else none

/-- The elements from one index on and before another. -/
def slice (v : List α) (i j : Nat) : Option (List α) :=
  if i ≤ j ∧ j ≤ v.length then some ((v.drop i).take (j - i)) else none

/-- The elements before an index, and those from it on. -/
def splitAt (v : List α) (i : Nat) : Option (List α × List α) :=
  if i ≤ v.length then some (v.take i, v.drop i) else none

theorem index_eq (h : i < v.length) : index v i = some v[i] := List.getElem?_eq_getElem h

theorem index_eq_getD (h : i < v.length) (d : α) : index v i = some (v.getD i d) := by
  rw [index_eq h, List.getD_eq_getElem?_getD, List.getElem?_eq_getElem h]
  rfl

theorem update_eq (h : i < v.length) (f : α → α) : update v i f = some (v.modify i f) := if_pos h

theorem sliceFrom_eq (h : i ≤ v.length) : sliceFrom v i = some (v.drop i) := if_pos h

theorem sliceTo_eq (h : i ≤ v.length) : sliceTo v i = some (v.take i) := if_pos h

theorem slice_eq (hij : i ≤ j) (hj : j ≤ v.length) :
    slice v i j = some ((v.drop i).take (j - i)) := if_pos ⟨hij, hj⟩

theorem eq_of_slice {w : List α} (h : slice v i j = some w) : w = (v.drop i).take (j - i) := by
  unfold slice at h
  split at h
  · cases h
    rfl
  · cases h

theorem splitAt_eq (h : i ≤ v.length) : splitAt v i = some (v.take i, v.drop i) := if_pos h

section Parts

variable (a b : List α)

theorem sub_length_append : sub (a ++ b).length b.length = some a.length := by
  rw [sub_eq (by simp)]
  simp

theorem sliceFrom_append : sliceFrom (a ++ b) a.length = some b := by
  rw [sliceFrom_eq (by simp), List.drop_left]

theorem sliceTo_append : sliceTo (a ++ b) a.length = some a := by
  rw [sliceTo_eq (by simp), List.take_left]

theorem splitAt_append : splitAt (a ++ b) a.length = some (a, b) := by
  rw [splitAt_eq (by simp), List.take_left, List.drop_left]

theorem slice_append (c : List α) : slice (a ++ b ++ c) a.length (a.length + b.length) = some b := by
  rw [slice_eq (by omega) (by simp), List.append_assoc, List.drop_left, Nat.add_sub_cancel_left,
    List.take_left]

end Parts

theorem index_append_cons (a : List α) (x : α) (b : List α) :
    index (a ++ x :: b) a.length = some x := by
  simp [index]

theorem update_append_cons (a : List α) (x : α) (b : List α) (f : α → α) :
    update (a ++ x :: b) a.length f = some (a ++ f x :: b) := by
  rw [update_eq (by simp)]
  congr 1
  induction a with
  | nil => rfl
  | cons y a ih => rw [List.cons_append, List.length_cons, List.modify_succ_cons, ih]; rfl

end Vectors

/-! ## Failures behind the guards -/

/-- What comes of a computation with guards that can also fail by itself. -/
inductive Checked (ε α : Type) where
  /-- A guard strikes. -/
  | stopped
  | failed (e : ε)
  | done (a : α)

namespace Checked

variable {ε α β γ : Type}

instance : Monad (Checked ε) where
  pure := done
  bind x f :=
    match x with
    | stopped => stopped
    | failed e => failed e
    | done a => f a

instance : MonadLift Option (Checked ε) where
  monadLift
    | none => stopped
    | some a => done a

/-- The answer of a computation without guards. -/
def answer : Except ε α → Checked ε α
  | .error e => failed e
  | .ok a => done a

/-- The failure in other terms. -/
def mapFailure (f : ε → γ) : Checked ε α → Checked γ α
  | stopped => stopped
  | failed e => failed (f e)
  | done a => done a

/-- A guard on a computation that the checks before it leave no reason to fail. -/
def expect : Checked ε α → Checked ε α
  | done a => done a
  | _ => stopped

/-- What the checks before it leave no reason to be missing. -/
def sure : Checked ε α → Option α
  | done a => some a
  | _ => none

@[simp] theorem sure_done (a : α) : sure (done a : Checked ε α) = some a := rfl

@[simp] theorem expect_done (a : α) : (expect (done a) : Checked ε α) = done a := rfl

@[simp] theorem pure_eq (a : α) : (pure a : Checked ε α) = done a := rfl

@[simp] theorem lift_some (a : α) : (liftM (some a) : Checked ε α) = done a := rfl

@[simp] theorem failed_bind (e : ε) (f : α → Checked ε β) :
    ((failed e : Checked ε α) >>= f) = failed e := rfl

@[simp] theorem done_bind (a : α) (f : α → Checked ε β) :
    ((done a : Checked ε α) >>= f) = f a := rfl

theorem lift_bind {x : Option α} {a : α} (h : x = some a) (f : α → Checked ε β) :
    (liftM x >>= f) = f a := by
  rw [h, lift_some, done_bind]

theorem lift_none_bind {x : Option α} (h : x = none) (f : α → Checked ε β) :
    (liftM x >>= f) = stopped := by
  rw [h]
  rfl

@[simp] theorem answer_ok (a : α) : (answer (.ok a) : Checked ε α) = done a := rfl

@[simp] theorem answer_error (e : ε) : (answer (.error e) : Checked ε α) = failed e := rfl

theorem bind_eq_done_iff {x : Checked ε α} {f : α → Checked ε β} {b : β} :
    (x >>= f) = done b ↔ ∃ a, x = done a ∧ f a = done b := by
  cases x with
  | stopped => exact ⟨nofun, nofun⟩
  | failed e => exact ⟨nofun, nofun⟩
  | done a =>
      constructor
      · intro h
        exact ⟨a, rfl, h⟩
      · rintro ⟨_, ha, h⟩
        cases ha
        exact h

theorem lift_eq_done_iff {x : Option α} {a : α} :
    (liftM x : Checked ε α) = done a ↔ x = some a := by
  cases x with
  | none => exact ⟨nofun, nofun⟩
  | some b => exact ⟨fun h => by cases h; rfl, fun h => by cases h; rfl⟩

theorem exists_of_lift_bind_eq_answer {x : Option α} {f : α → Checked ε β} {r : Except ε β}
    (h : (liftM x >>= f) = answer r) : ∃ a, x = some a ∧ f a = answer r := by
  cases x with
  | none => cases r <;> cases h
  | some a => exact ⟨a, rfl, h⟩

/-- A test that both sides make, before a guarded and an unguarded rest. -/
theorem test_bind_eq {p : Prop} [Decidable p] {e : ε} {x : Checked ε α} {f : α → Checked ε β}
    {y : Except ε β} (h : ¬ p → (x >>= f) = answer y) :
    ((if p then failed e else x) >>= f) = answer (if p then .error e else y) := by
  split
  · rfl
  · rename_i hp
    exact h hp

end Checked

end Guarded

end BitcoinScript
