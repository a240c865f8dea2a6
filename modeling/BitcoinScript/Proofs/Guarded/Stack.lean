import BitcoinScript.Proofs.Guarded.Word
import BitcoinScript.Proofs.Stack.Blocks

/-!
# Guarded stacks

A stack is kept in a vector, the top item last. An item is found by the number of items above it,
which is turned into an index counted from the bottom; blocks of items are cut out of the vector at
such indices. An operation first requires as many items as it needs, and fails if they are missing.
That its indices lie inside of the vector follows from there.

So the vector has the blocks that the operation names in the places where the relation
`Stack.Moves` puts them (`blocks_move_exactly`). The number of these items has a guard of its own,
which strikes if it is no word (`Guarded.moveItems_of_overflow`).
-/

namespace BitcoinScript

namespace Guarded

open Checked

/-! ## Items -/

/-- Fails if there are fewer items than needed. -/
def require (n : Nat) (s : Stack) : Checked Reason Unit :=
  if s.length < n then .failed .invalidStackOperation else .done ()

/-- The item with `i` items above it. -/
def top (i : Nat) (s : Stack) : Checked Reason Item := do
  let pos ← add i 1
  require pos s
  let x ← index s.reverse (← sub s.reverse.length pos)
  return x

/-- Takes the top item off. -/
def pop : Stack → Checked Reason (Item × Stack)
  | [] => .failed .invalidStackOperation
  | x :: rest => .done (x, rest)

/-- Takes the item with `i` items above it out. -/
def remove (i : Nat) (s : Stack) : Checked Reason (Item × Stack) := do
  let pos ← add i 1
  require pos s
  let place ← sub s.reverse.length pos
  let x ← index s.reverse place
  return (x, (s.reverse.eraseIdx place).reverse)

/-- Changes the top item. -/
def modifyTop (f : Item → Item) (s : Stack) : Checked Reason Stack := do
  let pos ← add 0 1
  require pos s
  let v ← update s.reverse (← sub s.reverse.length pos) f
  return v.reverse

/-! ## Blocks -/

/-- Takes `n` items off. -/
def discard (n : Nat) (s : Stack) : Checked Reason Stack := do
  require n s
  let length ← sub s.reverse.length n
  return (s.reverse.take length).reverse

/-- Copies the top `n` items. -/
def dup (n : Nat) (s : Stack) : Checked Reason Stack := do
  require n s
  let block ← sliceFrom s.reverse (← sub s.reverse.length n)
  return (s.reverse ++ block).reverse

/-- Copies the second block of `n` items to the top. -/
def copyOver (n : Nat) (s : Stack) : Checked Reason Stack := do
  let count ← mul n 2
  require count s
  let start ← sub s.reverse.length count
  let block ← slice s.reverse start (← add start n)
  return (s.reverse ++ block).reverse

/-- Moves the third block of `n` items to the top. -/
def rotate (n : Nat) (s : Stack) : Checked Reason Stack := do
  let count ← mul n 3
  require count s
  let start ← sub s.reverse.length count
  let (below, blocks) ← splitAt s.reverse start
  let (left, right) ← splitAt blocks n
  return (below ++ right ++ left).reverse

/-- Exchanges two parts of a vector, which must have one length. -/
def exchange (a b : List Item) : Option (List Item × List Item) :=
  if a.length = b.length then some (b, a) else none

/-- Exchanges the top two blocks of `n` items. -/
def swap (n : Nat) (s : Stack) : Checked Reason Stack := do
  let count ← mul n 2
  require count s
  let start ← sub s.reverse.length count
  let (lower, upper) ← splitAt s.reverse (← add start n)
  let (below, left) ← splitAt lower start
  let (right, above) ← splitAt upper n
  let (left, right) ← exchange left right
  return (below ++ left ++ right ++ above).reverse

/-- Takes off the second item: the top item is put in its place. -/
def nip (s : Stack) : Checked Reason Stack := do
  require 2 s
  let place ← sub s.reverse.length 2
  let last ← index s.reverse (← sub s.reverse.length 1)
  let v ← update s.reverse place fun _ => last
  return v.dropLast.reverse

/-- Copies the top item below the second one. -/
def tuck (s : Stack) : Checked Reason Stack := do
  require 2 s
  let last ← index s.reverse (← sub s.reverse.length 1)
  let (below, two) ← splitAt s.reverse (← sub s.reverse.length 2)
  return (below ++ [last] ++ two).reverse

/-- Moves or copies items, if there are enough of them. -/
def moveItems (op : StackOp) (s : Stack) : Checked Reason Stack :=
  match op with
  | .drop n => discard n s
  | .dup n => dup n s
  | .copyOver n => copyOver n s
  | .rotate n => rotate n s
  | .swap n => swap n s
  | .nip => nip s
  | .tuck => tuck s

/-! ## The same stacks -/

section Items

variable {s : Stack} {i n : Nat}

theorem require_eq (h : n ≤ s.length) : require n s = .done () := if_neg (by omega)

theorem require_failed (h : s.length < n) : require n s = .failed .invalidStackOperation := if_pos h

/-- Where an item at a known depth stands in the vector of a stack. -/
theorem exists_place {x : Item} (h : s[i]? = some x) :
    ∃ above below, s = above ++ x :: below ∧ above.length = i ∧
      s.reverse = below.reverse ++ x :: above.reverse ∧
      sub s.reverse.length (i + 1) = some below.reverse.length := by
  obtain ⟨above, below, rfl, rfl⟩ := Stack.exists_append_cons_of_getElem? h
  have hreverse : (above ++ x :: below).reverse = below.reverse ++ x :: above.reverse := by simp
  refine ⟨above, below, rfl, rfl, hreverse, ?_⟩
  have hcount : (x :: above.reverse).length = above.length + 1 := by simp
  rw [hreverse, ← hcount]
  exact sub_length_append _ _

theorem top_eq (hi : i + 1 < wordSpan) :
    top i s = .answer (match s[i]? with
      | some x => .ok x
      | none => .error .invalidStackOperation) := by
  unfold top
  rw [lift_bind (add_eq hi)]
  cases hx : s[i]? with
  | none =>
      rw [List.getElem?_eq_none_iff] at hx
      rw [require_failed (by omega)]
      rfl
  | some x =>
      obtain ⟨above, below, hs, hlength, hreverse, hplace⟩ := exists_place hx
      rw [require_eq (by simp [hs]; omega), done_bind, lift_bind hplace, hreverse,
        index_append_cons]
      rfl

@[simp] theorem top_zero_cons (x : Item) (s : Stack) : top 0 (x :: s) = .done x :=
  top_eq (by decide)

@[simp] theorem top_one_cons (x y : Item) (s : Stack) : top 1 (x :: y :: s) = .done y :=
  top_eq (by decide)

@[simp] theorem top_two_cons (x y z : Item) (s : Stack) : top 2 (x :: y :: z :: s) = .done z :=
  top_eq (by decide)

@[simp] theorem modifyTop_cons (f : Item → Item) (x : Item) (s : Stack) :
    modifyTop f (x :: s) = .done (f x :: s) := by
  have hplace : sub (s.reverse ++ [x]).length 1 = some s.reverse.length :=
    sub_length_append s.reverse [x]
  unfold modifyTop
  rw [lift_bind (add_eq (by decide)), require_eq (by simp), done_bind, List.reverse_cons,
    lift_bind hplace, lift_bind (update_append_cons _ _ _ _)]
  simp

theorem remove_eq (hi : i + 1 < wordSpan) {x : Item} (hx : s[i]? = some x) :
    remove i s = .done (x, s.eraseIdx i) := by
  obtain ⟨above, below, hs, hlength, hreverse, hplace⟩ := exists_place hx
  have herase : ((below.reverse ++ x :: above.reverse).eraseIdx below.reverse.length).reverse =
      s.eraseIdx i := by
    rw [Stack.eraseIdx_append_cons, hs, ← hlength, Stack.eraseIdx_append_cons]
    simp
  unfold remove
  rw [lift_bind (add_eq hi), require_eq (by simp [hs]; omega), done_bind, lift_bind hplace,
    hreverse, lift_bind (index_append_cons _ _ _), herase]
  rfl

end Items

theorem discard_of_le {s : Stack} {n : Nat} (h : n ≤ s.length) :
    discard n s = .done (s.drop n) := by
  have hle : n ≤ s.reverse.length := by rwa [List.length_reverse]
  unfold discard
  rw [require_eq h, done_bind, lift_bind (sub_eq hle), List.reverse_take, List.reverse_reverse,
    Nat.sub_sub_self hle]
  rfl

@[simp] theorem discard_one_cons (x : Item) (s : Stack) : discard 1 (x :: s) = .done s :=
  discard_of_le (by simp)

@[simp] theorem discard_two_cons (x y : Item) (s : Stack) : discard 2 (x :: y :: s) = .done s :=
  discard_of_le (by simp)

@[simp] theorem discard_three_cons (x y z : Item) (s : Stack) :
    discard 3 (x :: y :: z :: s) = .done s := discard_of_le (by simp)

/-! ## The same blocks

The vector of a stack is the stack with the top item last, so the blocks of `Stack.Moves` are parts
of the vector itself. -/

section Blocks

variable {B X₁ X₂ X₃ : Stack} {n : Nat}

theorem discard_blocks (h₁ : X₁.length = n) : discard n (B ++ X₁).reverse = .done B.reverse := by
  have hle : n ≤ (B ++ X₁).reverse.length := by
    rw [List.length_reverse, List.length_append]
    omega
  rw [discard_of_le hle, List.reverse_append, List.drop_left' (List.length_reverse.trans h₁)]

theorem dup_blocks (h₁ : X₁.length = n) :
    dup n (B ++ X₁).reverse = .done (B ++ X₁ ++ X₁).reverse := by
  subst h₁
  unfold dup
  rw [require_eq (by simp), done_bind, List.reverse_reverse, lift_bind (sub_length_append B X₁),
    lift_bind (sliceFrom_append B X₁)]
  rfl

@[simp] theorem dup_one_cons (x : Item) (s : Stack) : dup 1 (x :: s) = .done (x :: x :: s) := by
  have hdup : dup 1 (s.reverse ++ [x]).reverse = _ := dup_blocks rfl
  simpa using hdup

/-- Where two blocks stand in a vector. -/
theorem start_of_two (h₁ : X₁.length = n) (h₂ : X₂.length = n)
    (hs : (B ++ X₁ ++ X₂).length < wordSpan) :
    mul n 2 = some (n * 2) ∧ n * 2 ≤ (B ++ X₁ ++ X₂).reverse.length ∧
      sub (B ++ X₁ ++ X₂).length (n * 2) = some B.length ∧
      add B.length n = some (B ++ X₁).length := by
  have hblocks : n * 2 = (X₁ ++ X₂).length := by
    rw [List.length_append]
    omega
  simp only [List.length_append] at hs
  refine ⟨mul_eq (by omega), ?_, ?_, ?_⟩
  · simp only [List.length_reverse, List.length_append]
    omega
  · rw [hblocks, List.append_assoc, sub_length_append]
  · rw [add_eq (by omega), List.length_append, h₁]

theorem copyOver_blocks (h₁ : X₁.length = n) (h₂ : X₂.length = n)
    (hs : (B ++ X₁ ++ X₂).length < wordSpan) :
    copyOver n (B ++ X₁ ++ X₂).reverse = .done (B ++ X₁ ++ X₂ ++ X₁).reverse := by
  obtain ⟨hcount, hle, hstart, hstop⟩ := start_of_two h₁ h₂ hs
  unfold copyOver
  rw [lift_bind hcount, require_eq hle, done_bind, List.reverse_reverse, lift_bind hstart,
    lift_bind hstop, List.length_append, lift_bind (slice_append B X₁ X₂)]
  rfl

theorem swap_blocks (h₁ : X₁.length = n) (h₂ : X₂.length = n)
    (hs : (B ++ X₁ ++ X₂).length < wordSpan) :
    swap n (B ++ X₁ ++ X₂).reverse = .done (B ++ X₂ ++ X₁).reverse := by
  obtain ⟨hcount, hle, hstart, hmid⟩ := start_of_two h₁ h₂ hs
  have hright : splitAt X₂ n = some (X₂, []) := by
    rw [← h₂]
    simpa using splitAt_append X₂ []
  have hexchange : exchange X₁ X₂ = some (X₂, X₁) := if_pos (h₁.trans h₂.symm)
  unfold swap
  rw [lift_bind hcount, require_eq hle, done_bind, List.reverse_reverse, lift_bind hstart,
    lift_bind hmid, lift_bind (splitAt_append (B ++ X₁) X₂)]
  dsimp only
  rw [lift_bind (splitAt_append B X₁)]
  dsimp only
  rw [lift_bind hright]
  dsimp only
  rw [lift_bind hexchange, List.append_nil]
  rfl

theorem rotate_blocks (h₁ : X₁.length = n) (h₂ : X₂.length = n) (h₃ : X₃.length = n)
    (hs : (B ++ X₁ ++ X₂ ++ X₃).length < wordSpan) :
    rotate n (B ++ X₁ ++ X₂ ++ X₃).reverse = .done (B ++ X₂ ++ X₃ ++ X₁).reverse := by
  have hvector : B ++ X₁ ++ X₂ ++ X₃ = B ++ (X₁ ++ (X₂ ++ X₃)) := by simp only [List.append_assoc]
  have hblocks : n * 3 = (X₁ ++ (X₂ ++ X₃)).length := by
    rw [List.length_append, List.length_append]
    omega
  have hle : n * 3 ≤ (B ++ (X₁ ++ (X₂ ++ X₃))).length := by
    rw [List.length_append]
    omega
  have hstart : sub (B ++ (X₁ ++ (X₂ ++ X₃))).length (n * 3) = some B.length := by
    rw [hblocks, sub_length_append]
  have hleft : splitAt (X₁ ++ (X₂ ++ X₃)) n = some (X₁, X₂ ++ X₃) := by
    rw [← h₁, splitAt_append]
  rw [hvector] at hs ⊢
  unfold rotate
  rw [lift_bind (mul_eq (by omega)), require_eq (by rwa [List.length_reverse]), done_bind,
    List.reverse_reverse, lift_bind hstart, lift_bind (splitAt_append B _)]
  dsimp only
  rw [lift_bind hleft, List.append_assoc B X₂ X₃]
  rfl

/-- Where two items stand at the end of a vector. -/
theorem two_on_top (B : Stack) (x₁ x₂ : Item) :
    2 ≤ (B ++ [x₁, x₂]).reverse.length ∧ sub (B ++ [x₁, x₂]).length 2 = some B.length ∧
      sub (B ++ [x₁, x₂]).length 1 = some (B ++ [x₁]).length ∧
      index (B ++ [x₁, x₂]) (B ++ [x₁]).length = some x₂ := by
  have hcut : B ++ [x₁, x₂] = (B ++ [x₁]) ++ [x₂] := by simp
  refine ⟨by simp, sub_length_append B [x₁, x₂], ?_, ?_⟩
  · rw [hcut]
    exact sub_length_append (B ++ [x₁]) [x₂]
  · rw [hcut]
    exact index_append_cons (B ++ [x₁]) x₂ []

theorem nip_blocks (x₁ x₂ : Item) : nip (B ++ [x₁, x₂]).reverse = .done (B ++ [x₂]).reverse := by
  obtain ⟨hle, hplace, hlast, hx⟩ := two_on_top B x₁ x₂
  unfold nip
  rw [require_eq hle, done_bind, List.reverse_reverse, lift_bind hplace, lift_bind hlast,
    lift_bind hx, lift_bind (update_append_cons B x₁ [x₂] _)]
  simp

theorem tuck_blocks (x₁ x₂ : Item) :
    tuck (B ++ [x₁, x₂]).reverse = .done (B ++ [x₂, x₁, x₂]).reverse := by
  obtain ⟨hle, hplace, hlast, hx⟩ := two_on_top B x₁ x₂
  unfold tuck
  rw [require_eq hle, done_bind, List.reverse_reverse, lift_bind hlast, lift_bind hx,
    lift_bind hplace, lift_bind (splitAt_append B [x₁, x₂])]
  simp

end Blocks

section MoveItems

variable {op : StackOp} {s t : Stack}

theorem moveItems_of_moves (h : Stack.Moves op s t) (hs : s.length < wordSpan) :
    moveItems op s.reverse = .done t.reverse := by
  cases h with
  | drop h₁ => exact discard_blocks h₁
  | dup h₁ => exact dup_blocks h₁
  | copyOver h₁ h₂ => exact copyOver_blocks h₁ h₂ hs
  | rotate h₁ h₂ h₃ => exact rotate_blocks h₁ h₂ h₃ hs
  | swap h₁ h₂ => exact swap_blocks h₁ h₂ hs
  | nip => exact nip_blocks _ _
  | tuck => exact tuck_blocks _ _

theorem moveItems_of_short (hop : op.named < wordSpan) (h : s.length < op.named) :
    moveItems op s = .failed .invalidStackOperation := by
  cases op with
  | drop n => rw [moveItems, discard, require_failed (show s.length < n from h), failed_bind]
  | dup n => rw [moveItems, dup, require_failed (show s.length < n from h), failed_bind]
  | nip => rw [moveItems, nip, require_failed (show s.length < 2 from h), failed_bind]
  | tuck => rw [moveItems, tuck, require_failed (show s.length < 2 from h), failed_bind]
  | copyOver n =>
      rw [StackOp.named, Nat.mul_comm] at hop h
      rw [moveItems, copyOver, lift_bind (mul_eq hop), require_failed h, failed_bind]
  | rotate n =>
      rw [StackOp.named, Nat.mul_comm] at hop h
      rw [moveItems, rotate, lift_bind (mul_eq hop), require_failed h, failed_bind]
  | swap n =>
      rw [StackOp.named, Nat.mul_comm] at hop h
      rw [moveItems, swap, lift_bind (mul_eq hop), require_failed h, failed_bind]

/-- No guard strikes where the number of the items named is a word. -/
theorem moveItems_eq_answer (hop : op.named < wordSpan) (hs : s.length < wordSpan) :
    moveItems op s = .answer (Machine.moved (op.apply s)) := by
  rw [Stack.apply_eq_move]
  by_cases hshort : s.length < op.named
  · rw [moveItems_of_short hop hshort, Stack.move_eq_none_iff.mpr hshort]
    rfl
  · have henough : op.named ≤ s.reverse.length := by
      rw [List.length_reverse]
      omega
    obtain ⟨t, ht⟩ := Stack.exists_moves henough
    have hvector := moveItems_of_moves ht (by rwa [List.length_reverse])
    have hmove := Stack.move_of_moves ht
    rw [List.reverse_reverse] at hvector hmove
    rw [hvector, hmove]
    rfl

end MoveItems

/-- The number of items in the blocks that an operation moves or copies. -/
def blockSize : StackOp → Nat
  | .drop n => n
  | .dup n => n
  | .copyOver n => n
  | .rotate n => n
  | .swap n => n
  | .nip => 1
  | .tuck => 1

theorem named_le (op : StackOp) : op.named ≤ 3 * blockSize op := by
  cases op <;> simp only [StackOp.named, blockSize] <;> omega

theorem moveItems_eq {op : StackOp} {s : Stack} (hop : blockSize op ≤ 3)
    (hs : s.length < wordSpan) : moveItems op s = .answer (Machine.moved (op.apply s)) := by
  have hle := named_le op
  have hword : 9 < wordSpan := by decide
  exact moveItems_eq_answer (by omega) hs

/-! ## Numbers of items that are no word -/

section Overflow

variable {op : StackOp} {s : Stack} {i : Nat}

theorem top_of_overflow (h : wordSpan ≤ i + 1) : top i s = .stopped := by
  rw [top, lift_none_bind (add_eq_none h)]

theorem remove_of_overflow (h : wordSpan ≤ i + 1) : remove i s = .stopped := by
  rw [remove, lift_none_bind (add_eq_none h)]

/-- Where the blocks together have more items than a word counts, the guard of the product strikes
before the stack is looked at. -/
theorem moveItems_of_overflow (hblock : blockSize op < wordSpan) (hop : wordSpan ≤ op.named) :
    moveItems op s = .stopped := by
  cases op with
  | drop n => exact absurd hblock (Nat.not_lt.mpr hop)
  | dup n => exact absurd hblock (Nat.not_lt.mpr hop)
  | nip => exact absurd hop (by decide)
  | tuck => exact absurd hop (by decide)
  | copyOver n =>
      rw [StackOp.named, Nat.mul_comm] at hop
      rw [moveItems, copyOver, lift_none_bind (mul_eq_none hop)]
  | rotate n =>
      rw [StackOp.named, Nat.mul_comm] at hop
      rw [moveItems, rotate, lift_none_bind (mul_eq_none hop)]
  | swap n =>
      rw [StackOp.named, Nat.mul_comm] at hop
      rw [moveItems, swap, lift_none_bind (mul_eq_none hop)]

end Overflow

end Guarded

end BitcoinScript
