import BitcoinScript.Item
import BitcoinScript.Rules.Limits

/-!
# Stacks

A stack is the list of its items, the top item first. The operations that move or copy blocks of
items answer `none` on a stack that is too short for them.

Written with the top on the right, `discard n` takes `B X₁` to `B`, `dup n` takes it to `B X₁ X₁`,
`copyOver n` takes `B X₁ X₂` to `B X₁ X₂ X₁`, `swap n` takes it to `B X₂ X₁`, and `rotate n` takes
`B X₁ X₂ X₃` to `B X₂ X₃ X₁`, where every `Xᵢ` has `n` items.
-/

namespace BitcoinScript

namespace Stack

variable {α : Type}

/-- The operation's result, if the stack has at least `n` items. -/
def require (n : Nat) (s : List α) (result : List α) : Option (List α) :=
  if n ≤ s.length then some result else none

/-- Takes `n` items off. -/
def discard (n : Nat) (s : List α) : Option (List α) :=
  require n s (s.drop n)

/-- Copies the top `n` items. -/
def dup (n : Nat) (s : List α) : Option (List α) :=
  require n s (s.take n ++ s)

/-- Copies the second block of `n` items to the top. -/
def copyOver (n : Nat) (s : List α) : Option (List α) :=
  require (2 * n) s ((s.drop n).take n ++ s)

/-- Moves the third block of `n` items to the top. -/
def rotate (n : Nat) (s : List α) : Option (List α) :=
  require (3 * n) s ((s.drop (2 * n)).take n ++ (s.take (2 * n) ++ s.drop (3 * n)))

/-- Exchanges the top two blocks of `n` items. -/
def swap (n : Nat) (s : List α) : Option (List α) :=
  require (2 * n) s ((s.drop n).take n ++ (s.take n ++ s.drop (2 * n)))

/-- Takes off the second item. -/
def nip : List α → Option (List α)
  | x :: _ :: rest => some (x :: rest)
  | _ => none

/-- Copies the top item below the second one. -/
def tuck : List α → Option (List α)
  | x :: y :: rest => some (x :: y :: x :: rest)
  | _ => none

/-- Takes out the item with `i` items above it. -/
def remove (i : Nat) (s : List α) : Option (α × List α) :=
  s[i]?.map fun x => (x, s.eraseIdx i)

/-- Replaces the item with `i` items above it by its image. -/
def update (i : Nat) (f : α → α) (s : List α) : Option (List α) :=
  if i < s.length then some (s.modify i f) else none

end Stack

/-- A stack of items, the top item first. -/
abbrev Stack := List Item

namespace Stack

/-- The union of the provenances of some items. -/
def provenance (s : Stack) : Provenance :=
  s.foldl (fun p x => p.union x.provenance) .literal

/-- The memory that an item is charged for. -/
def cost (x : Item) : Nat := Limits.itemOverhead + x.size

/-- The memory that a stack is charged for: the cost of all items. -/
def memory (s : Stack) : Nat :=
  s.foldl (fun acc x => acc + cost x) 0

/-- The number of bytes of all items. -/
def totalBytes (s : Stack) : Nat :=
  s.foldl (fun acc x => acc + x.size) 0

/-- The items from the bottom up, as text. -/
def text (s : Stack) : String :=
  "[" ++ ", ".intercalate (s.reverse.map Item.text) ++ "]"

theorem foldl_cost (s : Stack) (n : Nat) :
    s.foldl (fun acc x => acc + cost x) n = n + memory s := by
  induction s generalizing n with
  | nil => rfl
  | cons x rest ih =>
      have hcons : memory (x :: rest) = cost x + memory rest := by
        rw [memory, List.foldl_cons, ih, Nat.zero_add]
      rw [List.foldl_cons, ih, hcons, Nat.add_assoc]

@[simp] theorem memory_nil : memory [] = 0 := rfl

@[simp] theorem memory_cons (x : Item) (s : Stack) : memory (x :: s) = cost x + memory s := by
  rw [memory, List.foldl_cons, foldl_cost, Nat.zero_add]

@[simp] theorem memory_append (s t : Stack) : memory (s ++ t) = memory s + memory t := by
  induction s with
  | nil => simp
  | cons x rest ih => rw [List.cons_append, memory_cons, memory_cons, ih, Nat.add_assoc]

end Stack

end BitcoinScript
