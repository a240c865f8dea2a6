import BitcoinScript.Bytes.Hex
import BitcoinScript.Bytes.Packed

/-!
# Stack items

An item is a byte string with two marks that execution carries along: the kind of value it was made
as, and its provenance, which tells constants of the script from values that depend on the state of
the machine.
-/

namespace BitcoinScript

/-- Where a value comes from. -/
inductive Provenance where
  /-- Made from constants of a script alone. -/
  | literal
  /-- Made, at least in part, from the state of the machine. -/
  | derived
deriving DecidableEq, Repr

namespace Provenance

/-- The provenance of a value made from two others: derived if one of them is. -/
def union : Provenance → Provenance → Provenance
  | .literal, .literal => .literal
  | _, _ => .derived

/-- The name of a provenance. -/
def name : Provenance → String
  | .literal => "Literal"
  | .derived => "Derived"

@[simp] theorem literal_union (p : Provenance) : literal.union p = p := by cases p <;> rfl

@[simp] theorem union_literal (p : Provenance) : p.union literal = p := by cases p <;> rfl

@[simp] theorem derived_union (p : Provenance) : derived.union p = derived := by cases p <;> rfl

@[simp] theorem union_derived (p : Provenance) : p.union derived = derived := by cases p <;> rfl

theorem union_comm (p q : Provenance) : p.union q = q.union p := by cases p <;> cases q <;> rfl

theorem union_assoc (p q r : Provenance) : (p.union q).union r = p.union (q.union r) := by
  cases p <;> cases q <;> cases r <;> rfl

end Provenance

/-- What a value was made as. -/
inductive Kind where
  | bytes
  | int
  | bool
  | string
deriving DecidableEq, Repr

/-- The name of a kind. -/
def Kind.name : Kind → String
  | .bytes => "Bytes"
  | .int => "Int"
  | .bool => "Bool"
  | .string => "String"

/-- A value on the stack. -/
structure Item where
  data : Packed
  kind : Kind
  provenance : Provenance
deriving DecidableEq

namespace Item

/-- The bytes of an item. -/
def bytes (x : Item) : Bytes := x.data.bytes

/-- The number of bytes of an item. -/
def size (x : Item) : Nat := x.data.size

/-- An item with the given bytes. -/
def ofBytes (b : Bytes) (p : Provenance) : Item := ⟨.ofBytes b, .bytes, p⟩

/-- A constant of a script. -/
def literal (b : Bytes) : Item := ofBytes b .literal

/-- An item that holds a number. -/
def ofInt (n : Int) (p : Provenance) : Item := ⟨.ofBytes (Number.encode n), .int, p⟩

/-- An item that holds a truth value. -/
def ofBool (b : Bool) (p : Provenance) : Item := ⟨.ofBytes (Number.ofBool b), .bool, p⟩

/-- The item marked as another kind. -/
def withKind (x : Item) (k : Kind) : Item := { x with kind := k }

/-- The item made to depend on a further value. -/
def merge (x : Item) (p : Provenance) : Item := { x with provenance := x.provenance.union p }

/-- Whether the item counts as true. -/
def isTrue (x : Item) : Bool := x.data.isTrue

/-- The item as a number, under the size bound and the rule of minimality of `Number.decode`. -/
def toInt (x : Item) (requireMinimal : Bool) (maxSize : Nat) : Except Number.Error Int :=
  if x.size > maxSize then .error .overflow else Number.decode requireMinimal maxSize x.bytes

/-- The item as text: its bytes, with a star if it is derived. -/
def text (x : Item) : String :=
  (if x.size = 0 then "<empty>" else Hex.encode x.bytes) ++
    (if x.provenance = .derived then "*" else "")

@[simp] theorem length_bytes (x : Item) : x.bytes.length = x.size := by
  simp [bytes, size]

@[simp] theorem bytes_ofBytes (b : Bytes) (p : Provenance) : (ofBytes b p).bytes = b := by
  simp [bytes, ofBytes]

@[simp] theorem bytes_literal (b : Bytes) : (literal b).bytes = b := by
  simp [literal]

@[simp] theorem bytes_ofInt (n : Int) (p : Provenance) : (ofInt n p).bytes = Number.encode n := by
  simp [bytes, ofInt]

@[simp] theorem bytes_ofBool (b : Bool) (p : Provenance) :
    (ofBool b p).bytes = Number.ofBool b := by
  simp [bytes, ofBool]

theorem isTrue_eq (x : Item) : x.isTrue = Number.isTrue x.bytes :=
  Packed.isTrue_eq x.data

theorem toInt_eq (x : Item) (requireMinimal : Bool) (maxSize : Nat) :
    x.toInt requireMinimal maxSize = Number.decode requireMinimal maxSize x.bytes := by
  unfold toInt
  split
  · rename_i h
    simp [Number.decode, h]
  · rfl

end Item

end BitcoinScript
