import BitcoinScript.Machine.Operation
import BitcoinScript.Machine.State

/-!
# Arithmetic on the stack

Operands are read from the deepest to the topmost, and a stack that is too short fails before any of
them is read. Results are as derived as the operands.
-/

namespace BitcoinScript

/-- The result of an operation with one operand. -/
def UnaryOp.eval (op : UnaryOp) (a : Int) : Int :=
  match op with
  | .increment => a + 1
  | .decrement => a - 1
  | .negate => -a
  | .absolute => a.natAbs
  | .isZero => if a = 0 then 1 else 0
  | .isNonZero => if a = 0 then 0 else 1

/-- A computed value. -/
inductive Value where
  | int (n : Int)
  | bool (b : Bool)
deriving DecidableEq, Repr

/-- The item that holds a value. -/
def Value.item (v : Value) (p : Provenance) : Item :=
  match v with
  | .int n => .ofInt n p
  | .bool b => .ofBool b p

/-- The result of an operation with two operands. Division and remainder go toward zero. -/
def BinaryOp.eval (op : BinaryOp) (a b : Int) : Except Reason Value :=
  match op with
  | .add => .ok (.int (a + b))
  | .sub => .ok (.int (a - b))
  | .mul => .ok (.int (a * b))
  | .div => if b = 0 then .error .divByZero else .ok (.int (a.tdiv b))
  | .mod => if b = 0 then .error .modByZero else .ok (.int (a.tmod b))
  | .both => .ok (.bool (a != 0 && b != 0))
  | .either => .ok (.bool (a != 0 || b != 0))
  | .equal => .ok (.bool (a == b))
  | .different => .ok (.bool (a != b))
  | .less => .ok (.bool (a < b))
  | .greater => .ok (.bool (a > b))
  | .lessOrEqual => .ok (.bool (a ≤ b))
  | .greaterOrEqual => .ok (.bool (a ≥ b))
  | .min => .ok (.int (if a ≤ b then a else b))
  | .max => .ok (.int (if a ≤ b then b else a))

namespace Machine

/-- Replaces the top number by a result. -/
def unary (flags : Flags) (op : UnaryOp) : Stack → Except Reason Stack
  | x :: rest =>
      match number flags x with
      | .ok a => .ok (.ofInt (op.eval a) x.provenance :: rest)
      | .error e => .error e
  | [] => .error .invalidStackOperation

/-- The top two numbers, the deeper one first. -/
def pair (flags : Flags) (x y : Item) : Except Reason (Int × Int) :=
  match number flags x with
  | .ok a =>
      match number flags y with
      | .ok b => .ok (a, b)
      | .error e => .error e
  | .error e => .error e

/-- Replaces the top two numbers by a result. -/
def binary (flags : Flags) (op : BinaryOp) : Stack → Except Reason Stack
  | y :: x :: rest =>
      match pair flags x y with
      | .ok (a, b) =>
          match op.eval a b with
          | .ok v => .ok (v.item (x.provenance.union y.provenance) :: rest)
          | .error e => .error e
      | .error e => .error e
  | _ => .error .invalidStackOperation

/-- Takes the top two numbers off, which must be equal. -/
def numEqualVerify (flags : Flags) : Stack → Except Reason Stack
  | y :: x :: rest =>
      match pair flags x y with
      | .ok (a, b) =>
          if a = b then .ok rest else .error (.verify Opcode.numEqualVerify)
      | .error e => .error e
  | _ => .error .invalidStackOperation

/-- Replaces a number and two bounds by whether the number lies between them. -/
def within (flags : Flags) : Stack → Except Reason Stack
  | high :: low :: x :: rest =>
      match pair flags x low with
      | .ok (n, a) =>
          match number flags high with
          | .ok b =>
              let p := (x.provenance.union low.provenance).union high.provenance
              .ok (.ofBool (a ≤ n && n < b) p :: rest)
          | .error e => .error e
      | .error e => .error e
  | _ => .error .invalidStackOperation

end Machine

end BitcoinScript
