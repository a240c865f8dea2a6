import BitcoinScript.Machine.Operation
import BitcoinScript.Machine.State

/-!
# Bits, equality and hashes

Bytes are shifted as one big-endian string of bits whose length stays: whole bytes are moved first,
then every byte is put together from two neighbours.
-/

namespace BitcoinScript

/-- The operation on two bytes. -/
def BitOp.eval (op : BitOp) (a b : UInt8) : UInt8 :=
  match op with
  | .and => a &&& b
  | .or => a ||| b
  | .xor => a ^^^ b

namespace Bytes

/-- Shifts a string of bits to the left. -/
def shiftLeft (n : Nat) (d : Bytes) : Bytes :=
  let moved := d.drop (n / 8) ++ List.replicate (min (n / 8) d.length) 0
  let k := UInt8.ofNat (n % 8)
  if k = 0 then moved
  else List.zipWith (fun b c => (b <<< k) ||| (c >>> (8 - k))) moved (moved.drop 1 ++ [0])

/-- Shifts a string of bits to the right. -/
def shiftRight (n : Nat) (d : Bytes) : Bytes :=
  let moved := List.replicate (min (n / 8) d.length) 0 ++ d.take (d.length - n / 8)
  let k := UInt8.ofNat (n % 8)
  if k = 0 then moved
  else List.zipWith (fun b c => (b <<< (8 - k)) ||| (c >>> k)) (0 :: moved) moved

/-- Shifts a string of bits in a direction. -/
def shift (d : Direction) (n : Nat) (b : Bytes) : Bytes :=
  match d with
  | .left => shiftLeft n b
  | .right => shiftRight n b

end Bytes

/-- The hash of an item's bytes. -/
def HashOp.eval (op : HashOp) (m : Packed) : Bytes :=
  match op with
  | .ripemd160 => Hash.ripemd160 m
  | .sha1 => Hash.sha1 m
  | .sha256 => Hash.sha256 m
  | .hash160 => Hash.hash160 m
  | .hash256 => Hash.doubleSha256 m

namespace Machine

/-- The item with other bytes. -/
def withBytes (x : Item) (b : Bytes) : Item := { x with data := .ofBytes b }

/-- Flips all bits of the top item. -/
def invert : Stack → Except Reason Stack
  | [] => .error .invalidStackOperation
  | x :: rest => .ok (withBytes x (x.bytes.map (~~~ ·)) :: rest)

/-- Combines the bits of the top two items, which must have one length. -/
def bitwise (op : BitOp) : Stack → Except Reason Stack
  | y :: x :: rest =>
      if x.size = y.size then
        .ok ((withBytes x (List.zipWith op.eval x.bytes y.bytes)).merge y.provenance :: rest)
      else .error .invalidOperandSize
  | _ => .error .invalidStackOperation

/-- Replaces the top two items by whether they have the same bytes. -/
def equal : Stack → Except Reason Stack
  | y :: x :: rest =>
      .ok (.ofBool (decide (x.data = y.data)) (x.provenance.union y.provenance) :: rest)
  | _ => .error .invalidStackOperation

/-- Takes the top two items off, which must have the same bytes. -/
def equalVerify : Stack → Except Reason Stack
  | y :: x :: rest =>
      if x.data = y.data then .ok rest else .error (.verify Opcode.equalVerify)
  | _ => .error .invalidStackOperation

/-- Shifts an item by a count; counts past a machine word saturate. The count is off the stack when
the item to shift turns out to be missing. -/
def shift (flags : Flags) (d : Direction) (s : State) : Outcome :=
  match s.stack with
  | [] => .fail .invalidStackOperation s
  | count :: rest =>
      match number flags count with
      | .error e => .fail e s
      | .ok n =>
          if n < 0 then .fail .invalidNumberRange s
          else
            match rest with
            | [] => .fail .invalidStackOperation { s with stack := [] }
            | x :: rest =>
                let shifted := withBytes x (Bytes.shift d (min n.toNat Limits.wordMax) x.bytes)
                .next { s with stack := shifted.merge count.provenance :: rest }

/-- Replaces the top item by a hash of it. -/
def hash (op : HashOp) : Stack → Except Reason Stack
  | [] => .error .invalidStackOperation
  | x :: rest => .ok (withBytes x (op.eval x.data) :: rest)

end Machine

end BitcoinScript
