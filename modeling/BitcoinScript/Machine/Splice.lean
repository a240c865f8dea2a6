import BitcoinScript.Machine.State

/-!
# Joining, cutting and resizing items
-/

namespace BitcoinScript

namespace Packed

/-- Widens a minimal number to `size` bytes: zero bytes are put below the sign, which moves to the
new last byte. -/
def widen (size : Nat) (raw : Packed) : Packed :=
  if raw.size = 0 then zeros size
  else
    let top := byteAt raw (raw.size - 1)
    (raw.extract 0 (raw.size - 1)).push (top &&& 0x7f) ++ zeros (size - 1 - raw.size) ++
      ofBytes [top &&& 0x80]

end Packed

namespace Machine

/-- Joins the top two items. -/
def cat (limits : Limits) : Stack → Except Reason Stack
  | y :: x :: rest =>
      if x.size + y.size > limits.elementSize then .error .pushSize
      else .ok (({ x with data := x.data ++ y.data } : Item).merge y.provenance :: rest)
  | _ => .error .invalidStackOperation

/-- Cuts an item in two at a position. -/
def split (flags : Flags) : Stack → Except Reason Stack
  | [] => .error .invalidStackOperation
  | position :: rest =>
      match number flags position with
      | .error e => .error e
      | .ok n =>
          match rest with
          | [] => .error .invalidStackOperation
          | x :: rest =>
              if 0 ≤ n ∧ n ≤ x.size then
                let p := x.provenance.union position.provenance
                let left : Item := ⟨x.data.extract 0 n.toNat, .bytes, p⟩
                let right : Item := ⟨x.data.extract n.toNat x.size, .bytes, p⟩
                .ok (right :: left :: rest)
              else .error .invalidSplitRange

/-- Fails if the stacks would exceed their memory once the top `consumed` items are replaced by one
of the given length. -/
def reserve (bound : StackBound) (altStack : Stack) (consumed length : Nat) (s : Stack) :
    Except Reason Unit :=
  match bound with
  | .depth _ => .ok ()
  | .memory bytes =>
      let released := Stack.memory (s.take consumed)
      let usage := Stack.memory s + Stack.memory altStack - released
      if usage + Limits.itemOverhead + length > bytes then .error .stackMemory else .ok ()

/-- Writes a number with a given size. -/
def numToBin (flags : Flags) (altStack : Stack) : Stack → Except Reason Stack
  | [] => .error .invalidStackOperation
  | size :: rest =>
      match number flags size with
      | .error e => .error e
      | .ok n =>
          if n < 0 ∨ n > flags.limits.elementSize then .error .pushSize
          else
            match reserve flags.limits.stack altStack 2 n.toNat (size :: rest) with
            | .error e => .error e
            | .ok () =>
                match rest with
                | [] => .error .invalidStackOperation
                | x :: rest =>
                    let raw := x.data.minimize
                    let p := x.provenance.union size.provenance
                    if raw.size > n.toNat then .error .impossibleEncoding
                    else if raw.size = n.toNat then .ok (⟨raw, .int, p⟩ :: rest)
                    else .ok (⟨.widen n.toNat raw, .int, p⟩ :: rest)

/-- Writes a number in its minimal form. -/
def binToNum (limits : Limits) : Stack → Except Reason Stack
  | [] => .error .invalidStackOperation
  | x :: rest =>
      let raw := x.data.minimize
      if raw.size > limits.numberSize then .error .invalidNumberRange
      else .ok (⟨raw, .int, x.provenance⟩ :: rest)

/-- Pushes the size of the top item. -/
def size : Stack → Except Reason Stack
  | [] => .error .invalidStackOperation
  | x :: rest => .ok (.ofInt x.size x.provenance :: x :: rest)

end Machine

end BitcoinScript
