import BitcoinScript.Bytes.Hex

/-!
# Hash types

The last byte of a signature says which parts of the transaction it commits to: a base type for the
outputs, a bit for leaving the other inputs open, and a bit for the digest of the fork.
-/

namespace BitcoinScript

/-- What a signature commits to. -/
structure HashType where
  value : UInt32
deriving DecidableEq, Repr

namespace HashType

/-- The hash type given by the last byte of a signature. -/
def ofByte (b : UInt8) : HashType := ⟨b.toUInt32⟩

/-- The five bits that choose among all outputs, none, or one. -/
def base (t : HashType) : UInt32 := t.value &&& 0x1f

/-- Whether the signature commits to no output. -/
def isNone (t : HashType) : Bool := t.base == 2

/-- Whether the signature commits to one output. -/
def isSingle (t : HashType) : Bool := t.base == 3

/-- Whether the signature commits to its own input only. -/
def anyoneCanPay (t : HashType) : Bool := t.value &&& 0x80 != 0

/-- Whether the signature asks for the digest of the fork. -/
def hasForkId (t : HashType) : Bool := t.value &&& 0x40 != 0

/-- Whether all bits but those two form one of the three base types. -/
def isDefined (t : HashType) : Bool :=
  let rest := t.value &&& 0xffffff3f
  1 ≤ rest && rest ≤ 3

/-- The name of a base type. -/
def baseName? (t : HashType) : Option String :=
  if t.base = 1 then some "ALL"
  else if t.base = 2 then some "NONE"
  else if t.base = 3 then some "SINGLE"
  else none

/-- The hash type as text: its names, or its value if the base type has no name. -/
def text (t : HashType) : String :=
  match t.baseName? with
  | some name =>
      name ++ (if t.hasForkId then "|FORKID" else "") ++
        (if t.anyoneCanPay then "|ANYONECANPAY" else "")
  | none =>
      let digits := Nat.toDigits 16 t.value.toNat
      "0x" ++ String.ofList (List.replicate (2 - digits.length) '0' ++ digits)

end HashType

end BitcoinScript
