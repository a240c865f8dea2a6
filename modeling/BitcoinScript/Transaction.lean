import BitcoinScript.Hash

/-!
# Transactions

A transaction spends outputs of earlier transactions and makes new ones. Its serialization without
witnesses names it: the transaction id is the double SHA-256 of that string.

Numbers are little endian, and counts and lengths are written in compact form: one byte below
`0xfd`, otherwise a marker and two, four or eight bytes.
-/

namespace BitcoinScript

/-- The output that an input spends: the name of its transaction and its index there. -/
structure OutPoint where
  txid : Bytes32
  index : UInt32
deriving DecidableEq

/-- An input of a transaction. -/
structure TxInput where
  previous : OutPoint
  script : Bytes
  sequence : UInt32
  witness : List Bytes
deriving DecidableEq

/-- An output of a transaction. -/
structure TxOutput where
  value : UInt64
  script : Bytes
deriving DecidableEq

/-- A transaction. -/
structure Transaction where
  version : UInt32
  inputs : List TxInput
  outputs : List TxOutput
  lockTime : UInt32
deriving DecidableEq

/-- A count or length in compact form. -/
def compactSize (n : Nat) : Bytes :=
  if n < 0xfd then Bytes.le 1 n
  else if n ≤ 0xffff then 0xfd :: Bytes.le 2 n
  else if n ≤ 0xffffffff then 0xfe :: Bytes.le 4 n
  else 0xff :: Bytes.le 8 n

/-- A byte string with its length in front. -/
def sizedBytes (b : Bytes) : Bytes := compactSize b.length ++ b

/-- A list of values with their number in front. -/
def counted {α : Type} (write : α → Bytes) (xs : List α) : Bytes :=
  compactSize xs.length ++ xs.flatMap write

/-- Four bytes of a 32-bit number. -/
def uint32Bytes (n : UInt32) : Bytes := Bytes.le 4 n.toNat

/-- Eight bytes of a 64-bit number. -/
def uint64Bytes (n : UInt64) : Bytes := Bytes.le 8 n.toNat

/-- The bytes of an outpoint. -/
def OutPoint.serialize (o : OutPoint) : Bytes := o.txid.bytes ++ uint32Bytes o.index

/-- The bytes of an input, without its witness. -/
def TxInput.serialize (i : TxInput) : Bytes :=
  i.previous.serialize ++ sizedBytes i.script ++ uint32Bytes i.sequence

/-- The bytes of an output. -/
def TxOutput.serialize (o : TxOutput) : Bytes := uint64Bytes o.value ++ sizedBytes o.script

namespace Transaction

/-- The bytes of a transaction, without witnesses. -/
def serialize (tx : Transaction) : Bytes :=
  uint32Bytes tx.version ++ counted TxInput.serialize tx.inputs ++
    counted TxOutput.serialize tx.outputs ++ uint32Bytes tx.lockTime

/-- The name of a transaction. -/
def id (tx : Transaction) : Bytes32 := Hash.hash256 tx.serialize

end Transaction

end BitcoinScript
