/-!
# Verification flags

A flag switches on one rule of verification. `Flags` holds the switches that are on, one field per
flag; `Flags.has` reads a switch by its flag, and `Flags.ofPred` sets all of them at once
(`has_ofPred`, `ext_has`).
-/

namespace BitcoinScript

/-- A rule of verification that can be switched on. -/
inductive Flag where
  /-- Run the script behind a script hash. -/
  | p2sh
  /-- Keys, signatures and hash types must have a defined form. -/
  | strictEncoding
  /-- Signatures must be strictly encoded. -/
  | derSignatures
  /-- Signatures must be strictly encoded with the smaller of the two possible `s`. -/
  | lowS
  /-- The extra item consumed by multiple signature checks must be empty. -/
  | nullDummy
  /-- Pushes and numbers must have the shortest form. -/
  | minimalData
  /-- The opcodes reserved for upgrades must not be executed. -/
  | discourageUpgradableNops
  /-- One item must be left on the stack. -/
  | cleanStack
  /-- Lock times are checked. -/
  | checkLockTime
  /-- Signatures may use the digest of the fork, and must under strict encoding. -/
  | forkId
  /-- The splice and bitwise opcodes are back. -/
  | monolith
  /-- The operation limit is raised. -/
  | magnetic
  /-- Size limits are lifted and `OP_RETURN` ends a script. -/
  | genesis
  /-- The last upgrade. -/
  | chronicle
deriving DecidableEq, Repr

namespace Flag

/-- All flags, in the order of their bits. -/
def all : List Flag :=
  [p2sh, strictEncoding, derSignatures, lowS, nullDummy, minimalData, discourageUpgradableNops,
    cleanStack, checkLockTime, forkId, monolith, magnetic, genesis, chronicle]

/-- The name of a flag. -/
def name : Flag → String
  | p2sh => "P2SH"
  | strictEncoding => "STRICTENC"
  | derSignatures => "DERSIG"
  | lowS => "LOW_S"
  | nullDummy => "NULLDUMMY"
  | minimalData => "MINIMALDATA"
  | discourageUpgradableNops => "DISCOURAGE_UPGRADABLE_NOPS"
  | cleanStack => "CLEANSTACK"
  | checkLockTime => "CHECKLOCKTIMEVERIFY"
  | forkId => "ENABLESIGHASHFORKID"
  | monolith => "MONOLITH"
  | magnetic => "MAGNETIC"
  | genesis => "GENESIS"
  | chronicle => "CHRONICLE"

/-- The flag with a given name. -/
def ofName? (name : String) : Option Flag :=
  all.find? (·.name == name)

theorem mem_all (x : Flag) : x ∈ all := by
  cases x <;> decide

end Flag

/-- The flags that are switched on. -/
structure Flags where
  p2sh : Bool := false
  strictEncoding : Bool := false
  derSignatures : Bool := false
  lowS : Bool := false
  nullDummy : Bool := false
  minimalData : Bool := false
  discourageUpgradableNops : Bool := false
  cleanStack : Bool := false
  checkLockTime : Bool := false
  forkId : Bool := false
  monolith : Bool := false
  magnetic : Bool := false
  genesis : Bool := false
  chronicle : Bool := false
deriving DecidableEq, Repr

namespace Flags

/-- No flag. -/
def none : Flags := {}

/-- Whether a flag is on. -/
def has (f : Flags) : Flag → Bool
  | .p2sh => f.p2sh
  | .strictEncoding => f.strictEncoding
  | .derSignatures => f.derSignatures
  | .lowS => f.lowS
  | .nullDummy => f.nullDummy
  | .minimalData => f.minimalData
  | .discourageUpgradableNops => f.discourageUpgradableNops
  | .cleanStack => f.cleanStack
  | .checkLockTime => f.checkLockTime
  | .forkId => f.forkId
  | .monolith => f.monolith
  | .magnetic => f.magnetic
  | .genesis => f.genesis
  | .chronicle => f.chronicle

/-- The flags for which a predicate holds. -/
def ofPred (p : Flag → Bool) : Flags where
  p2sh := p .p2sh
  strictEncoding := p .strictEncoding
  derSignatures := p .derSignatures
  lowS := p .lowS
  nullDummy := p .nullDummy
  minimalData := p .minimalData
  discourageUpgradableNops := p .discourageUpgradableNops
  cleanStack := p .cleanStack
  checkLockTime := p .checkLockTime
  forkId := p .forkId
  monolith := p .monolith
  magnetic := p .magnetic
  genesis := p .genesis
  chronicle := p .chronicle

@[simp] theorem has_ofPred (p : Flag → Bool) (x : Flag) : (ofPred p).has x = p x := by
  cases x <;> rfl

theorem ext_has {f g : Flags} (h : ∀ x, f.has x = g.has x) : f = g := by
  have hf : ∀ f : Flags, f = ofPred f.has := fun _ => rfl
  rw [hf f, hf g, funext h]

/-- The listed flags. -/
def ofList (xs : List Flag) : Flags := ofPred fun x => xs.contains x

/-- The flags in order. -/
def toList (f : Flags) : List Flag := Flag.all.filter f.has

/-- The flags of either set. -/
def union (f g : Flags) : Flags := ofPred fun x => f.has x || g.has x

/-- The flags of the first set that are not in the second. -/
def diff (f g : Flags) : Flags := ofPred fun x => f.has x && !g.has x

/-- Whether every flag of the second set is in the first. -/
def contains (f g : Flags) : Bool := Flag.all.all fun x => !g.has x || f.has x

/-- The sum of the bits of the flags, each flag twice the one before it. -/
def bits (f : Flags) : Nat :=
  Flag.all.foldr (fun x acc => (if f.has x then 1 else 0) + 2 * acc) 0

/-- Whether the splice, bitwise and shift opcodes can be used: from the upgrade that brought them
back on. -/
def monolithOpcodes (f : Flags) : Bool :=
  f.monolith || f.magnetic || f.genesis || f.chronicle

/-- The flags as text. -/
def text (f : Flags) : String :=
  let names := f.toList.map Flag.name
  "VerifyFlags(" ++ (if names.isEmpty then "0x0" else " | ".intercalate names) ++ ")"

@[simp] theorem has_union (f g : Flags) (x : Flag) : (f.union g).has x = (f.has x || g.has x) := by
  simp [union]

theorem contains_iff (f g : Flags) : f.contains g = true ↔ ∀ x, g.has x = true → f.has x = true := by
  simp only [contains, List.all_eq_true, Bool.or_eq_true, Bool.not_eq_true']
  constructor
  · intro h x hx
    rcases h x (Flag.mem_all x) with h' | h'
    · rw [hx] at h'; cases h'
    · exact h'
  · intro h x _
    by_cases hx : g.has x = true
    · exact Or.inr (h x hx)
    · exact Or.inl (by simpa using hx)

end Flags

end BitcoinScript
