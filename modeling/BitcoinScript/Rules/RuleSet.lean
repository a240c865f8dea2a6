import BitcoinScript.Rules.Epoch
import BitcoinScript.Rules.Limits

/-!
# Rule sets

A rule set is a named set of flags: those of an epoch, with or without the rules that relay policy
adds, or any other.
-/

namespace BitcoinScript

/-- A named set of flags. -/
structure RuleSet where
  name : String
  flags : Flags
deriving DecidableEq, Repr

namespace RuleSet

/-- The rules in force in an epoch. -/
def ofEpoch (e : Epoch) : RuleSet := ⟨e.name, e.flags⟩

/-- The rules before all upgrades. -/
def legacy : RuleSet := ofEpoch .legacy

/-- The rules that brought the splice and bitwise opcodes back. -/
def monolith : RuleSet := ofEpoch .monolith

/-- The rules that lifted the limits. -/
def genesis : RuleSet := ofEpoch .genesis

/-- The rules of the last upgrade. -/
def chronicle : RuleSet := ofEpoch .chronicle

/-- The rules in force unless others are chosen. -/
def standard : RuleSet := chronicle

/-- Adds the rules that relay policy applies on top of consensus. -/
def withPolicy (r : RuleSet) : RuleSet :=
  { r with flags := r.flags.union (.ofList [.minimalData, .discourageUpgradableNops]) }

/-- Whether every rule of the second set is in the first. -/
def isSupersetOf (r s : RuleSet) : Bool := r.flags.contains s.flags

/-- The rule set as text. -/
def text (r : RuleSet) : String := r.name ++ " (" ++ r.flags.text ++ ")"

end RuleSet

end BitcoinScript
