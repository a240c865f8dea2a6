import BitcoinScript.Rules.Flags

/-!
# Epochs

The rules changed in ten upgrades. Each upgrade switches some flags on and none off, so the flags in
force in an epoch are those of all upgrades up to it.
-/

namespace BitcoinScript

/-- The upgrades, in the order of their activation. -/
inductive Epoch where
  | legacy
  | p2sh
  | bip66
  | bip65
  | uahf
  | daa
  | monolith
  | magnetic
  | genesis
  | chronicle
deriving DecidableEq, Repr

namespace Epoch

/-- All epochs in order. -/
def all : List Epoch :=
  [legacy, p2sh, bip66, bip65, uahf, daa, monolith, magnetic, genesis, chronicle]

/-- The place of an epoch in the order. -/
def position (e : Epoch) : Nat := e.ctorIdx

/-- The name of an epoch. -/
def name : Epoch → String
  | legacy => "legacy"
  | p2sh => "p2sh"
  | bip66 => "bip66"
  | bip65 => "bip65"
  | uahf => "uahf"
  | daa => "daa"
  | monolith => "monolith"
  | magnetic => "magnetic"
  | genesis => "genesis"
  | chronicle => "chronicle"

/-- The flags that an upgrade switches on. -/
def activated : Epoch → Flags
  | legacy => .none
  | p2sh => .ofList [.p2sh]
  | bip66 => .ofList [.derSignatures]
  | bip65 => .ofList [.checkLockTime]
  | uahf => .ofList [.strictEncoding, .forkId]
  | daa => .ofList [.lowS]
  | monolith => .ofList [.monolith]
  | magnetic => .ofList [.magnetic, .nullDummy, .cleanStack]
  | genesis => .ofList [.genesis]
  | chronicle => .ofList [.chronicle]

/-- The flags in force in an epoch. -/
def flags (e : Epoch) : Flags :=
  (all.takeWhile (·.position ≤ e.position)).foldl (fun acc x => acc.union x.activated) .none

/-- The epoch with a given name, ASCII case aside. -/
def ofName? (text : String) : Option Epoch :=
  let lower := text.map Char.toLower
  all.find? (·.name == lower)

/-- The complaint about a name that no epoch has. -/
def unknownMessage (text : String) : String :=
  "unknown epoch `" ++ text ++ "`, expected one of: " ++ ", ".intercalate (all.map name)

end Epoch

end BitcoinScript
