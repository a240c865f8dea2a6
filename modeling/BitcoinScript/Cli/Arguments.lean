import BitcoinScript.Text.Blank

/-!
# Arguments of a command

The arguments after a command are options and positional arguments in any order. An option is
written `--name value` or `--name=value`, and a switch `--name`; each may be given once. A value on
its own must not look like an option, a single dash aside. After `--` everything is positional.
-/

namespace BitcoinScript

namespace Cli

/-- What arguments a command takes. -/
structure ArgumentSpec where
  options : List String
  switches : List String
  positionals : Nat

/-- The arguments of a command. -/
structure Arguments where
  /-- The options given, with their values. -/
  options : List (String × String) := []
  /-- The switches given. -/
  switches : List String := []
  /-- The positional arguments, the last one first. -/
  positionals : List String := []

namespace Arguments

/-- The value of an option. -/
def option? (a : Arguments) (name : String) : Option String := a.options.lookup name

/-- Whether a switch is on. -/
def switch (a : Arguments) (name : String) : Bool := a.switches.contains name

/-- Adds the value of an option that was not given yet. -/
def addOption (a : Arguments) (name value : String) : Option Arguments :=
  if (a.option? name).isSome then none else some { a with options := (name, value) :: a.options }

/-- Switches on what was not switched on yet. -/
def addSwitch (a : Arguments) (name : String) : Option Arguments :=
  if a.switch name then none else some { a with switches := name :: a.switches }

/-- Adds a positional argument, if one more is taken. -/
def addPositional (spec : ArgumentSpec) (a : Arguments) (value : String) : Option Arguments :=
  if a.positionals.length < spec.positionals then
    some { a with positionals := value :: a.positionals }
  else none

/-- Whether an argument looks like an option: a dash and something after it. -/
def looksLikeOption (arg : String) : Bool :=
  match arg.toList with
  | '-' :: _ :: _ => true
  | _ => false

/-- The name and, after an equals sign, the value of an argument that starts with two dashes. -/
def long? (arg : String) : Option (String × Option String) :=
  match arg.toList with
  | '-' :: '-' :: rest =>
      let name := String.ofList (rest.takeWhile (· != '='))
      match rest.dropWhile (· != '=') with
      | [] => some (name, none)
      | _ :: value => some (name, some (String.ofList value))
  | _ => none

/-- Reads arguments that are all positional. -/
def readPositionals (spec : ArgumentSpec) (a : Arguments) : List String → Option Arguments
  | [] => some a
  | arg :: rest =>
      match a.addPositional spec arg with
      | some a => readPositionals spec a rest
      | none => none

/-- Reads arguments after the given ones. -/
def read (spec : ArgumentSpec) (a : Arguments) : List String → Option Arguments
  | [] => some a
  | arg :: rest =>
      if arg = "--" then readPositionals spec a rest
      else
        match long? arg with
        | some (name, some value) =>
            if spec.options.contains name then
              match a.addOption name value with
              | some a => read spec a rest
              | none => none
            else none
        | some (name, none) =>
            if spec.switches.contains name then
              match a.addSwitch name with
              | some a => read spec a rest
              | none => none
            else if spec.options.contains name then
              match rest with
              | [] => none
              | value :: rest =>
                  if looksLikeOption value then none
                  else
                    match a.addOption name value with
                    | some a => read spec a rest
                    | none => none
            else none
        | none =>
            if looksLikeOption arg then none
            else
              match a.addPositional spec arg with
              | some a => read spec a rest
              | none => none

end Arguments

end Cli

end BitcoinScript
