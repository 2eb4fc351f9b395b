import EntityQuery.Settings.Error

/-!
# Settings from the environment

Each setting has an environment variable, and a variable that is not set leaves the default. The
variables are looked at one after the other and the first fault counts; the range of the depth is
checked last.
-/

namespace EntityQuery

/-- The values of environment variables. They are bytes, which need not be a text. -/
abbrev Environment := List (String × List Nat)

namespace Settings

/-- Reads decimal digits behind the number `n`. A character that is no digit is found before the
number that it would end grows too large. -/
def numberFrom (n : Nat) : List Char → Except ValueFault Nat
  | [] => .ok n
  | c :: cs =>
    if !c.isDigit then .error .badDigit
    else
      let next := 10 * n + (c.toNat - '0'.toNat)
      if next < UInt64.size then numberFrom next cs else .error .tooLarge

/-- A number below `2 ^ 64`; a plus sign may stand in front of its digits. -/
def numberOf (text : String) : Except ValueFault Nat :=
  match text.toList with
  | [] => .error .emptyNumber
  | ['+'] => .error .badDigit
  | '+' :: cs => numberFrom 0 cs
  | cs => numberFrom 0 cs

def booleanOf (text : String) : Except ValueFault Bool :=
  if text = "true" then .ok true
  else if text = "false" then .ok false
  else .error .notBoolean

/-- The value of a variable as `read` understands it, or the default if it is not set. -/
def valueOf {α : Type} (environment : Environment) (name : String)
    (read : String → Except ValueFault α) (default : α) : Except SettingsError α :=
  match environment.lookup name with
  | none => .ok default
  | some bytes =>
    match Text.decode? bytes with
    | none => .error (.stray bytes)
    | some text => (read text).mapError (.value name text)

def ofEnvironment (environment : Environment) : Except SettingsError Settings := do
  let plain : Settings := {}
  let maxNavigationDepth ←
    valueOf environment "NAVEXPAND_MAX_NAVIGATION_DEPTH" numberOf plain.maxNavigationDepth
  let hoistCollections ←
    valueOf environment "NAVEXPAND_HOIST_COLLECTIONS" booleanOf plain.hoistCollections
  let nullSafeEquality ←
    valueOf environment "NAVEXPAND_NULL_SAFE_EQUALITY" booleanOf plain.nullSafeEquality
  checked { maxNavigationDepth, hoistCollections, nullSafeEquality }

end Settings

end EntityQuery
