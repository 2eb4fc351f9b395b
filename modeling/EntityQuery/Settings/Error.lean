import EntityQuery.Settings.Basic
import EntityQuery.Text.ReadFailure

/-!
# Settings that cannot be had

What may be wrong with settings that come from outside, and the check that all of them go through
in the end.
-/

namespace EntityQuery

/-- Why a text is not the value that a variable should have. -/
inductive ValueFault where
  | emptyNumber
  | badDigit
  | tooLarge
  | notBoolean
  deriving DecidableEq, Repr

namespace ValueFault

def reason : ValueFault → String
  | emptyNumber => "cannot parse integer from empty string"
  | badDigit => "invalid digit found in string"
  | tooLarge => "number too large to fit in target type"
  | notBoolean => "provided string was not `true` or `false`"

end ValueFault

inductive SettingsError where
  /-- The value of an environment variable is no text. -/
  | stray (bytes : List Nat)
  | value (variableName text : String) (fault : ValueFault)
  | unreadable (failure : ReadFailure)
  | malformed (document : String)
  | outOfRange
  deriving DecidableEq, Repr

namespace SettingsError

/-- A malformed document has no wording of its own: where and how it is malformed is the reader's
business. -/
def message : SettingsError → String
  | stray bytes =>
    "Environment variable error: environment variable was not valid unicode: " ++
      Text.quotedBytes bytes
  | value variableName text fault =>
    s!"Parse error for {variableName}: {text} - {fault.reason}"
  | unreadable failure => s!"Parse error for yaml_file: file read failed - {failure.reason}"
  | malformed document => s!"Parse error for yaml_content: {document}"
  | outOfRange => s!"Validation error: {Settings.rangeMessage}"

end SettingsError

/-- The settings themselves, if they are valid. -/
def Settings.checked (s : Settings) : Except SettingsError Settings :=
  if s.isValid then .ok s else .error .outOfRange

end EntityQuery
