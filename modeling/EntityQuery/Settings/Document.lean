import EntityQuery.Settings.Error
import EntityQuery.Yaml.Reader

/-!
# Settings documents

Settings written in YAML. What is left out keeps its default and members that are no settings are
ignored, but a setting that is written twice makes the document malformed.
-/

namespace EntityQuery.Settings

def ofYaml? (y : Yaml) : Option Settings := do
  let members ← y.members?
  let plain : Settings := {}
  return {
    maxNavigationDepth :=
      ← Yaml.withDefault? members "max_navigation_depth" Yaml.nat? plain.maxNavigationDepth
    hoistCollections :=
      ← Yaml.withDefault? members "hoist_uncorrelated_collections" Yaml.bool?
        plain.hoistCollections
    nullSafeEquality :=
      ← Yaml.withDefault? members "null_safe_equality" Yaml.bool? plain.nullSafeEquality }

def ofDocument (text : String) : Except SettingsError Settings :=
  match Yaml.ofText? text >>= ofYaml? with
  | some s => s.checked
  | none => .error (.malformed text)

def ofFile (content : Except ReadFailure String) : Except SettingsError Settings :=
  match content with
  | .ok text => ofDocument text
  | .error failure => .error (.unreadable failure)

end EntityQuery.Settings
