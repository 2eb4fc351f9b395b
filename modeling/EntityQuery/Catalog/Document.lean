import EntityQuery.Catalog.Definition
import EntityQuery.Yaml.Reader

/-!
# Catalog documents

Catalog definitions written in YAML. Members that a definition does not know are ignored, a member
that is written twice makes the document malformed, and the values of known members must have the
right kind. Names may be written as any scalar; the columns of a key must be texts.
-/

namespace EntityQuery

/-- One text is a single column; a list of texts is a composite key. -/
def KeyColumns.ofYaml? (y : Yaml) : Option KeyColumns :=
  match y.pureItems? with
  | some items => (items.mapM Yaml.pureText?).map composite
  | none => y.pureText?.map single

/-- The name of the type, either as a text or as the tag of nothing. -/
def ScalarType.ofYaml? (y : Yaml) : Option ScalarType :=
  match y with
  | .tagged tag node =>
    if Yaml.isLocalTag tag then
      if node.isNull then ofName? (tag.drop 1).toString else none
    else node.text? >>= ofName?
  | y => y.text? >>= ofName?

def Property.ofYaml? (y : Yaml) : Option Property := do
  let members ← y.members?
  return {
    name := ← Yaml.required? members "name" Yaml.text?
    dataType := ← Yaml.required? members "type" ScalarType.ofYaml?
    nullable := ← Yaml.withDefault? members "nullable" Yaml.bool? false }

def NavigationDefinition.ofYaml? (y : Yaml) : Option NavigationDefinition := do
  let members ← y.members?
  let name ← Yaml.required? members "name" Yaml.text?
  let target ← Yaml.required? members "target" Yaml.text?
  let foreignKey ← Yaml.required? members "foreign_key" KeyColumns.ofYaml?
  let plain : NavigationDefinition := { name, target, foreignKey }
  return { plain with
    principalKey := ← Yaml.optional? members "principal_key" KeyColumns.ofYaml?
    toPrincipal := ← Yaml.withDefault? members "to_principal" Yaml.bool? plain.toPrincipal
    collection := ← Yaml.withDefault? members "collection" Yaml.bool? plain.collection
    required := ← Yaml.withDefault? members "required" Yaml.bool? plain.required }

def EntityDefinition.ofYaml? (y : Yaml) : Option EntityDefinition := do
  let members ← y.members?
  return {
    name := ← Yaml.required? members "name" Yaml.text?
    key := ← Yaml.required? members "key" KeyColumns.ofYaml?
    properties := ← Yaml.required? members "properties" (Yaml.listOf? Property.ofYaml?)
    navigations :=
      ← Yaml.withDefault? members "navigations" (Yaml.listOf? NavigationDefinition.ofYaml?) [] }

def CatalogDefinition.ofYaml? (y : Yaml) : Option CatalogDefinition := do
  let members ← y.members?
  return ⟨← Yaml.required? members "entities" (Yaml.listOf? EntityDefinition.ofYaml?)⟩

namespace Catalog

/-- The catalog that a document defines. -/
def ofDocument (text : String) : Except CatalogError Catalog :=
  match Yaml.ofText? text >>= CatalogDefinition.ofYaml? with
  | some definition => definition.toCatalog
  | none => .error .malformed

/-- The catalog that the file of a path defines. -/
def ofFile (path : String) (content : Except ReadFailure String) : Except CatalogError Catalog :=
  match content with
  | .ok text => ofDocument text
  | .error failure => .error (.unreadable path failure)

end Catalog

end EntityQuery
