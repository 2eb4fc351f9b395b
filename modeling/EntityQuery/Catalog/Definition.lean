import EntityQuery.Catalog.Check

/-!
# Catalog definitions

The form in which people describe a catalog: keys may be one column or several, and what is left
out has a default. A principal key that is left out is the primary key of the principal side.
-/

namespace EntityQuery

/-- The columns of a key. One column written alone and a list of one column name the same key, but
only the list is a composite key. -/
inductive KeyColumns where
  | single (column : String)
  | composite (columns : List String)
  deriving DecidableEq, Repr

namespace KeyColumns

def columns : KeyColumns → List String
  | single column => [column]
  | composite columns => columns

def isComposite : KeyColumns → Bool
  | single _ => false
  | composite _ => true

end KeyColumns

structure NavigationDefinition where
  name : String
  target : String
  foreignKey : KeyColumns
  principalKey : Option KeyColumns := none
  toPrincipal : Bool := false
  collection : Bool := false
  required : Bool := true
  deriving DecidableEq, Repr

structure EntityDefinition where
  name : String
  key : KeyColumns
  properties : List Property
  navigations : List NavigationDefinition := []
  deriving DecidableEq, Repr

structure CatalogDefinition where
  entities : List EntityDefinition
  deriving DecidableEq, Repr

namespace CatalogDefinition

/-- The primary key of the entity of that name. Of two definitions the later one counts. -/
def primaryKey? (d : CatalogDefinition) (entity : String) : Option (List String) :=
  (d.entities.reverse.find? (·.name == entity)).map (·.key.columns)

/-- The edge that a navigation of `owner` defines, with its principal key filled in. -/
def edge (d : CatalogDefinition) (owner : String) (n : NavigationDefinition) :
    Except CatalogError NavigationEdge := do
  let principal := if n.toPrincipal then n.target else owner
  let principalKey ← match n.principalKey with
    | some key => pure key.columns
    | none =>
      match d.primaryKey? principal with
      | some key => pure key
      | none => throw (.danglingNavigation owner n.name n.target)
  return {
    name := n.name
    target := n.target
    foreignKey := n.foreignKey.columns
    principalKey
    toPrincipal := n.toPrincipal
    isCollection := n.collection
    isRequired := n.required }

def entityType (d : CatalogDefinition) (e : EntityDefinition) : Except CatalogError EntityType := do
  let navigations ← e.navigations.mapM (d.edge e.name)
  return { name := e.name, primaryKey := e.key.columns, properties := e.properties, navigations }

/-- The catalog that a definition describes, with its defaults filled in and checked. -/
def toCatalog (d : CatalogDefinition) : Except CatalogError Catalog := do
  Catalog.checked (← d.entities.mapM d.entityType)

end CatalogDefinition

end EntityQuery
