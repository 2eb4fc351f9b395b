import EntityQuery.Catalog.Basic

/-!
# Consistent catalogs

A catalog is consistent if the names of its types are distinct, every type has a primary key of
declared properties, and the two keys of every navigation are declared on their sides and agree in
length and types. A catalog that `Catalog.checked` returns is consistent; other catalogs are used
as they are.
-/

namespace EntityQuery

/-- Two keys of the same positive length whose columns have the same types. -/
def sameShape (source target : List Property) : Bool :=
  source.length == target.length && !source.isEmpty &&
    (source.zip target).all fun (s, t) => s.dataType == t.dataType

namespace Catalog

/-- Checks one navigation of a type. -/
def checkNavigation (c : Catalog) (owner : EntityType) (e : NavigationEdge) :
    Except CatalogError Unit := do
  let some target := c.type? e.target | throw (.danglingNavigation owner.name e.name e.target)
  if e.isCollection && e.toPrincipal then throw (.collectionToPrincipal owner.name e.name)
  let source ← owner.propertiesNamed e.sourceKey
  let other ← target.propertiesNamed e.targetKey
  if !sameShape source other then
    throw (.keyShapeMismatch owner.name e.name e.foreignKey e.principalKey)

/-- Checks the key and the navigations of one type. -/
def checkType (c : Catalog) (t : EntityType) : Except CatalogError Unit := do
  if t.primaryKey.isEmpty then throw (.missingPrimaryKey t.name)
  let _ ← t.keyProperties
  t.navigations.forM (c.checkNavigation t)

/-- Refuses the first type whose name was defined before it. -/
def checkNames : List String → List EntityType → Except CatalogError Unit
  | _, [] => .ok ()
  | seen, t :: ts =>
    if t.name ∈ seen then .error (.duplicateEntity t.name) else checkNames (t.name :: seen) ts

/-- The catalog of the given types, if they are consistent with one another. -/
def checked (types : List EntityType) : Except CatalogError Catalog := do
  checkNames [] types
  let c : Catalog := ⟨types⟩
  types.forM c.checkType
  return c

end Catalog

end EntityQuery
