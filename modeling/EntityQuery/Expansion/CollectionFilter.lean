import EntityQuery.Expansion.KeyEquality

/-!
# Collections as filters

A reference to a collection becomes a filter over the target set that keeps the rows whose key
equals the owner's, provided that the owner's key is not null. A collection's count is the count of
that filter, and it has no other members. Collections are never joined into the row, so their nodes
leave the forest.
-/

namespace EntityQuery

open Expansion

/-- The predicate by which a row named `element` belongs to an owner. -/
def membership (owner : Expr) (element : String) (ownerKey elementKey : List Property) : Expr :=
  let pairs := ownerKey.zip elementKey
  let guards := pairs.map fun (o, _) =>
    let read := Expr.member owner o.name
    if o.nullable then read else .convert read o.dataType true
  let nulls := pairs.map fun (o, _) => Expr.typedNull o.dataType
  let parts := pairs.map fun (o, e) =>
    widenPair o.dataType (.member (.param element) e.name) e.nullable (.member owner o.name)
      o.nullable
  .and (.ne (.key guards) (.key nulls)) (.eq (.key (parts.map (·.1))) (.key (parts.map (·.2))))

/-- The filter that stands for a collection. -/
def collectionFilter (r : RowRef) : Expansion Expr := do
  let n ← node r.node
  match n.edge, n.parent with
  | some edge, some owner =>
    let ownerEntity := (← node owner).entity.getD ""
    let ownerType ← entityType .collections ownerEntity
    let targetType ← entityType .collections edge.target
    let ownerKey ← ofCatalog .collections (ownerType.propertiesNamed edge.sourceKey)
    let elementKey ← ofCatalog .collections (targetType.propertiesNamed edge.targetKey)
    if ownerKey.length ≠ elementKey.length then
      throw (.keyShapeMismatch .collections s!"{ownerEntity}.{edge.name}" ownerKey.length
        elementKey.length)
    let element ← freshName (rowParameter edge.target)
    let predicate := membership (← ref owner) element ownerKey elementKey
    modifyForest (·.remove r.node)
    return .call .filter [.entitySet edge.target, .lambda [element] predicate]
      (some (.collection ownerEntity edge.name))
  | _, _ => throw (.leftoverRow .collections r)

/-- What takes the place of a collection, or of a member of one. -/
def collectionAt (f : Forest) : Expr → Option (Expansion Expr)
  | .member (.rowRef r) name =>
    if (f.node r.node).isCollection then
      some <|
        if name = "Count" then do return .call .count [← collectionFilter r] none
        else throw (.collectionMember r.path name)
    else none
  | .rowRef r => if (f.node r.node).isCollection then some (collectionFilter r) else none
  | _ => none

/-- Puts filters for all collections of an expression. -/
def filterCollections (e : Expr) : Expansion Expr := do
  e.descend (collectionAt (← forest))

end EntityQuery
