import EntityQuery.Expansion.Context
import EntityQuery.Expr.Traversal

/-!
# Comparing rows by their keys

An equality of two entities compares their primary keys, one of an entity with null compares the
key with nulls, and one of collections compares their owners. Entities of different types and
collections of different navigations are never equal. With null-safe equality, an equality that
reads a property of an optional row is guarded by that row.
-/

namespace EntityQuery

open Expansion

/-- What stands on one side of an equality. -/
inductive Operand where
  | entity (node : NodeId)
  | collection (node : NodeId)
  | null
  | other
  deriving DecidableEq, Repr

def Operand.of (f : Forest) : Expr → Operand
  | .rowRef ref =>
    let n := f.node ref.node
    if n.isCollection then .collection ref.node
    else if n.entity.isSome then .entity ref.node
    else .other
  | e => if e.isNull then .null else .other

/-- What an equality operator makes of two sides that are known to be equal or not. -/
def settled (op : BinaryOp) (equal : Bool) : Expr :=
  .bool (if op = .equal then equal else !equal)

/-- Widens the side that cannot be null if the other one can. -/
def widenPair (t : ScalarType) (left : Expr) (leftNullable : Bool) (right : Expr)
    (rightNullable : Bool) : Expr × Expr :=
  match leftNullable, rightNullable with
  | false, true => (.convert left t true, right)
  | true, false => (left, .convert right t true)
  | _, _ => (left, right)

/-- The rows whose properties an expression reads and that can be missing. Operator calls and
lambdas are not looked into. -/
def optionalReads (f : Forest) (e : Expr) : List RowRef :=
  e.gather fun
    | .member (.rowRef ref) _ => some (if (f.node ref.node).isOptional then [ref] else [])
    | .lambda .. | .call .. => some []
    | _ => none

/-- Drops every reference to a node that was referred to before. -/
def distinctNodes (refs : List RowRef) : List RowRef :=
  refs.foldl (fun seen r => if seen.any (·.node == r.node) then seen else seen ++ [r]) []

/-- An equality that is false whenever an optional row that it reads is missing. -/
def guardedEquality (f : Forest) (left right : Expr) : Expr :=
  match distinctNodes (optionalReads f left ++ optionalReads f right) with
  | [] => .eq left right
  | guards => .nullSafeEqual (guards.map .rowRef) left right

/-- An equality under the settings of the expansion. -/
def equality (op : BinaryOp) (left right : Expr) : Expansion Expr := do
  if op = .equal && (← settings).nullSafeEquality then
    return guardedEquality (← forest) left right
  else return .binary op left right

/-- The reads of an entity's key properties, with the properties. -/
def keyReads (n : NodeId) : Expansion (List (Expr × Property)) := do
  let type ← entityType .comparisons ((← node n).entity.getD "")
  let properties ← ofCatalog .comparisons type.keyProperties
  let row ← ref n
  return properties.map fun p => (.member row p.name, p)

/-- Compares two entities by their keys. A key of an optional row can be null. -/
def compareEntities (op : BinaryOp) (a b : NodeId) : Expansion Expr := do
  let x ← node a
  let y ← node b
  if x.entity ≠ y.entity then return settled op false
  let left ← keyReads a
  let right ← keyReads b
  let pairs := (left.zip right).map fun ((l, lp), (r, rp)) =>
    widenPair lp.dataType l (lp.nullable || x.isOptional) r (rp.nullable || y.isOptional)
  equality op (.key (pairs.map (·.1))) (.key (pairs.map (·.2)))

/-- Compares an entity with null, by its key. -/
def compareWithNull (op : BinaryOp) (n : NodeId) : Expansion Expr := do
  let reads ← keyReads n
  let parts := reads.map fun (read, p) => if p.nullable then read else .convert read p.dataType true
  let nulls := reads.map fun (_, p) => Expr.typedNull p.dataType
  return .binary op (.key parts) (.key nulls)

/-- Whether two collections are the same navigation of the same type of owner. -/
def sameNavigation (f : Forest) (a b : NodeId) : Bool :=
  let x := f.node a
  let y := f.node b
  let owner (n : Node) : Option (Option String) := n.parent.map fun p => (f.node p).entity
  x.edge == y.edge && owner x == owner y

/-- Compares two collections by their owners. -/
def compareCollections (op : BinaryOp) (a b : NodeId) : Expansion Expr := do
  let f ← forest
  setForest ((f.remove a).remove b)
  match (f.node a).parent, (f.node b).parent with
  | some x, some y =>
    if sameNavigation f a b then compareEntities op x y else return settled op false
  | _, _ => return settled op false

/-- Compares a collection with null, by its owner. -/
def compareCollectionWithNull (op : BinaryOp) (c : NodeId) : Expansion Expr := do
  let owner := (← node c).parent
  modifyForest (·.remove c)
  match owner with
  | some owner => compareWithNull op owner
  | none => return settled op false

/-- Rewrites one equality. -/
def compareSides (op : BinaryOp) (left right : Expr) : Expansion Expr := do
  let f ← forest
  match Operand.of f left, Operand.of f right with
  | .collection a, .collection b => compareCollections op a b
  | .collection c, .null | .null, .collection c => compareCollectionWithNull op c
  | .collection _, _ | _, .collection _ => throw (.collectionComparison op left right)
  | .entity a, .entity b => compareEntities op a b
  | .entity e, .null | .null, .entity e => compareWithNull op e
  | _, _ => equality op left right

/-- Rewrites all equalities of an expression; a call of `Equals` is one, too. -/
def compareByKeys (e : Expr) : Expansion Expr :=
  e.rewrite fun
    | .binary op left right =>
      if op.isEquality then compareSides op left right else return .binary op left right
    | .function "Equals" [left, right] => compareSides .equal left right
    | e => return e

end EntityQuery
