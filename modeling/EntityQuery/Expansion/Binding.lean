import EntityQuery.Expansion.Context
import EntityQuery.Expr.Traversal

/-!
# Binding member chains

A member chain that starts at a row reference is matched against the navigation forest: a member
that names a navigation becomes the reference to the child it leads to, which is added to the
forest if it is new. Properties and unknown members stay as they are and are checked when the
reference is resolved. A member of a record expression is the field's value, so that projections
compose.
-/

namespace EntityQuery

open Expansion

/-- The member of a row that a navigation of its entity type may lead along. -/
def bindNavigation (ref : RowRef) (entity member : String) : Expansion Expr := do
  let type ← entityType .binding entity
  match type.navigation? member with
  | none => return .member (.rowRef ref) member
  | some edge =>
    let limit := (← settings).maxNavigationDepth
    let f ← forest
    if limit < f.depth ref.node + 1 then throw (.depthExceeded (ref.path ++ [member]) limit)
    let child ← growForest (·.follow ref.node edge)
    if f.size < (← forest).size then
      modifyTally fun t => { t with nodesBound := t.nodesBound + 1 }
    Expansion.ref child

/-- A member of a row. Nothing is bound through a collection. -/
def bindRowMember (ref : RowRef) (member : String) : Expansion Expr := do
  let f ← forest
  let node := f.node ref.node
  if node.isCollection then return .member (.rowRef ref) member
  match (f.child? ref.node member).filter fun c => (f.node c).field.isSome with
  | some field => return f.ref field
  | none =>
    match node.entity with
    | none => return .member (.rowRef ref) member
    | some entity => bindNavigation ref entity member

/-- A member of an expression that is bound already. -/
def bindMember (target : Expr) (member : String) : Expansion Expr :=
  match target with
  | .record fields => return (fields.lookup member).getD (.member (.record fields) member)
  | .rowRef ref => bindRowMember ref member
  | target => return .member target member

/-- Binds all member chains of an expression. -/
def bind (e : Expr) : Expansion Expr :=
  e.rewrite fun
    | .member target name => bindMember target name
    | e => return e

end EntityQuery
