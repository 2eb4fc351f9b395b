import EntityQuery.Expansion.Resolution

/-!
# Root streams and materialized streams

A root stream has all rows of an entity, and its selector returns them unchanged. Materializing a
stream applies its pending selector, so that an operator without a lambda sees the rows in the shape
in which they were projected. The new rows belong to a new source: one with the entity of the
selector if it is a single entity, otherwise a record whose entity-valued fields are known.
-/

namespace EntityQuery

open Expansion

/-- The stream of all rows of an entity. -/
def rootStream (entity : String) : Expansion Stream := do
  let _ ← entityType .expansion entity
  let source ← growForest (·.addSource (some entity) false)
  return {
    parameter := rowParameter entity
    sources := [source]
    needsProjection := false
    ordered := false
    cardinality := none
    rows := .entitySet entity
    selector := ← ref ((← forest).root source) }

/-- The entity that the rows of a stream have once the selector is applied. -/
def Stream.entity? (s : Stream) (f : Forest) : Option String :=
  match s.selector with
  | .rowRef r => (f.node r.node).entity
  | _ => none

/-- A field of a projected record that holds an entity. -/
structure EntityField where
  name : String
  entity : String
  isOptional : Bool
  deriving DecidableEq, Repr

/-- The entity-valued fields of what a selector returns. A reference to a record passes on the
fields of that record. -/
def entityFields (f : Forest) : Expr → List EntityField
  | .record fields => fields.filterMap fun (name, value) =>
    match value with
    | .rowRef r =>
      let n := f.node r.node
      n.entity.map (⟨name, ·, n.isOptional⟩)
    | _ => none
  | .rowRef r => (f.node r.node).children.filterMap fun c =>
    let n := f.node c
    match n.field, n.entity with
    | some name, some entity => if n.isRemoved then none else some ⟨name, entity, n.isOptional⟩
    | _, _ => none
  | _ => []

/-- A new source for the rows that a selector returns, seen as rows of `entity?` if that is
given. -/
def projectedSource (selector : Expr) (entity? : Option String) : Expansion SourceId := do
  let f ← forest
  let node? := match selector with
    | .rowRef r => some (f.node r.node)
    | _ => none
  match entity?, node?.bind (·.entity) with
  | some entity, _ => growForest (·.addSource (some entity) (node?.any (·.isOptional)))
  | none, some entity => growForest (·.addSource (some entity) (node?.any (·.isOptional)))
  | none, none =>
    let source ← growForest (·.addSource none false)
    let root := (← forest).root source
    (entityFields f selector).forM fun field => do
      let _ ← growForest (·.addField root field.name (some field.entity) field.isOptional)
    return source

/-- Applies the pending selector of a stream, if the rows do not have its shape already or are to be
rows of another entity. -/
def materialize (s : Stream) (entity? : Option String) : Expansion Stream := do
  let changesEntity := entity?.isSome && s.entity? (← forest) != entity?
  if !s.needsProjection && !changesEntity then return s
  let body ← s.resolve s.selector
  let source ← projectedSource s.selector entity?
  modifyTally fun t => { t with materializations := t.materializations + 1 }
  return { s with
    rows := .call .select [s.rows, .lambda [s.parameter] body] none
    sources := [source]
    selector := ← ref ((← forest).root source)
    needsProjection := false }

end EntityQuery
