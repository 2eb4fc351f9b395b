import EntityQuery.Expansion.Context
import EntityQuery.Expr.Substitution

/-!
# Joining rows

A reference can be read only if its node is present in the rows of the stream. `joinReferenced`
joins the target sets of all navigations that an expression needs, parents before children. A join
puts every row of the stream and its match into a pair record, so the old row is found under
`outer` and the match under `inner`. A required navigation becomes an inner join. An optional one
becomes a group join whose groups are flattened with a default, which wraps the old row twice.

`mergeStreams` joins two streams into one in the same way.
-/

namespace EntityQuery

open Expansion

/-- What a join puts in front of the paths of the rows that it wraps. -/
def JoinKind.wrapPath : JoinKind → List String
  | .inner => [Expr.outerField]
  | .leftOuter => [Expr.outerField, Expr.outerField]

/-- A key of one side of a join: the parameter that names a row there, and the key's value. -/
structure JoinKey where
  parameter : String
  value : Expr
  deriving Repr

def JoinKey.toExpr (k : JoinKey) : Expr := .lambda [k.parameter] k.value

/-- The lambda that puts two rows into a pair record. -/
def pairing (outer inner : String) : Expr :=
  .lambda [outer, inner] (.pairRecord (.param outer) (.param inner))

/-- One pair record per pair of rows with equal keys. -/
def innerJoin (outer inner : Expr) (outerKey innerKey : JoinKey) (note : JoinNote) : Expr :=
  .call .join
    [outer, inner, outerKey.toExpr, innerKey.toExpr,
      pairing outerKey.parameter innerKey.parameter]
    (some (.join note))

/-- One pair record per pair of rows with equal keys, and one with a null for every outer row
without a match. The outer row is wrapped twice: with its group, and with one row of the group. -/
def leftOuterJoin (outer inner : Expr) (outerKey innerKey : JoinKey) (note : JoinNote) :
    Expansion Expr := do
  let group ← freshName "g"
  let row ← freshName "t"
  let grouped := Expr.call .groupJoin
    [outer, inner, outerKey.toExpr, innerKey.toExpr, pairing outerKey.parameter group]
    (some (.join note))
  let elements := Expr.call .defaultIfEmpty [.member (.param row) Expr.innerField] none
  return .call .selectMany [grouped, .lambda [row] elements, pairing row innerKey.parameter]
    (some .leftJoinFlatten)

/-- A join of the kind that its note names. -/
def keyedJoin (outer inner : Expr) (outerKey innerKey : JoinKey) (note : JoinNote) :
    Expansion Expr :=
  match note.kind with
  | .inner => return innerJoin outer inner outerKey innerKey note
  | .leftOuter => leftOuterJoin outer inner outerKey innerKey note

/-- The two sides of one column of a navigation's key. A column is widened to a nullable type if
the other side can be null. Where the owner's row can be missing, its column is null then. -/
def navigationColumn (owner : Expr) (ownerOptional : Bool) (target : String) (o t : Property) :
    Expr × Expr :=
  let nullable := o.nullable || t.nullable || ownerOptional
  let widen (p : Property) (read : Expr) : Expr :=
    if nullable && !p.nullable then .convert read p.dataType true else read
  let read := widen o (.member owner o.name)
  let outer :=
    if ownerOptional then .cond (.eq owner .null) (.typedNull o.dataType) read else read
  (outer, widen t (.member (.param target) t.name))

/-- Joins the target of the navigation that leads to a node into the rows of a stream. -/
def joinNode (s : Stream) (n : NodeId) : Expansion Stream := do
  let f ← forest
  let child := f.node n
  match child.edge, child.parent with
  | some edge, some parentId =>
    let parent := f.node parentId
    let parentEntity := parent.entity.getD ""
    let parentType ← entityType .joining parentEntity
    let targetType ← entityType .joining edge.target
    let outerKey ← ofCatalog .joining (parentType.propertiesNamed edge.sourceKey)
    let innerKey ← ofCatalog .joining (targetType.propertiesNamed edge.targetKey)
    let navigation := s!"{parentEntity}.{edge.name}"
    if outerKey.length ≠ innerKey.length then
      throw (.keyShapeMismatch .joining navigation outerKey.length innerKey.length)
    let target ← freshName (rowParameter edge.target)
    let path ← match f.rowPath? parentId with
      | some path => pure path
      | none => throw (.absentParent parentId parentEntity)
    let columns := (outerKey.zip innerKey).map fun (o, t) =>
      navigationColumn (.readPath s.parameter path) parent.isOptional target o t
    let kind : JoinKind := if child.isOptional then .leftOuter else .inner
    let rows ← keyedJoin s.rows (.entitySet edge.target)
      ⟨s.parameter, .key (columns.map (·.1))⟩ ⟨target, .key (columns.map (·.2))⟩
      { kind
        targetEntity := some edge.target
        navigation := some navigation
        outerKey := outerKey.map (·.name)
        innerKey := innerKey.map (·.name)
        outerNullGuard := parent.isOptional }
    modifyForest fun f =>
      (s.sources.foldl (·.wrap kind.wrapPath) f).makePresent n [Expr.innerField]
    modifyTally (·.countJoin kind)
    return { s with rows, parameter := ← freshName "t" }
  | _, _ => throw (.noEdge n (f.memberPath n))

/-- The nodes of a stream that expressions refer to, with all nodes above them. -/
def neededNodes (f : Forest) (sources : List SourceId) (es : List Expr) : List NodeId :=
  ((es.flatMap Expr.rowRefs).filter (sources.contains ·.source)).flatMap (f.lineage ·.node)

/-- Joins those of the given nodes that are needed and not present. -/
def joinNodes (needed : List NodeId) (s : Stream) : List NodeId → Expansion (Stream × Nat)
  | [] => return (s, 0)
  | n :: ns => do
    if needed.contains n && !(← node n).isPresent then
      let s ← joinNode s n
      let (s, k) ← joinNodes needed s ns
      return (s, k + 1)
    else joinNodes needed s ns

/-- Joins what is needed of each of the given sources. -/
def joinSources (needed : List NodeId) (s : Stream) : List SourceId → Expansion (Stream × Nat)
  | [] => return (s, 0)
  | source :: sources => do
    let f ← forest
    let (s, k) ← joinNodes needed s (f.live (f.root source))
    let (s, l) ← joinSources needed s sources
    return (s, k + l)

/-- Joins everything that expressions refer to into the rows of a stream. Returns the number of
joins, too. -/
def joinReferenced (s : Stream) (es : List Expr) : Expansion (Stream × Nat) := do
  let needed := neededNodes (← forest) s.sources es
  let (s, k) ← joinSources needed s s.sources
  return (if k = 0 then s else { s with needsProjection := true }, k)

/-- How an inner stream is attached to an outer one. -/
inductive StreamJoin where
  /-- By keys, each over a row of its own stream. -/
  | keyed (outerKey innerKey : Expr) (note : JoinNote)
  /-- The inner rows are a subquery over the outer row. -/
  | correlated
  deriving Repr

/-- Two streams made one. The selectors of the two still refer to their own sources, which are now
read through the merged row. -/
structure MergedStreams where
  stream : Stream
  outerSelector : Expr
  innerSelector : Expr
  deriving Repr

/-- Merges two streams; their row parameters are made different first. -/
def mergeStreams (outer inner : Stream) (join : StreamJoin) : Expansion MergedStreams := do
  let clash := inner.parameter = outer.parameter
  let innerName ← if clash then freshName inner.parameter else pure inner.parameter
  let (rows, kind) ← match join with
    | .keyed outerKey innerKey note => do
      let innerKey :=
        if clash then innerKey.substitute inner.parameter (.param innerName) else innerKey
      let rows ← keyedJoin outer.rows inner.rows ⟨outer.parameter, outerKey⟩
        ⟨innerName, innerKey⟩ note
      modifyTally (·.countJoin note.kind)
      pure (rows, note.kind)
    | .correlated =>
      let rows := Expr.call .selectMany
        [outer.rows, .lambda [outer.parameter] inner.rows, pairing outer.parameter innerName] none
      pure (rows, JoinKind.inner)
  modifyForest fun f =>
    let f := outer.sources.foldl (·.wrap kind.wrapPath) f
    inner.sources.foldl
      (fun f s =>
        let f := f.wrap [Expr.innerField] s
        if kind = .leftOuter then f.makeOptional s else f) f
  let parameter ← freshName "t"
  return {
    stream := {
      parameter
      sources := outer.sources ++ inner.sources
      needsProjection := true
      ordered := false
      cardinality := none
      rows
      selector := .null }
    outerSelector := outer.selector
    innerSelector := inner.selector }

end EntityQuery
