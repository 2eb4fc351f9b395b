import EntityQuery.Expansion.Context
import EntityQuery.Expr.Substitution

/-!
# Resolving references

Once everything that a lambda refers to is present in the rows of its stream, the references to the
stream's sources are resolved: each becomes the path at which it is read from the row parameter.
References to other sources belong to an enclosing query and are kept. A nested lambda that takes
the row parameter's name for itself is renamed if a path would be put into it.

`resolve` turns the streams that it meets into queries: the selector of such a stream is resolved
over its own sources, and what comes out holds no streams any more, so that resolving it once more,
for the enclosing sources, is left to `resolvePaths`.

`reduce` does the same for a whole query, in which no reference may be left.
-/

namespace EntityQuery

open Expansion

/-- The parameter that stands for a row, and the sources that the row is made of. -/
structure RowScope where
  parameter : String
  sources : List SourceId
  deriving Repr

namespace RowScope

def owns (s : RowScope) (r : RowRef) : Bool := s.sources.contains r.source

/-- The path at which a reference is read. -/
def path (s : RowScope) (r : RowRef) : Expansion Expr := do
  match (← forest).rowPath? r.node with
  | some path => return .readPath s.parameter path
  | none => throw (.leftoverRow .reduction r)

/-- A reference read as a whole: the shape of its entity, if it has one. -/
def readRow (s : RowScope) (r : RowRef) : Expansion Expr := do
  let path ← s.path r
  match (← node r.node).entity with
  | some entity => return .entityShape entity path
  | none => return path

/-- A property of a reference. -/
def readProperty (s : RowScope) (r : RowRef) (member : String) : Expansion Expr := do
  let path ← s.path r
  if let some entity := (← node r.node).entity then
    if ((← entityType .reduction entity).property? member).isNone then
      throw (.unknownProperty entity member)
  return .member path member

/-- Whether a lambda would capture a path that is put into it. -/
def capturedBy (s : RowScope) (params : List String) (body : Expr) : Bool :=
  params.contains s.parameter && body.refersTo s.sources

/-- The path of a guard that is a reference: a guard is never read as an entity. -/
def readGuard? (s : RowScope) : Expr → Option (Expansion Expr)
  | .rowRef r => if s.owns r then some (s.path r) else none
  | _ => none

end RowScope

namespace StreamFrame

def scope (f : StreamFrame) : RowScope := ⟨f.parameter, f.sources⟩

/-- Whether a selector returns the rows of a stream as they are. -/
def returnsRow (f : StreamFrame) (forest : Forest) : Expr → Bool
  | .rowRef r =>
    f.scope.owns r && (forest.node r.node).isRoot && forest.rowPath? r.node == some []
  | _ => false

/-- Whether a selector has to be applied to the rows of a stream. -/
def mustProject (f : StreamFrame) (forest : Forest) (selector : Expr) : Bool :=
  f.needsProjection || !f.returnsRow forest selector

/-- The query over the rows of a stream: the selector, if there is one to apply, and the operator
that answers a single row, if there is one. -/
def query (f : StreamFrame) (rows : Expr) (selector? : Option Expr) : Expr :=
  let projected := match selector? with
    | some selector => .call .select [rows, selector] none
    | none => rows
  match f.cardinality with
  | some operator => .call operator [projected] none
  | none => projected

end StreamFrame

/-- Resolves the references of an expression over a row. The streams in it become queries; `again`
then resolves, over the same row, what the selector of a stream has been resolved to. -/
def resolveWith (again : RowScope → Expr → Expansion Expr) (s : RowScope) (e : Expr) :
    Expansion Expr := do
  match e with
  | .member (.rowRef r) name =>
    if s.owns r then s.readProperty r name else return .member (.rowRef r) name
  | .rowRef r => if s.owns r then s.readRow r else return .rowRef r
  | .nullSafeEqual guards left right =>
    let guards ← Expr.mapItemsIn guards fun g h =>
      have := Expr.size_le_itemsSize h
      (s.readGuard? g).getD (resolveWith again s g)
    let left ← resolveWith again s left
    return .nullSafeEqual guards left (← resolveWith again s right)
  | .lambda params body =>
    if s.capturedBy params body then
      let name ← freshName (rowParameter s.parameter)
      have := Lambda.size_body_rename ⟨params, body⟩ s.parameter name
      let l := (Lambda.mk params body).rename s.parameter name
      return .lambda l.params (← resolveWith again s l.body)
    else return .lambda params (← resolveWith again s body)
  | .stream rows selector frame =>
    if frame.mustProject (← forest) selector then
      let body ← resolveWith again frame.scope selector
      let rows ← resolveWith again s rows
      return frame.query rows (some (← again s (.lambda [frame.parameter] body)))
    else return frame.query (← resolveWith again s rows) none
  | e => e.mapParts fun c h =>
    have := Expr.size_lt_of_mem_children h
    resolveWith again s c
termination_by e.size
decreasing_by all_goals simp_all only [Expr.size] <;> omega

/-- Resolves the references of an expression that holds no streams. -/
def resolvePaths : RowScope → Expr → Expansion Expr := resolveWith fun _ e => return e

/-- Resolves the references of an expression over a row; its streams become queries. -/
def resolve : RowScope → Expr → Expansion Expr := resolveWith resolvePaths

namespace Stream

def scope (s : Stream) : RowScope := s.toStreamFrame.scope

/-- Whether the selector returns the rows as they are. -/
def returnsRow (s : Stream) (f : Forest) : Bool := s.toStreamFrame.returnsRow f s.selector

/-- Resolves an expression over the rows of a stream. -/
def resolve (s : Stream) (e : Expr) : Expansion Expr := EntityQuery.resolve s.scope e

/-- The query of a stream, with its selector resolved. -/
def toQuery (s : Stream) : Expansion Expr := do
  if s.mustProject (← forest) s.selector then
    let body ← s.resolve s.selector
    return s.query s.rows (some (.lambda [s.parameter] body))
  else return s.query s.rows none

end Stream

/-- Refuses an expression in which a reference is left. -/
def refuseRefs (e : Expr) : Expansion Unit :=
  match e.rowRefs with
  | [] => return
  | r :: _ => throw (.leftoverRow .reduction r)

/-- Turns all streams of an expression into queries. No reference may be left. -/
def reduce (e : Expr) : Expansion Expr := do
  match e with
  | .stream rows selector frame =>
    if frame.mustProject (← forest) selector then
      let body ← resolve frame.scope selector
      let rows ← reduce rows
      refuseRefs body
      return frame.query rows (some (.lambda [frame.parameter] body))
    else return frame.query (← reduce rows) none
  | .rowRef r => throw (.leftoverRow .reduction r)
  | e => e.mapParts fun c h =>
    have := Expr.size_lt_of_mem_children h
    reduce c
termination_by e.size
decreasing_by all_goals simp_all only [Expr.size] <;> omega

/-- A query without streams, and whether there have been streams in it. -/
structure Reduced where
  query : Expr
  changed : Bool
  deriving Repr

/-- `reduce` with a state that tells whether a stream has been met. -/
def reduceMarked (e : Expr) : StateT Bool Expansion Expr := do
  match e with
  | .stream rows selector frame =>
    set true
    if frame.mustProject (← forest) selector then
      let body ← resolve frame.scope selector
      let rows ← reduceMarked rows
      refuseRefs body
      return frame.query rows (some (.lambda [frame.parameter] body))
    else return frame.query (← reduceMarked rows) none
  | .rowRef r => throw (.leftoverRow .reduction r)
  | e => e.mapParts fun c h =>
    have := Expr.size_lt_of_mem_children h
    reduceMarked c
termination_by e.size
decreasing_by all_goals simp_all only [Expr.size] <;> omega

/-- Reduces a query and tells whether anything in it has changed. -/
def reduceQuery (e : Expr) : Expansion Reduced := do
  let (query, changed) ← (reduceMarked e).run false
  return ⟨query, changed⟩

end EntityQuery
