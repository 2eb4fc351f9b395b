import EntityQuery.Expansion.Hoisting
import EntityQuery.Expansion.Pipeline

/-!
# Operators with two streams

`Join` merges two streams by keys. `SelectMany` merges a stream with a collection of each of its
rows: by keys if the collection selector can be hoisted, otherwise as a correlated subquery. The
result selector is brought over the merged rows and becomes the pending selector.
-/

namespace EntityQuery

open Expansion

/-- The parts of a key. -/
def keyParts : Expr → List Expr
  | .tuple items => items
  | .record fields => fields.map (·.2)
  | e => [e]

/-- The column that a part of a key reads, or else its text. -/
def columnName : Expr → String
  | .convert operand _ _ => columnName operand
  | .member _ name => name
  | e => e.render

def keyNames (key : Expr) : List String := (keyParts key).map columnName

/-- A result selector: two row parameters and what is made of them. -/
abbrev ResultSelector := String × String × Expr

/-- Makes a result selector the pending selector of merged streams; without one the inner rows are
the result. -/
def selectResult (recur : Recur) (m : MergedStreams) (result : Option ResultSelector) :
    Expansion Stream := do
  match result with
  | none => return { m.stream with selector := m.innerSelector, needsProjection := true }
  | some (p, q, body) =>
    let body := (body.substitute p m.outerSelector).substitute q m.innerSelector
    let body ← prepareBody recur body
    let (s, _) ← joinReferenced m.stream [body]
    return { s with selector := body, needsProjection := true }

def expandJoin (recur : Recur) (outer inner outerKey innerKey result : Expr) :
    Expansion Stream := do
  let (outerParam, outerKey) ← expectUnary .join outerKey
  let (innerParam, innerKey) ← expectUnary .join innerKey
  let result ← expectBinary .join result
  let outer ← expandSource recur outer
  let inner ← expandSource recur inner
  let outer ← resolvedBody recur outer outerParam outerKey
  let inner ← resolvedBody recur inner innerParam innerKey
  let outerLength := (keyParts outer.body).length
  let innerLength := (keyParts inner.body).length
  if outerLength ≠ innerLength then
    throw (.keyShapeMismatch .expansion "Join" outerLength innerLength)
  let note : JoinNote := {
    kind := .inner
    targetEntity := inner.stream.entity? (← forest)
    navigation := none
    outerKey := keyNames outer.body
    innerKey := keyNames inner.body
    outerNullGuard := false }
  let merged ← mergeStreams outer.stream inner.stream (.keyed outer.body inner.body note)
  selectResult recur merged (some result)

/-- Expands the chain of a hoisted selector over a root stream of its target. Gives up if the rows
of that root cannot be read any more. -/
def expandHoisted (recur : Recur) (plan : HoistPlan) : Expansion (Option Stream) := do
  let tally := (← get).tally
  let root ← rootStream plan.target
  let inner ← expandSource recur (plan.chain.withChainRoot root.toExpr)
  let f ← forest
  let reachable := root.sources.all fun s =>
    inner.sources.contains s && (f.rowPath? (f.root s)).isSome
  if reachable then return some inner
  else
    modifyTally fun _ => tally
    return none

/-- Joins a hoisted chain to the rows of its owners. -/
def hoist (outer inner : Stream) (plan : HoistPlan) : Expansion MergedStreams := do
  let target ← ref ((← forest).root (inner.sources.headD default))
  let innerParts ← plan.innerKey.mapM fun part =>
    inner.resolve (part.substitute plan.parameter target)
  let (outer, _) ← joinReferenced outer plan.outerKey
  let f ← forest
  let guard := (plan.outerKey.flatMap Expr.rowRefs).any fun r => (f.node r.node).isOptional
  let outerParts ← plan.outerKey.mapM outer.resolve
  let outerKey := Expr.key outerParts
  let innerKey := Expr.key innerParts
  modifyTally fun t => { t with hoistedCollections := t.hoistedCollections + 1 }
  mergeStreams outer inner <| .keyed outerKey innerKey {
    kind := if plan.leftOuter then .leftOuter else .inner
    targetEntity := some plan.target
    navigation := some plan.navigation
    outerKey := keyNames outerKey
    innerKey := keyNames innerKey
    outerNullGuard := guard }

/-- Keeps a collection as a subquery over each outer row. -/
def correlate (recur : Recur) (outer : Stream) (collection : Expr) : Expansion MergedStreams := do
  let inner ← expandSource recur collection
  let (outer, _) ← joinReferenced outer [inner.rows, inner.selector]
  let rows ← outer.resolve inner.rows
  modifyTally fun t => { t with correlatedSubqueries := t.correlatedSubqueries + 1 }
  mergeStreams outer { inner with rows } .correlated

/-- How a collection selector is attached under the settings of the expansion. -/
def hoistPlan (collection : Expr) : Expansion (Except CorrelationReason HoistPlan) := do
  if (← settings).hoistCollections then return HoistPlan.ofSelector collection
  else return .error .hoistingDisabled

def expandSelectMany (recur : Recur) (source selector : Expr) (result : Option Expr) :
    Expansion Stream := do
  let (p, body) ← expectUnary .selectMany selector
  let result ← result.mapM (expectBinary .selectMany)
  let outer ← expandSource recur source
  let collection ← rewriteBody (body.substitute p outer.selector)
  let merged ← match ← hoistPlan collection with
    | .error _ => correlate recur outer collection
    | .ok plan =>
      match ← expandHoisted recur plan with
      | some inner => hoist outer inner plan
      | none => correlate recur outer collection
  selectResult recur merged result

end EntityQuery
