import EntityQuery.Expansion.Merging
import EntityQuery.Expansion.RowWise
import EntityQuery.Expansion.Terminal

/-!
# Expanding queries

`expandWithin` expands a query: sequences become streams, scalar operators calls over a stream. It
takes a bound on how deep expansions may be nested, since a collection's filter is a query that may
use collections itself. `expandQuery` expands a whole query and turns the streams that are left into
queries.
-/

namespace EntityQuery

open Expansion

/-- Expands a call whose number of arguments fits its operator. -/
def expandOperator (recur : Recur) (info : OperatorInfo) (arguments : List Expr)
    (note : Option CallNote) : Expansion Expr := do
  let operator := info.operator
  match operator, arguments with
  | .filter, [source, predicate] => return (← expandFilter recur source predicate note).toExpr
  | .select, [source, selector] => return (← expandSelect recur source selector).toExpr
  | .orderBy, [source, key] | .orderByDescending, [source, key] =>
    return (← expandOrderBy recur operator source key).toExpr
  | .thenBy, [source, key] | .thenByDescending, [source, key] =>
    return (← expandThenBy recur operator source key).toExpr
  | .join, [outer, inner, outerKey, innerKey, result] =>
    return (← expandJoin recur outer inner outerKey innerKey result).toExpr
  | .selectMany, source :: selector :: rest =>
    return (← expandSelectMany recur source selector rest.head?).toExpr
  | _, _ =>
    if info.kind = .terminating then expandTerminal recur operator arguments
    else throw (.unsupportedOperator operator)

/-- Expands a call. -/
def expandCall (recur : Recur) (operator : Operator) (arguments : List Expr)
    (note : Option CallNote) : Expansion Expr := do
  let some info := operator.info? | throw (.unsupportedOperator operator)
  let count := arguments.length
  if count < info.minArguments || info.maxArguments < count then
    throw (.invalidArity operator info.arityText count)
  expandOperator recur info arguments note

/-- Expands a query, with expansions nested at most `n` deep. -/
def expandWithin : Nat → Expr → Expansion Expr
  | 0, _ => throw .exhausted
  | n + 1, e =>
    match e with
    | .entitySet entity => return (← rootStream entity).toExpr
    | .stream .. => return e
    | .call operator arguments note => expandCall (expandWithin n) operator arguments note
    | e => throw (.notAStream e)

/-- A bound that leaves room for every operator of a query and for a chain of collections through
the whole catalog at each of them. -/
def nestingBound (c : Catalog) (e : Expr) : Nat :=
  8 * (e.size + 1) * ((c.types.flatMap (·.navigations)).length + 2)

/-- Expands a query. -/
def expand (e : Expr) : Expansion Expr := do
  expandWithin (nestingBound (← read).catalog e) e

/-- A query in which every navigation is replaced by joins and subqueries, and what that took. -/
structure ExpandedQuery where
  query : Expr
  tally : Tally
  deriving Repr

/-- Why a query has no expansion. -/
inductive QueryError where
  | invalidSettings
  | expansion (cause : ExpansionError)
  deriving Repr

def QueryError.message : QueryError → String
  | invalidSettings => "Invalid compiler configuration: " ++ Settings.rangeMessage
  | expansion cause => "NavExpansionError: " ++ cause.message

/-- Expands a query over a catalog. -/
def expandQuery (c : Catalog) (s : Settings) (e : Expr) : Except QueryError ExpandedQuery :=
  if !s.isValid then .error .invalidSettings
  else
    match ((do reduce (← expand e)) : Expansion Expr) ⟨c, s⟩ {} with
    | .ok (query, progress) => .ok ⟨query, progress.tally⟩
    | .error cause => .error (.expansion cause)

end EntityQuery
