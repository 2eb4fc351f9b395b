import EntityQuery.Expansion.Pipeline

/-!
# Operators without a lambda of their own

A predicate of such an operator is a `Where` before it. Operators that answer a scalar are left as
calls over the stream, those that answer one row wait until the stream becomes a query, and the
others work on materialized rows.
-/

namespace EntityQuery

open Expansion

/-- Applies an operator to the rows of a stream. -/
def Stream.applyOperator (s : Stream) (operator : Operator) (rest : List Expr) : Stream :=
  { s with rows := .call operator (s.rows :: rest) none, ordered := false }

/-- The entity type that an argument names. -/
def entityArgument : Option Expr → Expansion String
  | some (.entitySet entity) => return entity
  | some (.const (.text entity)) => return entity
  | e => throw (.notAnEntityType e)

/-- Takes a predicate out of the arguments of an operator, as a filter of the source. -/
def splitPredicate (operator : Operator) (source : Expr) (rest : List Expr) : Expr × List Expr :=
  match operator.acceptsPredicate, rest with
  | true, [predicate] => (.call .filter [source, predicate] none, [])
  | _, rest => (source, rest)

def expandTerminal (recur : Recur) (operator : Operator) : List Expr → Expansion Expr
  | [] => throw (.invalidArity operator "at least 1" 0)
  | source :: rest => do
    let (source, rest) := splitPredicate operator source rest
    let s ← expandSource recur source
    if operator.isScalarResult then return .call operator (s.toExpr :: rest) none
    else if operator.isCardinalityReducing then
      return { s with cardinality := some operator : Stream }.toExpr
    else
      match operator with
      | .distinct | .take | .skip | .asTracking =>
        return ((← materialize s none).applyOperator operator rest).toExpr
      | .ofType =>
        let entity ← entityArgument rest.head?
        let _ ← entityType .expansion entity
        return ((← materialize s (some entity)).applyOperator operator rest).toExpr
      | .defaultIfEmpty =>
        let s ← materialize s none
        modifyForest fun f => s.sources.foldl (·.makeOptional ·) f
        return (s.applyOperator operator rest).toExpr
      | operator => throw (.unsupportedOperator operator)

end EntityQuery
