import EntityQuery.Expansion.Pipeline

/-!
# Row-wise operators

`Where` and the orderings are applied to the rows at once. `Select` is not: its body becomes the
pending selector, and later operators are brought over it.
-/

namespace EntityQuery

open Expansion

def expandFilter (recur : Recur) (source predicate : Expr) (note : Option CallNote) :
    Expansion Stream := do
  let (p, body) ← expectUnary .filter predicate
  let s ← expandSource recur source
  let b ← resolvedBody recur s p body
  return { b.stream with
    rows := .call .filter [b.stream.rows, b.toLambda] note
    ordered := false }

/-- The fields of a projected record are further names of the rows that they refer to. -/
def aliasFields : Expr → Expansion Unit
  | .record fields => fields.forM fun (name, value) =>
    match value with
    | .rowRef r => modifyForest (·.addAlias r.node [name])
    | _ => return
  | _ => return

def expandSelect (recur : Recur) (source selector : Expr) : Expansion Stream := do
  let (p, body) ← expectUnary .select selector
  let s ← expandSource recur source
  let b ← joinBody recur s p body
  aliasFields b.body
  let s := { b.stream with selector := b.body, ordered := false }
  return { s with needsProjection := s.needsProjection || !s.returnsRow (← forest) }

def expandOrderBy (recur : Recur) (operator : Operator) (source key : Expr) :
    Expansion Stream := do
  let (p, body) ← expectUnary operator key
  let s ← expandSource recur source
  let b ← resolvedBody recur s p body
  return { b.stream with
    rows := .call operator [b.stream.rows, b.toLambda] none
    ordered := true }

/-- A secondary order. Joins do not promise to keep the primary one, so it is asserted again after
them. -/
def expandThenBy (recur : Recur) (operator : Operator) (source key : Expr) : Expansion Stream := do
  let (p, body) ← expectUnary operator key
  let s ← expandSource recur source
  if !s.ordered then throw (.unordered operator)
  let b ← resolvedBody recur s p body
  let rows :=
    if b.joins = 0 then b.stream.rows else .call .asOrdered [b.stream.rows] none
  return { b.stream with rows := .call operator [rows, b.toLambda] none, ordered := true }

end EntityQuery
