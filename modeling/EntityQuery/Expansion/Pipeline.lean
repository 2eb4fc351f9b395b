import EntityQuery.Expansion.Binding
import EntityQuery.Expansion.CollectionFilter
import EntityQuery.Expansion.Materialization
import EntityQuery.Expansion.RowJoin

/-!
# The way of a lambda

Each lambda of an operator goes the same way. The pending selector of the stream is put for the row
parameter; member chains are bound, equalities compare keys, collections become filters, and the
queries in the body are expanded; then everything that the body refers to is joined into the rows.

A query in a body is expanded by the same means as the query around it. That recursion is open here:
`recur` expands a query, and `Expand` ties the knot.
-/

namespace EntityQuery

open Expansion

/-- How a nested query is expanded. -/
abbrev Recur := Expr → Expansion Expr

/-- A lambda of one parameter. -/
def expectUnary (operator : Operator) : Expr → Expansion (String × Expr)
  | .lambda [p] body => return (p, body)
  | e => throw (.notALambda operator 1 e)

/-- A lambda of two parameters. -/
def expectBinary (operator : Operator) : Expr → Expansion (String × String × Expr)
  | .lambda [p, q] body => return (p, q, body)
  | e => throw (.notALambda operator 2 e)

/-- The source of an operator: a stream that further operators can be applied to. -/
def expandSource (recur : Recur) (e : Expr) : Expansion Stream := do
  match ← recur e with
  | .stream rows selector frame =>
    match frame.cardinality with
    | none => return { toStreamFrame := frame, rows, selector }
    | some operator => throw (.afterCardinality operator)
  | e => throw (.notAStream e)

/-- Binds the member chains of a body, compares by keys and puts filters for collections. -/
def rewriteBody (body : Expr) : Expansion Expr := do
  filterCollections (← compareByKeys (← bind body))

/-- What becomes of the queries in a body: a chain of calls over an entity set is expanded and stays
a stream until the lambda around it is resolved, so that it is never expanded twice. -/
def subqueryAt (recur : Recur) (e : Expr) : Option (Expansion Expr) :=
  match e with
  | .stream .. => some (return e)
  | .call .. =>
    match e.chainRoot with
    | .entitySet _ => some (recur e)
    | _ => none
  | _ => none

def expandSubqueries (recur : Recur) (e : Expr) : Expansion Expr := e.descend (subqueryAt recur)

def prepareBody (recur : Recur) (body : Expr) : Expansion Expr := do
  expandSubqueries recur (← rewriteBody body)

/-- A body over the rows of a stream into which everything is joined that the body refers to. -/
structure JoinedBody where
  stream : Stream
  body : Expr
  joins : Nat
  deriving Repr

/-- Brings a lambda over the rows of a stream. If rows had to be joined, the lambda's parameter
becomes that of the stream. -/
def joinBody (recur : Recur) (s : Stream) (p : String) (body : Expr) : Expansion JoinedBody := do
  let body ← prepareBody recur (body.substitute p s.selector)
  let (s, joins) ← joinReferenced s [body]
  return ⟨if joins = 0 then s else { s with parameter := p }, body, joins⟩

/-- `joinBody`, with the references of the body resolved. -/
def resolvedBody (recur : Recur) (s : Stream) (p : String) (body : Expr) :
    Expansion JoinedBody := do
  let b ← joinBody recur s p body
  return { b with body := ← b.stream.resolve b.body }

/-- The lambda that reads a body from the rows of its stream. -/
def JoinedBody.toLambda (b : JoinedBody) : Expr := .lambda [b.stream.parameter] b.body

end EntityQuery
