import EntityQuery.Expr.Substitution

/-!
# Collection selectors that can become joins

The selector of a `SelectMany` can be hoisted into a join if it is a chain of row-wise operators,
possibly under one `DefaultIfEmpty`, over the filter that stands for a collection navigation. The
filter's predicate must be a null guard and one equality between a key of the target rows and a key
of the owner, and the chain above the filter must not refer to any enclosing row.
-/

namespace EntityQuery

/-- A selector taken apart for a join. -/
structure HoistPlan where
  /-- The chain, over the whole target set in place of the filter. -/
  chain : Expr
  target : String
  /-- The owner entity and the name of the navigation, with a point between them. -/
  navigation : String
  /-- The parameter by which the filter names a target row. -/
  parameter : String
  innerKey : List Expr
  outerKey : List Expr
  leftOuter : Bool
  deriving Repr

/-- Why a selector has to stay a correlated subquery. -/
inductive CorrelationReason where
  | emptyDefault
  | noNavigationFilter
  | notRowWise
  | notOverEntitySet
  | noPredicate
  | notOneParameter
  | noKeyEquality
  | outerReference
  | hoistingDisabled
  deriving DecidableEq, Repr

namespace CorrelationReason

def message : CorrelationReason → String
  | emptyDefault => "malformed DefaultIfEmpty"
  | noNavigationFilter => "selector is not a row-wise chain over a collection navigation"
  | notRowWise => "selector applies a non row-wise operator to the collection"
  | notOverEntitySet => "navigation filter is not over an entity set"
  | noPredicate => "navigation filter has no predicate"
  | notOneParameter => "navigation filter predicate must take one parameter"
  | noKeyEquality => "no extractable key equality"
  | outerReference => "selector references the outer stream"
  | hoistingDisabled => "collection hoisting disabled"

end CorrelationReason

/-- The filter that stands for a collection navigation, with the arguments of its call and the
navigation it stands for. -/
structure NavigationFilter where
  owner : String
  navigation : String
  arguments : List Expr
  deriving Repr

namespace Expr

/-- Follows the first arguments of a chain down to a navigation filter. The flag says whether every
operator above the filter is row-wise. -/
def navigationFilter? : Expr → Option (NavigationFilter × Bool)
  | .call _ arguments (some (.collection owner navigation)) =>
    some (⟨owner, navigation, arguments⟩, true)
  | .call operator (source :: _) _ =>
    source.navigationFilter?.map fun (filter, rowWise) => (filter, rowWise && operator.isRowWise)
  | _ => none

/-- The same chain with the navigation filter at its bottom opened up to the whole target set. -/
def withoutFilter (target : String) : Expr → Expr
  | .call _ _ (some (.collection _ _)) => .entitySet target
  | .call operator (source :: arguments) note =>
    .call operator (withoutFilter target source :: arguments) note
  | e => e

/-- The parts of a key: those of a tuple, or the expression itself. -/
def tupleParts : Expr → List Expr
  | .tuple items => items
  | e => [e]

/-- Null, or a tuple of nulls. -/
def isNullKey : Expr → Bool
  | .tuple items => items.all isNull
  | e => e.isNull

/-- Takes `guard && (a == b)` apart, where the guard is a comparison with null: the key of the row
that `parameter` names, and the key that does not mention it. -/
def keyPair? (parameter : String) : Expr → Option (List Expr × List Expr)
  | .binary .and (.binary .notEqual _ null) (.binary .equal left right) =>
    if !null.isNullKey then none
    else
      let sides := match left.mentions parameter, right.mentions parameter with
        | true, false => some (left, right)
        | false, true => some (right, left)
        | _, _ => none
      sides.bind fun (inner, outer) =>
        let innerKey := inner.tupleParts
        let outerKey := outer.tupleParts
        if innerKey.length = outerKey.length then some (innerKey, outerKey) else none
  | _ => none

end Expr

/-- Takes the operand of a `DefaultIfEmpty` out, and says whether there was one. -/
def splitDefault : Expr → Except CorrelationReason (Expr × Bool)
  | .call .defaultIfEmpty (source :: _) _ => .ok (source, true)
  | .call .defaultIfEmpty [] _ => .error .emptyDefault
  | e => .ok (e, false)

/-- Takes a collection selector apart for a join, or says why that cannot be done. -/
def HoistPlan.ofSelector (selector : Expr) : Except CorrelationReason HoistPlan := do
  let (chain, leftOuter) ← splitDefault selector
  let some (filter, rowWise) := chain.navigationFilter? | throw .noNavigationFilter
  if !rowWise then throw .notRowWise
  let target ← match filter.arguments with
    | .entitySet target :: _ => pure target
    | _ => throw .notOverEntitySet
  let (params, body) ← match filter.arguments with
    | _ :: .lambda params body :: _ => pure (params, body)
    | _ => throw .noPredicate
  let parameter ← match params with
    | [parameter] => pure parameter
    | _ => throw .notOneParameter
  let some (innerKey, outerKey) := body.keyPair? parameter | throw .noKeyEquality
  let opened := chain.withoutFilter target
  if !opened.rowRefs.isEmpty then throw .outerReference
  return {
    chain := opened
    target
    navigation := s!"{filter.owner}.{filter.navigation}"
    parameter
    innerKey
    outerKey
    leftOuter }

end EntityQuery
