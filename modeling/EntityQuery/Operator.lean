/-!
# Query operators

The operators of a query chain. The registry gives each known operator its kind and how many
arguments it takes; a name that the registry does not have becomes `Operator.other`.
-/

namespace EntityQuery

inductive Operator where
  | filter
  | select
  | orderBy
  | orderByDescending
  | thenBy
  | thenByDescending
  | join
  | selectMany
  | groupJoin
  | distinct
  | take
  | skip
  | first
  | firstOrDefault
  | single
  | singleOrDefault
  | any
  | count
  | contains
  | ofType
  | defaultIfEmpty
  | asTracking
  | asOrdered
  | other (name : String)
  deriving DecidableEq, Repr, Inhabited

/-- How an operator takes part in the expansion of a query. -/
inductive OperatorKind where
  /-- One lambda over the rows of one source. -/
  | rowWise
  /-- Several sources or row selectors. -/
  | multiRoot
  /-- Works on the rows as they are projected, without a lambda of its own. -/
  | terminating
  /-- Only ever inserted by the expansion. -/
  | adapter
  deriving DecidableEq, Repr

structure OperatorInfo where
  operator : Operator
  kind : OperatorKind
  minArguments : Nat
  maxArguments : Nat
  deriving DecidableEq, Repr

namespace Operator

def name : Operator → String
  | filter => "Where"
  | select => "Select"
  | orderBy => "OrderBy"
  | orderByDescending => "OrderByDescending"
  | thenBy => "ThenBy"
  | thenByDescending => "ThenByDescending"
  | join => "Join"
  | selectMany => "SelectMany"
  | groupJoin => "GroupJoin"
  | distinct => "Distinct"
  | take => "Take"
  | skip => "Skip"
  | first => "First"
  | firstOrDefault => "FirstOrDefault"
  | single => "Single"
  | singleOrDefault => "SingleOrDefault"
  | any => "Any"
  | count => "Count"
  | contains => "Contains"
  | ofType => "OfType"
  | defaultIfEmpty => "DefaultIfEmpty"
  | asTracking => "AsTracking"
  | asOrdered => "AsOrdered"
  | other name => name

/-- Every registered operator. -/
def registered : List Operator :=
  [filter, select, orderBy, orderByDescending, thenBy, thenByDescending, join, selectMany,
    groupJoin, distinct, take, skip, first, firstOrDefault, single, singleOrDefault, any, count,
    contains, ofType, defaultIfEmpty, asTracking, asOrdered]

/-- What the registry says of an operator; nothing of one outside it, whatever its name. -/
def info? (op : Operator) : Option OperatorInfo :=
  match op with
  | filter | select | orderBy | orderByDescending | thenBy | thenByDescending =>
    some ⟨op, .rowWise, 2, 2⟩
  | join | groupJoin => some ⟨op, .multiRoot, 5, 5⟩
  | selectMany => some ⟨op, .multiRoot, 2, 3⟩
  | distinct | defaultIfEmpty | asTracking => some ⟨op, .terminating, 1, 1⟩
  | take | skip | contains | ofType => some ⟨op, .terminating, 2, 2⟩
  | first | firstOrDefault | single | singleOrDefault | any | count =>
    some ⟨op, .terminating, 1, 2⟩
  | asOrdered => some ⟨op, .adapter, 1, 1⟩
  | other _ => none

/-- The registered operator of a name. -/
def registered? (name : String) : Option Operator := registered.find? (·.name == name)

def ofName (name : String) : Operator := (registered? name).getD (other name)

def isRowWise (op : Operator) : Bool := op.info?.any (·.kind == .rowWise)

/-- The operator answers one row of its source. -/
def isCardinalityReducing : Operator → Bool
  | first | firstOrDefault | single | singleOrDefault => true
  | _ => false

/-- The operator answers a scalar. -/
def isScalarResult : Operator → Bool
  | any | count | contains => true
  | _ => false

/-- The operator may carry a predicate as its second argument. -/
def acceptsPredicate : Operator → Bool
  | any | count => true
  | op => op.isCardinalityReducing

end Operator

namespace OperatorInfo

/-- The argument counts as they are worded in a message: one number or a range. -/
def arityText (i : OperatorInfo) : String :=
  if i.minArguments = i.maxArguments then toString i.minArguments
  else s!"{i.minArguments}-{i.maxArguments}"

end OperatorInfo

end EntityQuery
