import EntityQuery.Expr.Render
import EntityQuery.Forest.Basic
import EntityQuery.Settings.Basic

/-!
# The state of an expansion

An expansion reads a catalog and settings and works on a navigation forest, on counters of what it
has done, and on a supply of parameter names. It stops at the first error.
-/

namespace EntityQuery

/-- The steps of an expansion that errors name. -/
inductive Stage where
  | binding
  | expansion
  | joining
  | collections
  | comparisons
  | reduction
  deriving DecidableEq, Repr

def Stage.name : Stage → String
  | binding => "Binding"
  | expansion => "Expansion"
  | joining => "JoinInsertion"
  | collections => "CollectionRewrite"
  | comparisons => "ComparisonOptimization"
  | reduction => "Reduction"

inductive ExpansionError where
  /-- The operator is not registered, or it is never written by users. -/
  | unsupportedOperator (operator : Operator)
  | invalidArity (operator : Operator) (expected : String) (actual : Nat)
  | notAStream (e : Expr)
  /-- An operator stands above one that answers a single row. -/
  | afterCardinality (operator : Operator)
  | notALambda (operator : Operator) (arity : Nat) (found : Expr)
  /-- A secondary order without a primary one. -/
  | unordered (operator : Operator)
  /-- The argument of `OfType` names no entity type. -/
  | notAnEntityType (found : Option Expr)
  /-- A collection is compared with something that is neither a collection nor null. -/
  | collectionComparison (op : BinaryOp) (left right : Expr)
  /-- A member of a collection other than its count. -/
  | collectionMember (path : List String) (member : String)
  | unknownProperty (entity member : String)
  | keyShapeMismatch (stage : Stage) (context : String) (outer inner : Nat)
  | depthExceeded (path : List String) (limit : Nat)
  /-- A row reference is left that cannot be read where it stands. -/
  | leftoverRow (stage : Stage) (ref : RowRef)
  /-- A row is needed that no navigation leads to. -/
  | noEdge (node : NodeId) (path : List String)
  /-- A navigation starts from a row that is not present. -/
  | absentParent (node : NodeId) (entity : String)
  | catalog (stage : Stage) (cause : CatalogError)
  /-- The bound on nested expansions is used up. -/
  | exhausted
  deriving Repr

namespace ExpansionError

def unsupportedMessage (stage : Stage) (expression reason : String) : String :=
  " " ++ stage.name ++ ": Unsupported expression `" ++ expression ++ "`: " ++ reason

def unresolvableMessage (stage : Stage) (target member : String) : String :=
  " " ++ stage.name ++ ": Member `" ++ member ++ "` cannot be resolved on `" ++ target ++ "`."

def survivorMessage (stage : Stage) (row : String) : String :=
  " " ++ stage.name ++ ": Binding `" ++ row ++ "` survived past its scope."

def message : ExpansionError → String
  | unsupportedOperator operator =>
    " Expansion: Operator `" ++ operator.name ++ "` is not supported."
  | invalidArity operator expected actual =>
    " Expansion: Operator `" ++ operator.name ++ "` expects " ++ expected ++ " arguments, got " ++
      toString actual ++ "."
  | notAStream e => " Expansion: `" ++ e.render ++ "` is not a query sequence."
  | afterCardinality operator =>
    unsupportedMessage .expansion (operator.name ++ "(..)")
      "no operator can be applied after a cardinality-reducing operator"
  | notALambda operator arity found =>
    unsupportedMessage .expansion found.render
      (operator.name ++ " expects a lambda with " ++ toString arity ++ " parameter(s)")
  | unordered operator =>
    unsupportedMessage .expansion operator.name "ThenBy requires an ordered source"
  | notAnEntityType found =>
    unsupportedMessage .expansion ((found.map Expr.render).getD "")
      "OfType expects an entity type argument"
  | collectionComparison op left right =>
    unsupportedMessage .comparisons (Expr.binary op left right).render
      "a collection navigation can only be compared with another collection or null"
  | collectionMember path member =>
    unresolvableMessage .collections (".".intercalate path) member
  | unknownProperty entity member => unresolvableMessage .reduction entity member
  | keyShapeMismatch stage context outer inner =>
    " " ++ stage.name ++ ": Key shape mismatch in " ++ context ++ ": " ++ toString outer ++
      " outer vs " ++ toString inner ++ " inner key parts."
  | depthExceeded path limit =>
    " Binding: Navigation path `" ++ ".".intercalate path ++ "` exceeds the maximum depth of " ++
      toString limit ++ "."
  | leftoverRow stage ref => survivorMessage stage ref.render
  | noEdge node path =>
    survivorMessage .joining (toString node ++ " (" ++ ".".intercalate path ++ ")")
  | absentParent node entity => survivorMessage .joining (toString node ++ " (" ++ entity ++ ")")
  | catalog stage cause => "Catalog: " ++ stage.name ++ ": " ++ cause.message ++ "."
  | exhausted => " Expansion: too many nested expansions."

end ExpansionError

/-- Counters of what an expansion has done. -/
structure Tally where
  innerJoins : Nat := 0
  leftOuterJoins : Nat := 0
  hoistedCollections : Nat := 0
  correlatedSubqueries : Nat := 0
  materializations : Nat := 0
  nodesBound : Nat := 0
  deriving DecidableEq, Repr, Inhabited

namespace Tally

def joins (t : Tally) : Nat := t.innerJoins + t.leftOuterJoins

def countJoin (t : Tally) : JoinKind → Tally
  | .inner => { t with innerJoins := t.innerJoins + 1 }
  | .leftOuter => { t with leftOuterJoins := t.leftOuterJoins + 1 }

def render (t : Tally) : String :=
  s!"joins: {t.innerJoins} inner / {t.leftOuterJoins} left outer, " ++
    s!"hoisted: {t.hoistedCollections}, correlated: {t.correlatedSubqueries}, " ++
    s!"materialized: {t.materializations}, bound: {t.nodesBound}"

end Tally

/-- What an expansion reads. -/
structure Model where
  catalog : Catalog
  settings : Settings
  deriving Repr

/-- What an expansion works on. -/
structure Progress where
  forest : Forest := .empty
  tally : Tally := {}
  /-- The number of the last generated name. -/
  names : Nat := 0
  deriving Repr, Inhabited

/-- A step of an expansion. -/
abbrev Expansion (α : Type) := ReaderT Model (StateT Progress (Except ExpansionError)) α

namespace Expansion

def forest : Expansion Forest := return (← get).forest

def node (n : NodeId) : Expansion Node := return (← forest).node n

def settings : Expansion Settings := return (← read).settings

def setForest (f : Forest) : Expansion Unit := modify fun p => { p with forest := f }

def modifyForest (change : Forest → Forest) : Expansion Unit :=
  modify fun p => { p with forest := change p.forest }

def modifyTally (change : Tally → Tally) : Expansion Unit :=
  modify fun p => { p with tally := change p.tally }

/-- Lets an operation on the forest add to it and say what it added. -/
def growForest {α : Type} (grow : Forest → α × Forest) : Expansion α := do
  let (a, f) := grow (← forest)
  setForest f
  return a

/-- A result of the catalog; its errors name the stage that asked. -/
def ofCatalog {α : Type} (stage : Stage) (result : Except CatalogError α) : Expansion α :=
  match result with
  | .ok a => return a
  | .error cause => throw (.catalog stage cause)

def entityType (stage : Stage) (name : String) : Expansion EntityType := do
  ofCatalog stage ((← read).catalog.type name)

/-- A new parameter name: `base` and the next number. -/
def freshName (base : String) : Expansion String := do
  let n := (← get).names + 1
  modify fun p => { p with names := n }
  return base ++ toString n

/-- The reference to the rows of a node. -/
def ref (n : NodeId) : Expansion Expr := return (← forest).ref n

end Expansion

end EntityQuery
