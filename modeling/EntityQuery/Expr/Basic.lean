import EntityQuery.Catalog.Basic
import EntityQuery.Operator

/-!
# Query expressions

One tree holds a query from its first form to its last. Users write sets, constants, parameters,
member chains, scalar operators, operator calls and lambdas. The expansion adds three nodes of its
own: a reference to a row of a navigation forest, a stream (a rewritten source with the selector
that is still to be applied to it) and a null-safe equality. An entity shape is left in the result
and says that the fields below it make up one entity.
-/

namespace EntityQuery

/-- The key of a node of a navigation forest. -/
structure NodeId where
  index : Nat
  deriving DecidableEq, Repr, Inhabited

/-- The key of a row source: one logical input stream, with a tree of its own. -/
structure SourceId where
  index : Nat
  deriving DecidableEq, Repr, Inhabited

instance : ToString NodeId := ⟨fun n => s!"n{n.index}"⟩
instance : ToString SourceId := ⟨fun s => s!"m{s.index}"⟩

inductive Literal where
  | null
  | boolean (value : Bool)
  | integer (value : Int)
  | float (value : Float)
  | text (value : String)
  deriving DecidableEq, Repr, Inhabited

inductive BinaryOp where
  | equal
  | notEqual
  | less
  | lessOrEqual
  | greater
  | greaterOrEqual
  | and
  | or
  | add
  | subtract
  deriving DecidableEq, Repr, Inhabited

namespace BinaryOp

def isEquality : BinaryOp → Bool
  | equal | notEqual => true
  | _ => false

def symbol : BinaryOp → String
  | equal => "=="
  | notEqual => "!="
  | less => "<"
  | lessOrEqual => "<="
  | greater => ">"
  | greaterOrEqual => ">="
  | and => "&&"
  | or => "||"
  | add => "+"
  | subtract => "-"

end BinaryOp

inductive JoinKind where
  | inner
  | leftOuter
  deriving DecidableEq, Repr, Inhabited

/-- What a join call tells its reader about where it came from. -/
structure JoinNote where
  kind : JoinKind
  targetEntity : Option String
  navigation : Option String
  outerKey : List String
  innerKey : List String
  outerNullGuard : Bool
  deriving DecidableEq, Repr, Inhabited

inductive CallNote where
  | join (note : JoinNote)
  /-- The call filters a target set down to one collection navigation of an owner. -/
  | collection (ownerEntity navigation : String)
  /-- The call is the flattening half of a left outer join. -/
  | leftJoinFlatten
  deriving DecidableEq, Repr, Inhabited

/-- A reference to the rows behind a node; `path` is the member chain that leads to it. -/
structure RowRef where
  source : SourceId
  node : NodeId
  path : List String
  deriving DecidableEq, Repr, Inhabited

/-- How the rows of a stream are read: the parameter that stands for a row, the row sources that
the row is made of, and what is still to be applied when the stream becomes a query. -/
structure StreamFrame where
  parameter : String
  sources : List SourceId
  /-- The rows do not have the shape of the selector yet. -/
  needsProjection : Bool
  ordered : Bool
  cardinality : Option Operator
  deriving DecidableEq, Repr, Inhabited

inductive Expr where
  | entitySet (entity : String)
  | const (value : Literal)
  | param (name : String)
  | member (target : Expr) (name : String)
  | binary (op : BinaryOp) (left right : Expr)
  | not (operand : Expr)
  | cond (test ifTrue ifFalse : Expr)
  | record (fields : List (String × Expr))
  | tuple (items : List Expr)
  | convert (operand : Expr) (dataType : ScalarType) (nullable : Bool)
  | function (name : String) (arguments : List Expr)
  | call (operator : Operator) (arguments : List Expr) (note : Option CallNote)
  | lambda (params : List String) (body : Expr)
  | rowRef (ref : RowRef)
  | stream (rows selector : Expr) (frame : StreamFrame)
  /-- An equality that is false when one of its guards is null. -/
  | nullSafeEqual (guards : List Expr) (left right : Expr)
  | entityShape (entity : String) (rows : Expr)
  deriving Repr, Inhabited

/-- A rewritten source, the selector over its rows that is still pending, and its frame. -/
structure Stream extends StreamFrame where
  rows : Expr
  selector : Expr
  deriving Repr, Inhabited

def Stream.toExpr (s : Stream) : Expr := .stream s.rows s.selector s.toStreamFrame

/-- A lambda taken out of the tree. -/
structure Lambda where
  params : List String
  body : Expr
  deriving Repr, Inhabited

def Lambda.toExpr (l : Lambda) : Expr := .lambda l.params l.body

namespace Expr

def null : Expr := .const .null
def bool (b : Bool) : Expr := .const (.boolean b)
def int (n : Int) : Expr := .const (.integer n)
def float (x : Float) : Expr := .const (.float x)
def string (s : String) : Expr := .const (.text s)

def eq (a b : Expr) : Expr := .binary .equal a b
def ne (a b : Expr) : Expr := .binary .notEqual a b
def and (a b : Expr) : Expr := .binary .and a b

/-- Null, widened to a nullable scalar type. -/
def typedNull (t : ScalarType) : Expr := .convert .null t true

/-- The two fields that every join puts around the rows it pairs. -/
def outerField : String := "outer"

def innerField : String := "inner"

/-- The record that a join makes of a pair of rows. -/
def pairRecord (outer inner : Expr) : Expr :=
  .record [(outerField, outer), (innerField, inner)]

/-- A key of one column stays a scalar, any other becomes a tuple. -/
def key : List Expr → Expr
  | [part] => part
  | parts => .tuple parts

/-- A call of the operator of that name, on a source and further arguments. -/
def callNamed (source : Expr) (name : String) (arguments : List Expr) : Expr :=
  .call (.ofName name) (source :: arguments) none

/-- The member chain `path`, read from a row parameter. -/
def readPath (parameter : String) (path : List String) : Expr :=
  path.foldl .member (.param parameter)

/-- Null, possibly under conversions. -/
def isNull : Expr → Bool
  | .const .null => true
  | .convert operand _ _ => operand.isNull
  | _ => false

def isCall : Expr → Bool
  | .call .. => true
  | _ => false

/-- The note of a call that is annotated as a join. -/
def joinNote? : Expr → Option JoinNote
  | .call _ _ (some (.join note)) => some note
  | _ => none

end Expr

/-- The parameter that stands for a row of an entity: its first letter, an ASCII one in lower
case. -/
def rowParameter (entity : String) : String :=
  match entity.toList with
  | [] => "x"
  | c :: _ => String.singleton c.toLower

end EntityQuery
