import EntityQuery.Catalog.Basic
import EntityQuery.Evaluation.Evaluate

/-!
# What queries denote

The reference meaning of queries that still have navigations. An expression has a shape, and a
member of an entity that names a navigation stands for the rows that the navigation relates: for
the one related row or null, or for the list of them if the navigation is a collection. A row of
the owner is related to a row of the target if all columns of the two keys are non-null and equal.
Where an entity has a property and a navigation of one name, the navigation counts. Everything else
means what it means in evaluation, and `Expr.denote` never mentions a join, a path or a stream.

A row reference is read along its path from the row of its source.
-/

namespace EntityQuery

/-- What an expression stands for. -/
inductive Shape where
  | scalar
  | entity (name : String)
  | record (fields : List (String × Shape))
  | rows (element : Shape)
  deriving Repr, Inhabited

/-- The navigation of an entity type. -/
def Catalog.navigation? (c : Catalog) (entity name : String) : Option NavigationEdge :=
  (c.type? entity).bind (·.navigation? name)

namespace NavigationEdge

/-- What following the edge leads to. -/
def shape (e : NavigationEdge) : Shape :=
  if e.isCollection then .rows (.entity e.target) else .entity e.target

end NavigationEdge

/-- A column of a row; a missing row has nulls in all columns. -/
def Value.column (row : Value) (name : String) : Value :=
  match row with
  | .record fields => (Value.field? fields name).getD .null
  | _ => .null

namespace NavigationEdge

/-- All columns of the two keys are non-null and equal. -/
def relates (e : NavigationEdge) (owner target : Value) : Bool :=
  (e.sourceKey.zip e.targetKey).all fun (s, t) =>
    !(owner.column s).isNull && !(target.column t).isNull &&
      (owner.column s).equals (target.column t)

/-- The target rows that an owner is related to. -/
def related (e : NavigationEdge) (tables : Tables) (owner : Value) : List Value :=
  ((tables.lookup e.target).getD []).filter (e.relates owner)

/-- What an edge leads to from an owner. -/
def follow (e : NavigationEdge) (tables : Tables) (owner : Value) : Value :=
  if e.isCollection then .list (e.related tables owner)
  else (e.related tables owner).head?.getD .null

end NavigationEdge

/-- The shapes of the parameters in view, the innermost binding first. -/
abbrev Shapes := List (String × Shape)

namespace Shape

/-- The shape of a member. -/
def member? (c : Catalog) : Shape → String → Option Shape
  | .entity owner, name =>
    match c.navigation? owner name with
    | some edge => some edge.shape
    | none => ((c.type? owner).bind (·.property? name)).map fun _ => .scalar
  | .record fields, name => fields.lookup name
  | .rows _, name => if name = "Count" then some .scalar else none
  | .scalar, _ => none

/-- The shape at the end of a member path. -/
def along? (c : Catalog) : Shape → List String → Option Shape
  | s, [] => some s
  | s, name :: path => (s.member? c name).bind fun s => along? c s path

/-- The value of a member of something that has a shape. -/
def read (c : Catalog) (tables : Tables) (s : Option Shape) (name : String) (v : Value) :
    Outcome Value :=
  match s with
  | some (.entity owner) =>
    match c.navigation? owner name with
    | some edge => return edge.follow tables v
    | none => evalMember name v
  | some (.rows _) =>
    match name, v with
    | "Count", .list items => return .int items.length
    | name, v => evalMember name v
  | _ => evalMember name v

/-- The value at the end of a member path. -/
def readAlong (c : Catalog) (tables : Tables) : Option Shape → List String → Value → Outcome Value
  | _, [], v => return v
  | s, name :: path, v => do
    readAlong c tables (s.bind (·.member? c name)) path (← read c tables s name v)

/-- The shape of the rows of a list. -/
def element : Option Shape → Shape
  | some (.rows s) => s
  | _ => .scalar

end Shape

/-- The result of an operator; a predicate that it may carry filters its rows first. -/
def denoteOperator (op : Operator) (arguments : List Argument) : Outcome Value :=
  match op.acceptsPredicate, arguments with
  | true, [source, predicate] =>
    evalOperator op [
      { value := fun _ => evalOperator .filter [source, predicate], apply := source.apply }]
  | _, arguments => evalOperator op arguments

/-- What is known of the rows of row sources: the entity of each and, for a denotation, one row. -/
structure OpenRows where
  entity : SourceId → Option String
  row : SourceId → Value

namespace OpenRows

/-- No row source is open. -/
def none : OpenRows := ⟨fun _ => .none, fun _ => .null⟩

/-- The shape of the rows of a source. -/
def shape? (o : OpenRows) (s : SourceId) : Option Shape := (o.entity s).map .entity

end OpenRows

namespace Expr

variable (c : Catalog) (tables : Tables) (o : OpenRows)

mutual

/-- The shape of an expression. -/
def shape? (Γ : Shapes) : Expr → Option Shape
  | .entitySet entity => some (.rows (.entity entity))
  | .param name => Γ.lookup name
  | .rowRef r => (o.shape? r.source).bind (·.along? c r.path)
  | .member target name => (target.shape? Γ).bind (·.member? c name)
  | .cond _ ifTrue _ => ifTrue.shape? Γ
  | .record fields => (fieldShapes? Γ fields).map .record
  | .convert operand _ _ => operand.shape? Γ
  | .call .select [source, .lambda [x] body] _ =>
    (body.shape? ((x, .element (source.shape? Γ)) :: Γ)).map .rows
  | .call .filter (source :: _) _ | .call .orderBy (source :: _) _
  | .call .orderByDescending (source :: _) _ => source.shape? Γ
  | .const _ | .binary .. | .not _ | .call .any _ _ | .call .count _ _ => some .scalar
  | _ => .none
termination_by structural e => e

def fieldShapes? (Γ : Shapes) : List (String × Expr) → Option (List (String × Shape))
  | [] => some []
  | (name, e) :: es => do return (name, ← e.shape? Γ) :: (← fieldShapes? Γ es)
termination_by structural es => es

end

mutual

/-- The meaning of an expression. -/
def denote (Γ : Shapes) (scope : Scope) : Expr → Outcome Value
  | .entitySet entity =>
    match tables.lookup entity with
    | some rows => return .list rows
    | .none => throw (.noTable entity)
  | .const value => return evalLiteral value
  | .param name =>
    match scope.lookup name with
    | some v => return v
    | .none => throw (.unboundParameter name)
  | .rowRef r => Shape.readAlong c tables (o.shape? r.source) r.path (o.row r.source)
  | .member target name => do
    Shape.read c tables (target.shape? c o Γ) name (← target.denote Γ scope)
  | .binary op left right => do
    let left ← left.denote Γ scope
    let right ← right.denote Γ scope
    return evalBinary op left right
  | .not operand => do return evalNot (← operand.denote Γ scope)
  | .cond test ifTrue ifFalse => do
    if (← test.denote Γ scope).isTrue then ifTrue.denote Γ scope else ifFalse.denote Γ scope
  | .record fields => do return .record (← denoteFields Γ scope fields)
  | .convert operand _ _ => operand.denote Γ scope
  | .call operator arguments _ =>
    let element := Shape.element (arguments.head?.bind (·.shape? c o Γ))
    denoteOperator operator (denoteArguments Γ scope element arguments)
  | e => throw (.notEvaluable e)
termination_by structural e => e

def denoteFields (Γ : Shapes) (scope : Scope) :
    List (String × Expr) → Outcome (List (String × Value))
  | [] => return []
  | (name, e) :: es => do
    return (name, ← e.denote Γ scope) :: (← denoteFields Γ scope es)
termination_by structural es => es

/-- What the arguments of an operator mean whose rows have the shape `element`. -/
def denoteArguments (Γ : Shapes) (scope : Scope) (element : Shape) : List Expr → List Argument
  | [] => []
  | e :: es =>
    { value := fun _ => e.denote Γ scope
      apply := e.denoteLambda Γ scope element } :: denoteArguments Γ scope element es
termination_by structural es => es

/-- A lambda applied to rows of the shape `element`. -/
def denoteLambda (Γ : Shapes) (scope : Scope) (element : Shape) (e : Expr) (values : List Value) :
    Outcome Value :=
  match e with
  | .lambda params body =>
    if params.length = values.length then
      body.denote (params.map (·, element) ++ Γ) (scope.bind params values)
    else throw (.arityMismatch (.lambda params body))
  | e => throw (.notALambda e)
termination_by structural e

end

end Expr

/-- Records are made of the same fields if they are the same. -/
theorem Outcome.fields_of_record {x y : Outcome (List (String × Value))}
    (h : (do return Value.record (← x)) = (do return Value.record (← y) : Outcome Value)) : x = y := by
  cases x <;> cases y <;> cases h <;> rfl

theorem denote_record_cons {c : Catalog} {tables : Tables} {o o' : OpenRows} {Γ Γ' : Shapes}
    {scope scope' : Scope} {name : String} {e e' : Expr} {fields fields' : List (String × Expr)}
    (he : e'.denote c tables o' Γ' scope' = e.denote c tables o Γ scope)
    (hf : (Expr.record fields').denote c tables o' Γ' scope' =
      (Expr.record fields).denote c tables o Γ scope) :
    (Expr.record ((name, e') :: fields')).denote c tables o' Γ' scope' =
      (Expr.record ((name, e) :: fields)).denote c tables o Γ scope := by
  simp only [Expr.denote, Expr.denoteFields] at hf ⊢
  rw [he, Outcome.fields_of_record hf]

end EntityQuery
