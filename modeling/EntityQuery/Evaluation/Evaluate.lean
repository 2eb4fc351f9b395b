import EntityQuery.Evaluation.Operators

/-!
# Evaluation over tables

Evaluates expanded queries over tables in memory. A member of null is null, conversions and entity
shapes change nothing, and `And`, `Or` and predicates take everything but true for false. Integers
are those of 64 bits. Row references and streams belong to the expansion and have no value.
-/

namespace EntityQuery

/-- The rows of each entity. -/
abbrev Tables := List (String × List Value)

/-- The values of the parameters in view, the innermost binding first. -/
abbrev Scope := List (String × Value)

/-- Binds parameters to values; of two parameters of one name the later one is in view. -/
def Scope.bind (s : Scope) (params : List String) (values : List Value) : Scope :=
  (params.zip values).reverse ++ s

/-- The sum or difference of two numbers of one kind; anything else has none. Integers have 64 bits,
and a sum or difference that leaves their range wraps around. -/
def arithmetic (op : BinaryOp) (left right : Value) : Value :=
  match op, left, right with
  | .add, .int a, .int b => .int ((a + b).bmod UInt64.size)
  | .subtract, .int a, .int b => .int ((a - b).bmod UInt64.size)
  | .add, .float a, .float b => .float (a + b)
  | .subtract, .float a, .float b => .float (a - b)
  | _, _, _ => .null

/-- The value of a binary operator on the values of its operands. -/
def evalBinary (op : BinaryOp) (left right : Value) : Value :=
  match op with
  | .equal => .bool (left.equals right)
  | .notEqual => .bool !(left.equals right)
  | .and => .bool (left.isTrue && right.isTrue)
  | .or => .bool (left.isTrue || right.isTrue)
  | .less => .bool ((left.order? right).any (·.isLT))
  | .lessOrEqual => .bool ((left.order? right).any (·.isLE))
  | .greater => .bool ((left.order? right).any (·.isGT))
  | .greaterOrEqual => .bool ((left.order? right).any (·.isGE))
  | .add | .subtract => arithmetic op left right

def evalNot : Value → Value
  | .bool b => .bool !b
  | _ => .null

def evalMember (name : String) : Value → Outcome Value
  | .null => return .null
  | .record fields =>
    match Value.field? fields name with
    | some v => return v
    | none => throw (.noMember name (.record fields))
  | v => throw (.notARecord name v)

def evalLiteral : Literal → Value
  | .null => .null
  | .boolean b => .bool b
  | .integer n => .int n
  | .float x => .float x
  | .text s => .str s

namespace Expr

mutual

/-- The value of an expression. -/
def eval (tables : Tables) (scope : Scope) : Expr → Outcome Value
  | .entitySet entity =>
    match tables.lookup entity with
    | some rows => return .list rows
    | none => throw (.noTable entity)
  | .const value => return evalLiteral value
  | .param name =>
    match scope.lookup name with
    | some v => return v
    | none => throw (.unboundParameter name)
  | .member target name => do evalMember name (← target.eval tables scope)
  | .binary op left right => do
    let left ← left.eval tables scope
    let right ← right.eval tables scope
    return evalBinary op left right
  | .not operand => do return evalNot (← operand.eval tables scope)
  | .cond test ifTrue ifFalse => do
    if (← test.eval tables scope).isTrue then ifTrue.eval tables scope
    else ifFalse.eval tables scope
  | .record fields => do return .record (← evalFields tables scope fields)
  | .tuple items => do return .tuple (← evalItems tables scope items)
  | .convert operand _ _ => operand.eval tables scope
  | .function "Equals" [left, right] => do
    let left ← left.eval tables scope
    let right ← right.eval tables scope
    return .bool (left.equals right)
  | .nullSafeEqual guards left right => do
    if ← anyNullGuard tables scope guards then return .bool false
    else
      let left ← left.eval tables scope
      let right ← right.eval tables scope
      return .bool (left.equals right)
  | .entityShape _ rows => rows.eval tables scope
  | .call operator arguments _ => evalOperator operator (evalArguments tables scope arguments)
  | .function name arguments => throw (.notEvaluable (.function name arguments))
  | .lambda params body => throw (.notEvaluable (.lambda params body))
  | .rowRef ref => throw (.notEvaluable (.rowRef ref))
  | .stream rows selector frame => throw (.notEvaluable (.stream rows selector frame))
termination_by structural e => e

def evalItems (tables : Tables) (scope : Scope) : List Expr → Outcome (List Value)
  | [] => return []
  | e :: es => do return (← e.eval tables scope) :: (← evalItems tables scope es)
termination_by structural es => es

def evalFields (tables : Tables) (scope : Scope) :
    List (String × Expr) → Outcome (List (String × Value))
  | [] => return []
  | (name, e) :: es => do return (name, ← e.eval tables scope) :: (← evalFields tables scope es)
termination_by structural es => es

/-- Whether one of the guards is null. The guards after it are not looked at. -/
def anyNullGuard (tables : Tables) (scope : Scope) : List Expr → Outcome Bool
  | [] => return false
  | e :: es => do
    if (← e.eval tables scope).isNull then return true
    else anyNullGuard tables scope es
termination_by structural es => es

/-- What the arguments of a call mean. -/
def evalArguments (tables : Tables) (scope : Scope) : List Expr → List Argument
  | [] => []
  | e :: es =>
    { value := fun _ => e.eval tables scope
      apply := e.apply tables scope } :: evalArguments tables scope es
termination_by structural es => es

/-- The value of a lambda on as many values as it has parameters. -/
def apply (tables : Tables) (scope : Scope) (e : Expr) (values : List Value) : Outcome Value :=
  match e with
  | .lambda params body =>
    if params.length = values.length then body.eval tables (scope.bind params values)
    else throw (.arityMismatch (.lambda params body))
  | e => throw (.notALambda e)
termination_by structural e

end

/-- The value of a query over tables. -/
def evaluate (e : Expr) (tables : Tables) : Outcome Value := e.eval tables []

end Expr

end EntityQuery
