import EntityQuery.Expr.Basic
import EntityQuery.Json.Basic

/-!
# The document form of expressions

Every expression has one JSON form, in which each node is an object with its kind as the only
member name. `Expr.toJson` writes it and `Expr.ofJson?` reads it back.
-/

namespace EntityQuery

/-- An object with one member, which names the kind of a node. -/
def tagged (tag : String) (body : Json) : Json := .obj [(tag, body)]

namespace Operator

def toJson : Operator → Json
  | .other name => tagged "Other" (.str name)
  | op => .str op.name

def ofJson? : Json → Option Operator
  | .str name => registered? name
  | .obj [("Other", .str name)] => some (.other name)
  | _ => none

end Operator

namespace BinaryOp

def documentName : BinaryOp → String
  | .equal => "Equal"
  | .notEqual => "NotEqual"
  | .less => "LessThan"
  | .lessOrEqual => "LessThanOrEqual"
  | .greater => "GreaterThan"
  | .greaterOrEqual => "GreaterThanOrEqual"
  | .and => "And"
  | .or => "Or"
  | .add => "Add"
  | .subtract => "Subtract"

def all : List BinaryOp :=
  [.equal, .notEqual, .less, .lessOrEqual, .greater, .greaterOrEqual, .and, .or, .add, .subtract]

def ofJson? (j : Json) : Option BinaryOp := do
  let name ← j.str?
  all.find? (·.documentName == name)

end BinaryOp

namespace JoinKind

def documentName : JoinKind → String
  | .inner => "Inner"
  | .leftOuter => "LeftOuter"

def ofJson? : Json → Option JoinKind
  | .str "Inner" => some .inner
  | .str "LeftOuter" => some .leftOuter
  | _ => none

end JoinKind

namespace JoinNote

def toJson (n : JoinNote) : Json :=
  .obj [("kind", .str n.kind.documentName), ("target_entity", .ofOption .str n.targetEntity),
    ("navigation", .ofOption .str n.navigation), ("outer_key", .strings n.outerKey),
    ("inner_key", .strings n.innerKey), ("outer_null_guard", .bool n.outerNullGuard)]

def ofJson? (j : Json) : Option JoinNote := do
  return {
    kind := ← j.get? "kind" JoinKind.ofJson?
    targetEntity := ← j.optional? "target_entity" Json.str?
    navigation := ← j.optional? "navigation" Json.str?
    outerKey := ← j.get? "outer_key" Json.strings?
    innerKey := ← j.get? "inner_key" Json.strings?
    outerNullGuard := ← j.get? "outer_null_guard" Json.bool? }

end JoinNote

namespace CallNote

def toJson : CallNote → Json
  | .join n => tagged "Join" n.toJson
  | .collection owner navigation =>
    tagged "CollectionNavigation"
      (.obj [("owner_entity", .str owner), ("navigation", .str navigation)])
  | .leftJoinFlatten => .str "LeftJoinFlatten"

def ofJson? : Json → Option CallNote
  | .str "LeftJoinFlatten" => some .leftJoinFlatten
  | .obj [("Join", body)] => (JoinNote.ofJson? body).map .join
  | .obj [("CollectionNavigation", body)] => do
    return .collection (← body.get? "owner_entity" Json.str?)
      (← body.get? "navigation" Json.str?)
  | _ => none

end CallNote

namespace Literal

def toJson : Literal → Json
  | .null => .str "Null"
  | .boolean b => tagged "Boolean" (.bool b)
  | .integer n => tagged "Integer" (.int n)
  | .float x => tagged "Float" (.ofFloat x)
  | .text s => tagged "String" (.str s)

/-- A float constant may be written as an integer, an integer constant not as a float. -/
def ofJson? : Json → Option Literal
  | .str "Null" => some .null
  | .obj [("Boolean", body)] => body.bool?.map .boolean
  | .obj [("Integer", body)] => body.int?.map .integer
  | .obj [("Float", body)] => body.float?.map .float
  | .obj [("String", body)] => body.str?.map .text
  | _ => none

end Literal

namespace ScalarType

def ofJson? (j : Json) : Option ScalarType := j.str? >>= ofName?

end ScalarType

namespace RowRef

def toJson (r : RowRef) : Json :=
  .obj [("mapping", .nat r.source.index), ("node", .nat r.node.index), ("path", .strings r.path)]

def ofJson? (j : Json) : Option RowRef := do
  return {
    source := ⟨← j.get? "mapping" Json.nat?⟩
    node := ⟨← j.get? "node" Json.nat?⟩
    path := ← j.get? "path" Json.strings? }

end RowRef

namespace StreamFrame

/-- The members of a stream, between which its two expressions have their places. -/
def toMembers (f : StreamFrame) (rows selector : Json) : List (String × Json) :=
  [("source", rows), ("current_parameter", .str f.parameter),
    ("mappings", .arr (f.sources.map fun s => .nat s.index)), ("pending_selector", selector),
    ("apply_pending_selector", .bool f.needsProjection), ("ordered", .bool f.ordered),
    ("pending_cardinality", .ofOption Operator.toJson f.cardinality)]

def ofJson? (j : Json) : Option StreamFrame := do
  let sources ← j.get? "mappings" Json.items?
  return {
    parameter := ← j.get? "current_parameter" Json.str?
    sources := ← sources.mapM fun s => s.nat?.map SourceId.mk
    needsProjection := ← j.get? "apply_pending_selector" Json.bool?
    ordered := ← j.get? "ordered" Json.bool?
    cardinality := ← j.optional? "pending_cardinality" Operator.ofJson? }

end StreamFrame

namespace Expr

/-- The name of a node's kind. -/
def kind : Expr → String
  | .entitySet _ => "EntitySet"
  | .const _ => "Constant"
  | .param _ => "Parameter"
  | .member .. => "Member"
  | .binary .. => "Binary"
  | .not _ => "Not"
  | .cond .. => "Conditional"
  | .record _ => "Record"
  | .tuple _ => "Tuple"
  | .convert .. => "Convert"
  | .function .. => "Function"
  | .call .. => "Call"
  | .lambda .. => "Lambda"
  | .rowRef _ => "Binding"
  | .stream .. => "StreamState"
  | .nullSafeEqual .. => "NullSafeEqual"
  | .entityShape .. => "EntityShape"

mutual

def toJson (e : Expr) : Json :=
  tagged e.kind <| match e with
  | .entitySet entity => .obj [("entity", .str entity)]
  | .const value => value.toJson
  | .param name => .str name
  | .member target name => .obj [("target", target.toJson), ("member", .str name)]
  | .binary op left right =>
    .obj [("op", .str op.documentName), ("left", left.toJson), ("right", right.toJson)]
  | .not operand => operand.toJson
  | .cond test ifTrue ifFalse =>
    .obj [("test", test.toJson), ("if_true", ifTrue.toJson), ("if_false", ifFalse.toJson)]
  | .record fields => .arr (fieldsToJson fields)
  | .tuple items => .arr (itemsToJson items)
  | .convert operand dataType nullable =>
    .obj [("operand", operand.toJson), ("data_type", .str dataType.name),
      ("nullable", .bool nullable)]
  | .function name arguments =>
    .obj [("name", .str name), ("arguments", .arr (itemsToJson arguments))]
  | .call operator arguments note =>
    .obj [("operator", operator.toJson), ("arguments", .arr (itemsToJson arguments)),
      ("annotation", .ofOption CallNote.toJson note)]
  | .lambda params body => .obj [("params", .strings params), ("body", body.toJson)]
  | .rowRef ref => ref.toJson
  | .stream rows selector frame => .obj (frame.toMembers rows.toJson selector.toJson)
  | .nullSafeEqual guards left right =>
    .obj [("guards", .arr (itemsToJson guards)), ("left", left.toJson), ("right", right.toJson)]
  | .entityShape entity rows => .obj [("entity", .str entity), ("source", rows.toJson)]
termination_by structural e

def itemsToJson : List Expr → List Json
  | [] => []
  | e :: es => e.toJson :: itemsToJson es
termination_by structural es => es

def fieldsToJson : List (String × Expr) → List Json
  | [] => []
  | (name, e) :: es => .obj [("name", .str name), ("value", e.toJson)] :: fieldsToJson es
termination_by structural es => es

end

/-- Reads a document whose values are nested at most `n` deep. -/
def ofJsonWithin? : Nat → Json → Option Expr
  | 0, _ => none
  | n + 1, .obj [(tag, body)] =>
    let part (name : String) : Option Expr := body.get? name (ofJsonWithin? n)
    let items (j : Json) : Option (List Expr) := j.items? >>= (·.mapM (ofJsonWithin? n))
    let field (j : Json) : Option (String × Expr) := do
      return (← j.get? "name" Json.str?, ← j.get? "value" (ofJsonWithin? n))
    match tag with
    | "EntitySet" => (body.get? "entity" Json.str?).map .entitySet
    | "Constant" => (Literal.ofJson? body).map .const
    | "Parameter" => body.str?.map .param
    | "Member" => do return .member (← part "target") (← body.get? "member" Json.str?)
    | "Binary" => do
      return .binary (← body.get? "op" BinaryOp.ofJson?) (← part "left") (← part "right")
    | "Not" => (ofJsonWithin? n body).map .not
    | "Conditional" => do return .cond (← part "test") (← part "if_true") (← part "if_false")
    | "Record" => do return .record (← (← body.items?).mapM field)
    | "Tuple" => (items body).map .tuple
    | "Convert" => do
      return .convert (← part "operand") (← body.get? "data_type" ScalarType.ofJson?)
        (← body.get? "nullable" Json.bool?)
    | "Function" => do
      return .function (← body.get? "name" Json.str?) (← body.get? "arguments" items)
    | "Call" => do
      return .call (← body.get? "operator" Operator.ofJson?) (← body.get? "arguments" items)
        (← body.optional? "annotation" CallNote.ofJson?)
    | "Lambda" => do return .lambda (← body.get? "params" Json.strings?) (← part "body")
    | "Binding" => (RowRef.ofJson? body).map .rowRef
    | "StreamState" => do
      return .stream (← part "source") (← part "pending_selector")
        (← StreamFrame.ofJson? body)
    | "NullSafeEqual" => do
      return .nullSafeEqual (← body.get? "guards" items) (← part "left") (← part "right")
    | "EntityShape" => do
      return .entityShape (← body.get? "entity" Json.str?) (← part "source")
    | _ => none
  | _ + 1, _ => none

/-- Reads the document form of an expression. -/
def ofJson? (j : Json) : Option Expr := ofJsonWithin? j.depth j

end Expr

/-- The document of a stream: that of its expression, without the kind. -/
def Stream.toJson (s : Stream) : Json :=
  .obj (s.toStreamFrame.toMembers s.rows.toJson s.selector.toJson)

def Stream.ofJson? (j : Json) : Option Stream := do
  match ← Expr.ofJson? (tagged "StreamState" j) with
  | .stream rows selector frame => some { toStreamFrame := frame, rows, selector }
  | _ => none

end EntityQuery
