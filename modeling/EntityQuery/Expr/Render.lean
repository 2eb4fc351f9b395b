import EntityQuery.Decimal.Layout
import EntityQuery.Expr.Basic

/-!
# The text of a query

The one-line text in which queries are shown and quoted in messages. It is made for readers:
strings are not escaped, and conversions to a nullable type end in a question mark.
-/

namespace EntityQuery

def Literal.render : Literal → String
  | .null => "null"
  | .boolean b => if b then "true" else "false"
  | .integer n => toString n
  | .float x => Decimal.Layout.query.write x
  | .text s => "\"" ++ s ++ "\""

def RowRef.render (r : RowRef) : String :=
  s!"<{r.source}:{r.node}:" ++ ".".intercalate r.path ++ ">"

def renderParams : List String → String
  | [p] => p
  | ps => "(" ++ ", ".intercalate ps ++ ")"

namespace Expr

mutual

def render : Expr → String
  | .entitySet entity => "Set(" ++ entity ++ ")"
  | .const value => value.render
  | .param name => name
  | .member target name => target.render ++ "." ++ name
  | .binary op left right => "(" ++ left.render ++ " " ++ op.symbol ++ " " ++ right.render ++ ")"
  | .not operand => "!" ++ operand.render
  | .cond test ifTrue ifFalse =>
    "(" ++ test.render ++ " ? " ++ ifTrue.render ++ " : " ++ ifFalse.render ++ ")"
  | .record fields => "\x7b " ++ ", ".intercalate (renderFields fields) ++ " \x7d"
  | .tuple items => "(" ++ ", ".intercalate (renderItems items) ++ ")"
  | .convert operand dataType nullable =>
    "Convert(" ++ operand.render ++ ", " ++ dataType.name ++ (if nullable then "?" else "") ++ ")"
  | .function name arguments => name ++ "(" ++ ", ".intercalate (renderItems arguments) ++ ")"
  | .call operator arguments _ =>
    operator.name ++ "(" ++ ", ".intercalate (renderItems arguments) ++ ")"
  | .lambda params body => renderParams params ++ " => " ++ body.render
  | .rowRef ref => ref.render
  | .stream rows selector frame =>
    "Stream[" ++ rows.render ++ " | " ++ frame.parameter ++ " => " ++ selector.render ++ "]"
  | .nullSafeEqual guards left right =>
    "NullSafe[" ++ ", ".intercalate (renderItems guards) ++ "](" ++ left.render ++ " == " ++
      right.render ++ ")"
  | .entityShape entity rows => "Shape<" ++ entity ++ ">(" ++ rows.render ++ ")"
termination_by structural e => e

def renderItems : List Expr → List String
  | [] => []
  | e :: es => e.render :: renderItems es
termination_by structural es => es

def renderFields : List (String × Expr) → List String
  | [] => []
  | (name, e) :: es => (name ++ ": " ++ e.render) :: renderFields es
termination_by structural es => es

end

instance : ToString Expr := ⟨render⟩

end Expr

end EntityQuery
