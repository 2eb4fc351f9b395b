import EntityQuery.Decimal.Layout
import EntityQuery.Evaluation.Value
import EntityQuery.Expr.Render
import EntityQuery.Text.Quoted

/-!
# What can go wrong in evaluation

The causes of a failed evaluation and their wording. Values are quoted in messages in a form that
shows their kind.
-/

namespace EntityQuery

namespace Value

mutual

/-- A value as messages quote it. -/
def describe : Value → String
  | null => "Null"
  | bool b => "Bool(" ++ (if b then "true" else "false") ++ ")"
  | int n => "Int(" ++ toString n ++ ")"
  | float x => "Float(" ++ Decimal.Layout.message.write x ++ ")"
  | str s => "Str(" ++ Text.quoted s ++ ")"
  | record fields => "Record([" ++ ", ".intercalate (describeFields fields) ++ "])"
  | tuple items => "Tuple([" ++ ", ".intercalate (describeItems items) ++ "])"
  | list items => "List([" ++ ", ".intercalate (describeItems items) ++ "])"
termination_by structural v => v

def describeItems : List Value → List String
  | [] => []
  | v :: vs => v.describe :: describeItems vs
termination_by structural vs => vs

def describeFields : List (String × Value) → List String
  | [] => []
  | (name, v) :: vs => ("(" ++ Text.quoted name ++ ", " ++ v.describe ++ ")") :: describeFields vs
termination_by structural vs => vs

end

end Value

inductive EvalError where
  | noTable (entity : String)
  | unboundParameter (name : String)
  | noMember (member : String) (record : Value)
  | notARecord (member : String) (value : Value)
  | notEvaluable (e : Expr)
  | notALambda (e : Expr)
  | arityMismatch (lambda : Expr)
  | notASequence (value : Value)
  | notACount (value : Value)
  | selectorNotASequence (value : Value)
  | unsupportedOperator (operator : Operator)
  | noElements
  | missingArgument (operator : Operator)
  deriving Repr

namespace EvalError

def message : EvalError → String
  | noTable entity => "no table for " ++ entity
  | unboundParameter name => "unbound parameter " ++ name
  | noMember member record => "no member " ++ member ++ " on " ++ record.describe
  | notARecord member value => "member " ++ member ++ " on non-record " ++ value.describe
  | notEvaluable e => "cannot evaluate " ++ e.render
  | notALambda e => "expected lambda, got " ++ e.render
  | arityMismatch lambda => "arity mismatch applying " ++ lambda.render
  | notASequence value => "expected a sequence, got " ++ value.describe
  | notACount value => "expected a count, got " ++ value.describe
  | selectorNotASequence value => "collection selector returned " ++ value.describe
  | unsupportedOperator operator => "evaluator does not support " ++ operator.name
  | noElements => "sequence contains no elements"
  | missingArgument operator => "missing argument of " ++ operator.name

end EvalError

end EntityQuery
