import EntityQuery.Evaluation.Evaluate
import EntityQuery.Proofs.Layer
import EntityQuery.Proofs.Outcome

/-!
# Evaluation while rows are open

During an expansion an expression still holds row references and streams. `RowView` says what they
stand for: each reference has a row, and the rows behind a stream are found in its own physical row
at the path of their node. `evalIn` evaluates with a view what `eval` evaluates without, and it is
`eval` on expressions that need no view (`evalIn_eq_eval`).

`Agree` relates two expressions that can stand for each other as values and as arguments of
operators. One layer of an expression keeps it (`agree_of_sameHead`).
-/

namespace EntityQuery

/-- The value at a member path. -/
def Value.at (v : Value) (path : List String) : Outcome Value :=
  path.foldlM (fun v member => evalMember member v) v

/-- What row references stand for. -/
structure RowView where
  /-- Where the rows of a node are in the row of their stream. -/
  path : NodeId → Option (List String)
  row : RowRef → Outcome Value

namespace RowView

/-- The view inside a stream with the row `w`: its own references are read from that row. -/
def enter (v : RowView) (sources : List SourceId) (w : Value) : RowView where
  path := v.path
  row r :=
    if sources.contains r.source then
      match v.path r.node with
      | some path => w.at path
      | none => throw (.notEvaluable (.rowRef r))
    else v.row r

end RowView

/-- What a frame makes of projected rows: the list of them, or the answer of its operator. -/
def StreamFrame.answer (frame : StreamFrame) (rows : Outcome (List Value)) : Outcome Value :=
  match frame.cardinality with
  | some operator =>
    evalOperator operator [⟨fun _ => .list <$> rows, fun _ => throw (.notALambda .null)⟩]
  | none => .list <$> rows

theorem StreamFrame.answer_alike (frame : StreamFrame) {rows rows' : Outcome (List Value)}
    (h : Alike rows rows') : Alike (frame.answer rows) (frame.answer rows') := by
  unfold answer
  split
  · exact evalOperator_alike _ (.cons ⟨h.map _, fun _ => .refl _⟩ .nil)
  · exact h.map _

namespace Expr

mutual

/-- The value of an expression of an expansion. -/
def evalIn (tables : Tables) (v : RowView) (scope : Scope) : Expr → Outcome Value
  | .entitySet entity =>
    match tables.lookup entity with
    | some rows => return .list rows
    | none => throw (.noTable entity)
  | .const value => return evalLiteral value
  | .param name =>
    match scope.lookup name with
    | some v => return v
    | none => throw (.unboundParameter name)
  | .member target name => do evalMember name (← target.evalIn tables v scope)
  | .binary op left right => do
    let left ← left.evalIn tables v scope
    let right ← right.evalIn tables v scope
    return evalBinary op left right
  | .not operand => do return evalNot (← operand.evalIn tables v scope)
  | .cond test ifTrue ifFalse => do
    if (← test.evalIn tables v scope).isTrue then ifTrue.evalIn tables v scope
    else ifFalse.evalIn tables v scope
  | .record fields => do return .record (← evalFieldsIn tables v scope fields)
  | .tuple items => do return .tuple (← evalItemsIn tables v scope items)
  | .convert operand _ _ => operand.evalIn tables v scope
  | .function "Equals" [left, right] => do
    let left ← left.evalIn tables v scope
    let right ← right.evalIn tables v scope
    return .bool (left.equals right)
  | .nullSafeEqual guards left right => do
    if ← anyNullGuardIn tables v scope guards then return .bool false
    else
      let left ← left.evalIn tables v scope
      let right ← right.evalIn tables v scope
      return .bool (left.equals right)
  | .entityShape _ rows => rows.evalIn tables v scope
  | .call operator arguments _ => evalOperator operator (evalArgumentsIn tables v scope arguments)
  | .function name arguments => throw (.notEvaluable (.function name arguments))
  | .lambda params body => throw (.notEvaluable (.lambda params body))
  | .rowRef ref => v.row ref
  | .stream rows selector frame =>
    frame.answer do
      let rows ←
        Argument.rows ⟨fun _ => rows.evalIn tables v scope, fun _ => throw (.notALambda rows)⟩
      rows.mapM fun w => selector.evalIn tables (v.enter frame.sources w) scope
termination_by structural e => e

def evalItemsIn (tables : Tables) (v : RowView) (scope : Scope) :
    List Expr → Outcome (List Value)
  | [] => return []
  | e :: es => do return (← e.evalIn tables v scope) :: (← evalItemsIn tables v scope es)
termination_by structural es => es

def evalFieldsIn (tables : Tables) (v : RowView) (scope : Scope) :
    List (String × Expr) → Outcome (List (String × Value))
  | [] => return []
  | (name, e) :: es => do
    return (name, ← e.evalIn tables v scope) :: (← evalFieldsIn tables v scope es)
termination_by structural es => es

def anyNullGuardIn (tables : Tables) (v : RowView) (scope : Scope) : List Expr → Outcome Bool
  | [] => return false
  | e :: es => do
    if (← e.evalIn tables v scope).isNull then return true
    else anyNullGuardIn tables v scope es
termination_by structural es => es

def evalArgumentsIn (tables : Tables) (v : RowView) (scope : Scope) : List Expr → List Argument
  | [] => []
  | e :: es =>
    { value := fun _ => e.evalIn tables v scope
      apply := e.applyIn tables v scope } :: evalArgumentsIn tables v scope es
termination_by structural es => es

/-- The value of a lambda on as many values as it has parameters. -/
def applyIn (tables : Tables) (v : RowView) (scope : Scope) (e : Expr) (values : List Value) :
    Outcome Value :=
  match e with
  | .lambda params body =>
    if params.length = values.length then body.evalIn tables v (scope.bind params values)
    else throw (.arityMismatch (.lambda params body))
  | e => throw (.notALambda e)
termination_by structural e

end

theorem evalIn_function (tables : Tables) (v : RowView) (scope : Scope) {name : String}
    (args : List Expr) (h : name ≠ "Equals") :
    evalIn tables v scope (.function name args) = .error (.notEvaluable (.function name args)) := by
  unfold evalIn
  split <;> rename_i heq <;> cases heq
  · exact absurd rfl h
  · rfl

/-- The node means the same in every view and scope in which its parts do. -/
def isClosedHead : Expr → Bool
  | .param _ | .rowRef _ | .lambda .. | .stream .. => false
  | _ => true

end Expr

/-- Two expressions that can stand for each other, each in its own view and scope. -/
structure Agree (tables : Tables) (v : RowView) (scope : Scope) (e : Expr) (v' : RowView)
    (scope' : Scope) (e' : Expr) : Prop where
  value : Alike (e.evalIn tables v scope) (e'.evalIn tables v' scope')
  apply : ∀ values, Alike (e.applyIn tables v scope values) (e'.applyIn tables v' scope' values)

namespace Agree

open EntityQuery.Expr

variable {tables : Tables} {v v' v'' : RowView} {scope scope' scope'' : Scope} {e e' e'' : Expr}

theorem refl (tables : Tables) (v : RowView) (scope : Scope) (e : Expr) :
    Agree tables v scope e v scope e :=
  ⟨.refl _, fun _ => .refl _⟩

theorem symm (h : Agree tables v scope e v' scope' e') : Agree tables v' scope' e' v scope e :=
  ⟨h.value.symm, fun values => (h.apply values).symm⟩

theorem trans (h : Agree tables v scope e v' scope' e')
    (k : Agree tables v' scope' e' v'' scope'' e'') : Agree tables v scope e v'' scope'' e'' :=
  ⟨h.value.trans k.value, fun values => (h.apply values).trans (k.apply values)⟩

/-- Only a lambda can be applied. -/
theorem applyIn_refused (tables : Tables) (v : RowView) (scope : Scope) {e : Expr}
    (h : ∀ params body, e ≠ .lambda params body) (values : List Value) :
    e.applyIn tables v scope values = .error (.notALambda e) := by
  cases e with
  | lambda params body => exact absurd rfl (h params body)
  | _ => rfl

theorem of_value (h : Alike (e.evalIn tables v scope) (e'.evalIn tables v' scope'))
    (he : ∀ params body, e ≠ .lambda params body) (he' : ∀ params body, e' ≠ .lambda params body) :
    Agree tables v scope e v' scope' e' := by
  refine ⟨h, fun values => ?_⟩
  rw [applyIn_refused tables v scope he, applyIn_refused tables v' scope' he']
  exact .error rfl

theorem arguments {es es' : List Expr}
    (h : List.Forall₂ (fun c c' => Agree tables v scope c v' scope' c') es es') :
    List.Forall₂ Argument.Alike (evalArgumentsIn tables v scope es)
      (evalArgumentsIn tables v' scope' es') := by
  induction h with
  | nil => exact .nil
  | cons h _ ih => exact .cons ⟨h.value, h.apply⟩ ih

theorem items {es es' : List Expr}
    (h : List.Forall₂ (fun c c' => Agree tables v scope c v' scope' c') es es') :
    Alike (evalItemsIn tables v scope es) (evalItemsIn tables v' scope' es') := by
  induction h with
  | nil => rfl
  | cons h _ ih => exact .bind h.value fun _ _ => .bind ih fun _ _ => .refl _

theorem fields {es es' : List (String × Expr)}
    (h : List.Forall₂ (fun x y => x.1 = y.1 ∧ Agree tables v scope x.2 v' scope' y.2) es es') :
    Alike (evalFieldsIn tables v scope es) (evalFieldsIn tables v' scope' es') := by
  induction h with
  | nil => rfl
  | @cons x y _ _ h _ ih =>
    obtain ⟨name, d⟩ := x
    obtain ⟨name', d'⟩ := y
    obtain ⟨rfl, h⟩ := h
    exact .bind h.value fun _ _ => .bind ih fun _ _ => .refl _

theorem guards {es es' : List Expr}
    (h : List.Forall₂ (fun c c' => Alike (c.evalIn tables v scope) (c'.evalIn tables v' scope'))
      es es') :
    Alike (anyNullGuardIn tables v scope es) (anyNullGuardIn tables v' scope' es') := by
  induction h with
  | nil => rfl
  | cons h _ ih =>
    refine .bind h fun x _ => ?_
    cases x.isNull with
    | true => exact .refl _
    | false => exact ih

theorem nullSafeEqual {gs gs' : List Expr} {a a' b b' : Expr}
    (hg : List.Forall₂
      (fun c c' => Alike (c.evalIn tables v scope) (c'.evalIn tables v' scope')) gs gs')
    (ha : Agree tables v scope a v' scope' a') (hb : Agree tables v scope b v' scope' b') :
    Agree tables v scope (.nullSafeEqual gs a b) v' scope' (.nullSafeEqual gs' a' b') := by
  refine of_value (.bind (guards hg) fun x _ => ?_) (by simp) (by simp)
  cases x with
  | true => exact .refl _
  | false => exact .bind ha.value fun _ _ => .bind hb.value fun _ _ => .refl _

theorem lambda {params params' : List String} {body body' : Expr}
    (hp : params.length = params'.length)
    (h : ∀ values, params.length = values.length → Alike
      (body.evalIn tables v (scope.bind params values))
      (body'.evalIn tables v' (scope'.bind params' values))) :
    Agree tables v scope (.lambda params body) v' scope' (.lambda params' body') := by
  refine ⟨.error rfl, fun values => ?_⟩
  simp only [applyIn, ← hp]
  split
  · next hl => exact h values hl
  · exact .error rfl

theorem stream {rows rows' selector selector' : Expr} {frame : StreamFrame}
    (hr : Agree tables v scope rows v' scope' rows')
    (hs : ∀ w, Alike (selector.evalIn tables (v.enter frame.sources w) scope)
      (selector'.evalIn tables (v'.enter frame.sources w) scope')) :
    Agree tables v scope (.stream rows selector frame) v' scope' (.stream rows' selector' frame) := by
  refine of_value (frame.answer_alike ?_) (by simp) (by simp)
  exact .bind (Argument.Alike.rows hr.value) fun rows _ => mapM_alike fun w _ => hs w

/-- Away from parameters, references, lambdas and streams, expressions agree if their parts do. -/
theorem of_sameHead (h : SameHead (fun c c' => Agree tables v scope c v' scope' c') e e')
    (he : e.isClosedHead = true) : Agree tables v scope e v' scope' e' := by
  cases h with
  | param _ | rowRef _ | lambda _ _ | stream _ _ _ => cases he
  | entitySet entity | const value => exact of_value (.refl _) (by simp) (by simp)
  | member name h => exact of_value (.bind h.value fun _ _ => .refl _) (by simp) (by simp)
  | binary op ha hb =>
    refine of_value (.bind ha.value fun _ _ => .bind hb.value fun _ _ => .refl _)
      (by simp) (by simp)
  | not h => exact of_value (.bind h.value fun _ _ => .refl _) (by simp) (by simp)
  | cond ha hb hc =>
    refine of_value (.bind ha.value fun x _ => ?_) (by simp) (by simp)
    cases x.isTrue with
    | true => exact hb.value
    | false => exact hc.value
  | record h => exact of_value (.bind (fields h) fun _ _ => .refl _) (by simp) (by simp)
  | tuple h => exact of_value (.bind (items h) fun _ _ => .refl _) (by simp) (by simp)
  | convert _ _ h => exact of_value h.value (by simp) (by simp)
  | @function args args' name h =>
    refine of_value ?_ (by simp) (by simp)
    by_cases hn : name = "Equals"
    · subst hn
      rcases h with _ | ⟨h₁, _ | ⟨h₂, _ | _⟩⟩
      case cons.cons.nil =>
        exact .bind h₁.value fun _ _ => .bind h₂.value fun _ _ => .refl _
      all_goals exact .error rfl
    · rw [evalIn_function tables v scope args hn, evalIn_function tables v' scope' args' hn]
      exact .error rfl
  | call operator note h =>
    exact of_value (evalOperator_alike operator (arguments h)) (by simp) (by simp)
  | nullSafeEqual h ha hb => exact nullSafeEqual (h.imp fun _ _ h => h.value) ha hb
  | entityShape _ h => exact of_value h.value (by simp) (by simp)

end Agree

end EntityQuery
