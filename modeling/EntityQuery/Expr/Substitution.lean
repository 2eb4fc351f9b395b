import EntityQuery.Expr.Traversal

/-!
# Parameters and substitution

A lambda binds its parameters in its body, and no other node binds anything. `substitute` replaces
the free occurrences of one parameter; it does not rename the lambdas that it enters, so a free
parameter of the replacement can be captured there.
-/

namespace EntityQuery.Expr

mutual

/-- The parameters that occur free, from left to right and with repetitions. -/
def freeParams : Expr → List String
  | .entitySet _ | .const _ | .rowRef _ => []
  | .param name => [name]
  | .member target _ => target.freeParams
  | .binary _ left right => left.freeParams ++ right.freeParams
  | .not operand => operand.freeParams
  | .cond test ifTrue ifFalse => test.freeParams ++ ifTrue.freeParams ++ ifFalse.freeParams
  | .record fields => fieldsFreeParams fields
  | .tuple items => itemsFreeParams items
  | .convert operand _ _ => operand.freeParams
  | .function _ arguments => itemsFreeParams arguments
  | .call _ arguments _ => itemsFreeParams arguments
  | .lambda params body => body.freeParams.filter (!params.contains ·)
  | .stream rows selector _ => rows.freeParams ++ selector.freeParams
  | .nullSafeEqual guards left right =>
    itemsFreeParams guards ++ left.freeParams ++ right.freeParams
  | .entityShape _ rows => rows.freeParams
termination_by structural e => e

def itemsFreeParams : List Expr → List String
  | [] => []
  | e :: es => e.freeParams ++ itemsFreeParams es
termination_by structural es => es

def fieldsFreeParams : List (String × Expr) → List String
  | [] => []
  | (_, e) :: es => e.freeParams ++ fieldsFreeParams es
termination_by structural es => es

end

/-- Whether a parameter occurs free. -/
def mentions (e : Expr) (name : String) : Bool := e.freeParams.contains name

/-- What substitution does where it does not simply go on to the parts: it replaces the parameter,
and it leaves a lambda alone that binds the parameter anew. -/
def substituteAt (name : String) (replacement : Expr) : Expr → Option (Id Expr)
  | .param p => if p = name then some (pure replacement) else none
  | .lambda params body => if name ∈ params then some (pure (.lambda params body)) else none
  | _ => none

/-- Puts `replacement` for the free occurrences of a parameter. -/
def substitute (e : Expr) (name : String) (replacement : Expr) : Expr :=
  (e.descend (substituteAt name replacement)).run

@[simp] theorem substitute_param (name p : String) (replacement : Expr) :
    substitute (.param p) name replacement = if p = name then replacement else .param p := by
  simp only [substitute, descend_eq, substituteAt]
  split <;> rfl

@[simp] theorem substitute_lambda (name : String) (replacement : Expr) (params : List String)
    (body : Expr) :
    substitute (.lambda params body) name replacement =
      if name ∈ params then .lambda params body
      else .lambda params (body.substitute name replacement) := by
  simp only [substitute, descend_eq (substituteAt name replacement) (.lambda params body),
    substituteAt]
  split <;> rfl

/-- Away from parameters and lambdas, substitution acts on the parts alone. -/
theorem substitute_of_none {name : String} {replacement e : Expr}
    (h : substituteAt name replacement e = none) :
    e.substitute name replacement =
      (e.mapChildren fun c => (pure (c.substitute name replacement) : Id Expr)).run := by
  simp only [substitute, descend_eq (substituteAt name replacement) e, h, Option.getD_none]
  rfl

mutual

/-- Putting one parameter for another changes no size. -/
theorem size_substitute_param (name new : String) (e : Expr) :
    (e.substitute name (.param new)).size = e.size := by
  cases e with
  | param p => rw [substitute_param]; split <;> rfl
  | lambda params body =>
    rw [substitute_lambda]
    split
    · rfl
    · simp only [size, size_substitute_param name new body]
  | entitySet _ | const _ | rowRef _ => rfl
  | member target _ => exact congrArg (· + 1) (size_substitute_param name new target)
  | binary _ left right =>
    exact congrArg (· + 1) (congr (congrArg (· + ·) (size_substitute_param name new left))
      (size_substitute_param name new right))
  | not operand => exact congrArg (· + 1) (size_substitute_param name new operand)
  | cond test ifTrue ifFalse =>
    exact congrArg (· + 1) (congr (congrArg (· + ·) (congr (congrArg (· + ·)
      (size_substitute_param name new test)) (size_substitute_param name new ifTrue)))
      (size_substitute_param name new ifFalse))
  | record fields => exact congrArg (· + 1) (fieldsSize_substitute_param name new fields)
  | tuple items => exact congrArg (· + 1) (itemsSize_substitute_param name new items)
  | convert operand _ _ => exact congrArg (· + 1) (size_substitute_param name new operand)
  | function _ arguments => exact congrArg (· + 1) (itemsSize_substitute_param name new arguments)
  | call _ arguments _ => exact congrArg (· + 1) (itemsSize_substitute_param name new arguments)
  | stream rows selector _ =>
    exact congrArg (· + 1) (congr (congrArg (· + ·) (size_substitute_param name new rows))
      (size_substitute_param name new selector))
  | nullSafeEqual guards left right =>
    exact congrArg (· + 1) (congr (congrArg (· + ·) (congr (congrArg (· + ·)
      (itemsSize_substitute_param name new guards)) (size_substitute_param name new left)))
      (size_substitute_param name new right))
  | entityShape _ rows => exact congrArg (· + 1) (size_substitute_param name new rows)

theorem itemsSize_substitute_param (name new : String) (es : List Expr) :
    itemsSize (descendItems (substituteAt name (.param new)) es).run = itemsSize es := by
  cases es with
  | nil => rfl
  | cons e es =>
    exact congrArg (· + 1) (congr (congrArg (· + ·) (size_substitute_param name new e))
      (itemsSize_substitute_param name new es))

theorem fieldsSize_substitute_param (name new : String) (es : List (String × Expr)) :
    fieldsSize (descendFields (substituteAt name (.param new)) es).run = fieldsSize es := by
  cases es with
  | nil => rfl
  | cons e es =>
    exact congrArg (· + 1) (congr (congrArg (· + ·) (size_substitute_param name new e.2))
      (fieldsSize_substitute_param name new es))

end

end EntityQuery.Expr

namespace EntityQuery.Lambda

/-- Gives a parameter of a lambda another name, in the parameter list and in the body. -/
def rename (l : Lambda) (old new : String) : Lambda :=
  ⟨l.params.map fun p => if p = old then new else p, l.body.substitute old (.param new)⟩

theorem size_body_rename (l : Lambda) (old new : String) :
    (l.rename old new).body.size = l.body.size := by
  rw [rename]
  exact Expr.size_substitute_param old new l.body

end EntityQuery.Lambda
