import EntityQuery.Expr.Basic

/-!
# Walking over expressions

`children` and `mapChildren` describe one layer of the tree. On top of them stand four walks:
`nodes` lists a tree in pre-order, `rewrite` rebuilds it from the leaves upwards, `descend` goes
down from the root and stops where its action takes over, and `gather` collects in the same way.
Each walk is given by structural recursion, and its equation over one layer (`nodes_eq`,
`rewrite_eq`, `descend_eq`, `gather_eq`) is the form in which proofs use it.
-/

namespace EntityQuery.Expr

/-- The direct parts of an expression, in the order in which they are evaluated. -/
def children : Expr → List Expr
  | .entitySet _ | .const _ | .param _ | .rowRef _ => []
  | .member target _ => [target]
  | .binary _ left right => [left, right]
  | .not operand => [operand]
  | .cond test ifTrue ifFalse => [test, ifTrue, ifFalse]
  | .record fields => fields.map (·.2)
  | .tuple items => items
  | .convert operand _ _ => [operand]
  | .function _ arguments => arguments
  | .call _ arguments _ => arguments
  | .lambda _ body => [body]
  | .stream rows selector _ => [rows, selector]
  | .nullSafeEqual guards left right => guards ++ [left, right]
  | .entityShape _ rows => [rows]

/-- Acts on the values of a record's fields. -/
def mapFields {m : Type → Type} [Monad m] (f : Expr → m Expr) :
    List (String × Expr) → m (List (String × Expr))
  | [] => pure []
  | (name, value) :: fields => do return (name, ← f value) :: (← mapFields f fields)

/-- Acts on each expression of a list in turn. -/
def mapItems {m : Type → Type} [Monad m] (f : Expr → m Expr) : List Expr → m (List Expr)
  | [] => pure []
  | e :: es => do return (← f e) :: (← mapItems f es)

/-- Acts on the direct parts of an expression, in evaluation order, and rebuilds it. -/
def mapChildren {m : Type → Type} [Monad m] (f : Expr → m Expr) (e : Expr) : m Expr :=
  match e with
  | .entitySet _ | .const _ | .param _ | .rowRef _ => pure e
  | .member target name => do return .member (← f target) name
  | .binary op left right => do return .binary op (← f left) (← f right)
  | .not operand => do return .not (← f operand)
  | .cond test ifTrue ifFalse => do return .cond (← f test) (← f ifTrue) (← f ifFalse)
  | .record fields => do return .record (← mapFields f fields)
  | .tuple items => do return .tuple (← mapItems f items)
  | .convert operand dataType nullable => do return .convert (← f operand) dataType nullable
  | .function name arguments => do return .function name (← mapItems f arguments)
  | .call operator arguments note =>
    do return .call operator (← mapItems f arguments) note
  | .lambda params body => do return .lambda params (← f body)
  | .stream rows selector frame => do return .stream (← f rows) (← f selector) frame
  | .nullSafeEqual guards left right =>
    do return .nullSafeEqual (← mapItems f guards) (← f left) (← f right)
  | .entityShape entity rows => do return .entityShape entity (← f rows)

mutual

/-- The number of nodes of an expression, each list of parts counted with its length. -/
def size : Expr → Nat
  | .entitySet _ | .const _ | .param _ | .rowRef _ => 1
  | .member target _ => target.size + 1
  | .binary _ left right => left.size + right.size + 1
  | .not operand => operand.size + 1
  | .cond test ifTrue ifFalse => test.size + ifTrue.size + ifFalse.size + 1
  | .record fields => fieldsSize fields + 1
  | .tuple items => itemsSize items + 1
  | .convert operand _ _ => operand.size + 1
  | .function _ arguments => itemsSize arguments + 1
  | .call _ arguments _ => itemsSize arguments + 1
  | .lambda _ body => body.size + 1
  | .stream rows selector _ => rows.size + selector.size + 1
  | .nullSafeEqual guards left right => itemsSize guards + left.size + right.size + 1
  | .entityShape _ rows => rows.size + 1
termination_by structural e => e

def itemsSize : List Expr → Nat
  | [] => 0
  | e :: es => e.size + itemsSize es + 1
termination_by structural es => es

def fieldsSize : List (String × Expr) → Nat
  | [] => 0
  | (_, e) :: es => e.size + fieldsSize es + 1
termination_by structural es => es

end

theorem size_le_itemsSize {e : Expr} {es : List Expr} (h : e ∈ es) : e.size < itemsSize es := by
  induction es with
  | nil => cases h
  | cons d ds ih =>
    rw [itemsSize]
    rcases List.mem_cons.1 h with rfl | h
    · omega
    · have := ih h
      omega

theorem size_le_fieldsSize {e : Expr} {fields : List (String × Expr)}
    (h : e ∈ fields.map (·.2)) : e.size < fieldsSize fields := by
  induction fields with
  | nil => cases h
  | cons d ds ih =>
    obtain ⟨name, d⟩ := d
    rw [fieldsSize]
    rcases List.mem_cons.1 h with rfl | h
    · omega
    · have := ih h
      omega

/-- A part is smaller than the whole. -/
theorem size_lt_of_mem_children {c e : Expr} (h : c ∈ e.children) : c.size < e.size := by
  cases e <;> simp only [children, List.not_mem_nil, List.mem_cons, List.mem_append, or_false] at h
  case record fields => exact Nat.lt_succ_of_lt (size_le_fieldsSize h)
  case tuple items => exact Nat.lt_succ_of_lt (size_le_itemsSize h)
  case function name arguments => exact Nat.lt_succ_of_lt (size_le_itemsSize h)
  case call operator arguments note => exact Nat.lt_succ_of_lt (size_le_itemsSize h)
  case nullSafeEqual guards left right =>
    rw [size]
    rcases h with h | rfl | rfl
    · have := size_le_itemsSize h
      omega
    · omega
    · omega
  all_goals
    rw [size]
    rcases h with rfl | rfl | rfl <;> omega

section Parts

variable {m : Type → Type} [Monad m]

/-- `mapItems` for an action that may use that its expression is in the list. -/
def mapItemsIn : (es : List Expr) → ((c : Expr) → c ∈ es → m Expr) → m (List Expr)
  | [], _ => pure []
  | e :: es, f => do return (← f e (.head _)) :: (← mapItemsIn es fun c h => f c (.tail _ h))

/-- `mapFields` for an action that may use that its expression is a field's value. -/
def mapFieldsIn : (fields : List (String × Expr)) →
    ((c : Expr) → c ∈ fields.map (·.2) → m Expr) → m (List (String × Expr))
  | [], _ => pure []
  | (name, e) :: fields, f => do
    return (name, ← f e (.head _)) :: (← mapFieldsIn fields fun c h => f c (.tail _ h))

/-- `mapChildren` for an action that may use that its expression is a part of the whole, as an
action does that calls its own definition. -/
def mapParts (e : Expr) (f : (c : Expr) → c ∈ e.children → m Expr) : m Expr :=
  match e, f with
  | .entitySet entity, _ => pure (.entitySet entity)
  | .const value, _ => pure (.const value)
  | .param name, _ => pure (.param name)
  | .rowRef ref, _ => pure (.rowRef ref)
  | .member target name, f => do return .member (← f target (by simp [children])) name
  | .binary op left right, f => do
    return .binary op (← f left (by simp [children])) (← f right (by simp [children]))
  | .not operand, f => do return .not (← f operand (by simp [children]))
  | .cond test ifTrue ifFalse, f => do
    let test' ← f test (by simp [children])
    return .cond test' (← f ifTrue (by simp [children])) (← f ifFalse (by simp [children]))
  | .record fields, f => do return .record (← mapFieldsIn fields f)
  | .tuple items, f => do return .tuple (← mapItemsIn items f)
  | .convert operand dataType nullable, f => do
    return .convert (← f operand (by simp [children])) dataType nullable
  | .function name arguments, f => do return .function name (← mapItemsIn arguments f)
  | .call operator arguments note, f => do return .call operator (← mapItemsIn arguments f) note
  | .lambda params body, f => do return .lambda params (← f body (by simp [children]))
  | .stream rows selector frame, f => do
    let rows' ← f rows (by simp [children])
    return .stream rows' (← f selector (by simp [children])) frame
  | .nullSafeEqual guards left right, f => do
    let guards' ← mapItemsIn guards fun c h => f c (by simp [children, h])
    let left' ← f left (by simp [children])
    return .nullSafeEqual guards' left' (← f right (by simp [children]))
  | .entityShape entity rows, f => do return .entityShape entity (← f rows (by simp [children]))

theorem mapItemsIn_eq (f : Expr → m Expr) (es : List Expr) :
    (mapItemsIn es fun c _ => f c) = mapItems f es := by
  induction es with
  | nil => rfl
  | cons e es ih => simp only [mapItemsIn, mapItems, ih]

theorem mapFieldsIn_eq (f : Expr → m Expr) (fields : List (String × Expr)) :
    (mapFieldsIn fields fun c _ => f c) = mapFields f fields := by
  induction fields with
  | nil => rfl
  | cons e es ih => simp only [mapFieldsIn, mapFields, ih]

@[simp] theorem mapParts_eq (f : Expr → m Expr) (e : Expr) :
    (e.mapParts fun c _ => f c) = e.mapChildren f := by
  cases e
  case record fields =>
    exact congrArg (· >>= fun fields' => pure (Expr.record fields')) (mapFieldsIn_eq f fields)
  case tuple items =>
    exact congrArg (· >>= fun items' => pure (Expr.tuple items')) (mapItemsIn_eq f items)
  case function name arguments =>
    exact congrArg (· >>= fun items' => pure (Expr.function name items'))
      (mapItemsIn_eq f arguments)
  case call operator arguments note =>
    exact congrArg (· >>= fun items' => pure (Expr.call operator items' note))
      (mapItemsIn_eq f arguments)
  all_goals simp [mapParts, mapChildren, mapItemsIn_eq]

end Parts

mutual

/-- An expression and all expressions in it, in pre-order. -/
def nodes (e : Expr) : List Expr :=
  e :: match e with
  | .entitySet _ | .const _ | .param _ | .rowRef _ => []
  | .member target _ => target.nodes
  | .binary _ left right => left.nodes ++ right.nodes
  | .not operand => operand.nodes
  | .cond test ifTrue ifFalse => test.nodes ++ ifTrue.nodes ++ ifFalse.nodes
  | .record fields => fieldsNodes fields
  | .tuple items => itemsNodes items
  | .convert operand _ _ => operand.nodes
  | .function _ arguments => itemsNodes arguments
  | .call _ arguments _ => itemsNodes arguments
  | .lambda _ body => body.nodes
  | .stream rows selector _ => rows.nodes ++ selector.nodes
  | .nullSafeEqual guards left right => itemsNodes guards ++ left.nodes ++ right.nodes
  | .entityShape _ rows => rows.nodes
termination_by structural e

def itemsNodes : List Expr → List Expr
  | [] => []
  | e :: es => e.nodes ++ itemsNodes es
termination_by structural es => es

def fieldsNodes : List (String × Expr) → List Expr
  | [] => []
  | (_, e) :: es => e.nodes ++ fieldsNodes es
termination_by structural es => es

end

mutual

/-- Rebuilds an expression from the leaves upwards: the parts first, then `act` on the whole. -/
def rewrite {m : Type → Type} [Monad m] (act : Expr → m Expr) (e : Expr) : m Expr :=
  match e with
  | .entitySet _ | .const _ | .param _ | .rowRef _ => act e
  | .member target name => do act (.member (← target.rewrite act) name)
  | .binary op left right => do act (.binary op (← left.rewrite act) (← right.rewrite act))
  | .not operand => do act (.not (← operand.rewrite act))
  | .cond test ifTrue ifFalse =>
    do act (.cond (← test.rewrite act) (← ifTrue.rewrite act) (← ifFalse.rewrite act))
  | .record fields => do act (.record (← rewriteFields act fields))
  | .tuple items => do act (.tuple (← rewriteItems act items))
  | .convert operand dataType nullable =>
    do act (.convert (← operand.rewrite act) dataType nullable)
  | .function name arguments => do act (.function name (← rewriteItems act arguments))
  | .call operator arguments note =>
    do act (.call operator (← rewriteItems act arguments) note)
  | .lambda params body => do act (.lambda params (← body.rewrite act))
  | .stream rows selector frame =>
    do act (.stream (← rows.rewrite act) (← selector.rewrite act) frame)
  | .nullSafeEqual guards left right =>
    do
      let guards ← rewriteItems act guards
      act (.nullSafeEqual guards (← left.rewrite act) (← right.rewrite act))
  | .entityShape entity rows => do act (.entityShape entity (← rows.rewrite act))
termination_by structural e

def rewriteItems {m : Type → Type} [Monad m] (act : Expr → m Expr) :
    List Expr → m (List Expr)
  | [] => pure []
  | e :: es => do return (← e.rewrite act) :: (← rewriteItems act es)
termination_by structural es => es

def rewriteFields {m : Type → Type} [Monad m] (act : Expr → m Expr) :
    List (String × Expr) → m (List (String × Expr))
  | [] => pure []
  | (name, e) :: es => do return (name, ← e.rewrite act) :: (← rewriteFields act es)
termination_by structural es => es

end

mutual

/-- Goes down an expression. Where `act?` has an action for a node, the action's result stands for
the node and all below it; any other node is rebuilt from its parts. -/
def descend {m : Type → Type} [Monad m] (act? : Expr → Option (m Expr)) (e : Expr) : m Expr :=
  match act? e with
  | some result => result
  | none =>
    match e with
    | .entitySet _ | .const _ | .param _ | .rowRef _ => pure e
    | .member target name => do return .member (← target.descend act?) name
    | .binary op left right =>
      do return .binary op (← left.descend act?) (← right.descend act?)
    | .not operand => do return .not (← operand.descend act?)
    | .cond test ifTrue ifFalse =>
      do return .cond (← test.descend act?) (← ifTrue.descend act?) (← ifFalse.descend act?)
    | .record fields => do return .record (← descendFields act? fields)
    | .tuple items => do return .tuple (← descendItems act? items)
    | .convert operand dataType nullable =>
      do return .convert (← operand.descend act?) dataType nullable
    | .function name arguments => do return .function name (← descendItems act? arguments)
    | .call operator arguments note =>
      do return .call operator (← descendItems act? arguments) note
    | .lambda params body => do return .lambda params (← body.descend act?)
    | .stream rows selector frame =>
      do return .stream (← rows.descend act?) (← selector.descend act?) frame
    | .nullSafeEqual guards left right =>
      do
        let guards ← descendItems act? guards
        return .nullSafeEqual guards (← left.descend act?) (← right.descend act?)
    | .entityShape entity rows => do return .entityShape entity (← rows.descend act?)
termination_by structural e

def descendItems {m : Type → Type} [Monad m] (act? : Expr → Option (m Expr)) :
    List Expr → m (List Expr)
  | [] => pure []
  | e :: es => do return (← e.descend act?) :: (← descendItems act? es)
termination_by structural es => es

def descendFields {m : Type → Type} [Monad m] (act? : Expr → Option (m Expr)) :
    List (String × Expr) → m (List (String × Expr))
  | [] => pure []
  | (name, e) :: es => do return (name, ← e.descend act?) :: (← descendFields act? es)
termination_by structural es => es

end

mutual

/-- Collects from an expression what `find?` finds at its nodes, from left to right. What it finds
at a node stands for all below it. -/
def gather {α : Type} (find? : Expr → Option (List α)) (e : Expr) : List α :=
  match find? e with
  | some found => found
  | none =>
    match e with
    | .entitySet _ | .const _ | .param _ | .rowRef _ => []
    | .member target _ => target.gather find?
    | .binary _ left right => left.gather find? ++ right.gather find?
    | .not operand => operand.gather find?
    | .cond test ifTrue ifFalse =>
      test.gather find? ++ ifTrue.gather find? ++ ifFalse.gather find?
    | .record fields => gatherFields find? fields
    | .tuple items => gatherItems find? items
    | .convert operand _ _ => operand.gather find?
    | .function _ arguments => gatherItems find? arguments
    | .call _ arguments _ => gatherItems find? arguments
    | .lambda _ body => body.gather find?
    | .stream rows selector _ => rows.gather find? ++ selector.gather find?
    | .nullSafeEqual guards left right =>
      gatherItems find? guards ++ left.gather find? ++ right.gather find?
    | .entityShape _ rows => rows.gather find?
termination_by structural e

def gatherItems {α : Type} (find? : Expr → Option (List α)) : List Expr → List α
  | [] => []
  | e :: es => e.gather find? ++ gatherItems find? es
termination_by structural es => es

def gatherFields {α : Type} (find? : Expr → Option (List α)) : List (String × Expr) → List α
  | [] => []
  | (_, e) :: es => e.gather find? ++ gatherFields find? es
termination_by structural es => es

end

section Equations

variable {m : Type → Type} [Monad m]

theorem rewriteItems_eq (act : Expr → m Expr) (es : List Expr) :
    rewriteItems act es = mapItems (rewrite act) es := by
  induction es with
  | nil => rfl
  | cons e es ih => simp only [rewriteItems, mapItems, ih]

theorem rewriteFields_eq (act : Expr → m Expr) (es : List (String × Expr)) :
    rewriteFields act es = mapFields (rewrite act) es := by
  induction es with
  | nil => rfl
  | cons e es ih => simp only [rewriteFields, mapFields, ih]

theorem descendItems_eq (act? : Expr → Option (m Expr)) (es : List Expr) :
    descendItems act? es = mapItems (descend act?) es := by
  induction es with
  | nil => rfl
  | cons e es ih => simp only [descendItems, mapItems, ih]

theorem descendFields_eq (act? : Expr → Option (m Expr)) (es : List (String × Expr)) :
    descendFields act? es = mapFields (descend act?) es := by
  induction es with
  | nil => rfl
  | cons e es ih => simp only [descendFields, mapFields, ih]

/-- Rebuilding is: the parts, then the action. -/
theorem rewrite_eq [LawfulMonad m] (act : Expr → m Expr) (e : Expr) :
    rewrite act e = mapChildren (rewrite act) e >>= act := by
  cases e <;> simp [rewrite, mapChildren, rewriteItems_eq, rewriteFields_eq]

/-- Going down is: the action if there is one, otherwise the parts. -/
theorem descend_eq (act? : Expr → Option (m Expr)) (e : Expr) :
    descend act? e = (act? e).getD (mapChildren (descend act?) e) := by
  rw [descend.eq_def]
  cases act? e with
  | some r => rfl
  | none => cases e <;> simp [mapChildren, descendItems_eq, descendFields_eq]

end Equations

theorem gatherItems_eq {α : Type} (find? : Expr → Option (List α)) (es : List Expr) :
    gatherItems find? es = es.flatMap (gather find?) := by
  induction es with
  | nil => rfl
  | cons e es ih => simp [gatherItems, ih]

theorem gatherFields_eq {α : Type} (find? : Expr → Option (List α))
    (es : List (String × Expr)) :
    gatherFields find? es = (es.map (·.2)).flatMap (gather find?) := by
  induction es with
  | nil => rfl
  | cons e es ih => simp [gatherFields, ih]

/-- Collecting is: what is found at the node, otherwise what its parts have. -/
theorem gather_eq {α : Type} (find? : Expr → Option (List α)) (e : Expr) :
    gather find? e = (find? e).getD (e.children.flatMap (gather find?)) := by
  rw [gather.eq_def]
  cases find? e with
  | some l => rfl
  | none => cases e <;> simp [children, gatherItems_eq, gatherFields_eq]

theorem itemsNodes_eq (es : List Expr) : itemsNodes es = es.flatMap nodes := by
  induction es with
  | nil => rfl
  | cons e es ih => simp [itemsNodes, ih]

theorem fieldsNodes_eq (es : List (String × Expr)) :
    fieldsNodes es = (es.map (·.2)).flatMap nodes := by
  induction es with
  | nil => rfl
  | cons e es ih => simp [fieldsNodes, ih]

/-- Pre-order: the node itself, then its parts from left to right. -/
theorem nodes_eq (e : Expr) : e.nodes = e :: e.children.flatMap nodes := by
  cases e <;> simp [nodes, children, itemsNodes_eq, fieldsNodes_eq]

/-- The first argument of a call: the rows that the operator works on. -/
def callSource? : Expr → Option Expr
  | .call _ (source :: _) _ => some source
  | _ => none

/-- The bottom of a chain of calls, along their first arguments. -/
def chainRoot : Expr → Expr
  | .call _ (source :: _) _ => source.chainRoot
  | e => e

/-- The same chain of calls over another bottom. -/
def withChainRoot (e root : Expr) : Expr :=
  match e with
  | .call operator (source :: arguments) note =>
    .call operator (source.withChainRoot root :: arguments) note
  | _ => root
termination_by structural e

/-- The row references in an expression, in pre-order and with repetitions. -/
def rowRefs (e : Expr) : List RowRef :=
  e.nodes.filterMap fun
    | .rowRef ref => some ref
    | _ => none

/-- Whether a row reference of one of the given sources occurs. -/
def refersTo (sources : List SourceId) (e : Expr) : Bool :=
  e.rowRefs.any (sources.contains ·.source)

def hasStream (e : Expr) : Bool :=
  e.nodes.any fun
    | .stream .. => true
    | _ => false

end EntityQuery.Expr
