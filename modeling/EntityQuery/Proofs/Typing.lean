import EntityQuery.Catalog.Check
import EntityQuery.Proofs.Denotation
import EntityQuery.Proofs.FreshNames

/-!
# Well-shaped queries

`HasShape` are the rules by which expressions with navigations have shapes. On tables that carry
what the catalog declares, an expression that has a shape denotes a value of that shape
(`HasShape.denotes`).

The rules also follow an expression through an expansion: `Form.raw` is what users write,
`Form.bound` has no member left that could be bound, and in `Form.ready` no reference stands for a
collection. Bodies of lambdas stay raw until their operator is expanded.
-/

namespace EntityQuery

/-- How far an expression is prepared. -/
inductive Form where
  | raw
  | bound
  | ready
  deriving DecidableEq, Repr

/-- The value is neither a record nor a sequence of values. -/
def Value.isScalar : Value → Bool
  | .null | .bool _ | .int _ | .float _ | .str _ => true
  | _ => false

/-- The row has a scalar for every property of the type. -/
def Value.Carries (row : Value) (t : EntityType) : Prop :=
  ∃ fields, row = .record fields ∧
    ∀ p ∈ t.properties, ∃ v, Value.field? fields p.name = some v ∧ v.isScalar = true

/-- Every entity has a table whose rows carry its properties, a required navigation to a principal
leads to exactly one row, and any other single-valued one to at most one. -/
structure Consistent (c : Catalog) (tables : Tables) : Prop where
  carries : ∀ {entity t}, c.type? entity = some t →
    ∃ rows, tables.lookup entity = some rows ∧ ∀ row ∈ rows, row.Carries t
  single : ∀ {entity name edge rows owner}, c.navigation? entity name = some edge →
    tables.lookup entity = some rows → owner ∈ rows → edge.isCollection = false →
    (edge.related tables owner).length ≤ 1
  required : ∀ {entity name edge rows owner}, c.navigation? entity name = some edge →
    tables.lookup entity = some rows → owner ∈ rows → edge.isCollection = false →
    edge.isOptional = false → (edge.related tables owner).length = 1

/-- Every entity has a table whose rows carry its properties. Nothing is said of its navigations. -/
def Carried (c : Catalog) (tables : Tables) : Prop :=
  ∀ entity t, c.type? entity = some t →
    ∃ rows, tables.lookup entity = some rows ∧ ∀ row ∈ rows, row.Carries t

theorem Consistent.carried {c : Catalog} {tables : Tables} (h : Consistent c tables) :
    Carried c tables := fun _ _ => h.carries

namespace Shape

/-- The shape of a list of rows. -/
def isRows : Shape → Bool
  | rows _ => true
  | _ => false

mutual

/-- The value has the shape. An entity can be missing, and then is null. -/
def Fits (tables : Tables) : Shape → Value → Prop
  | scalar, _ => True
  | entity name, v => v = .null ∨ ∃ rows, tables.lookup name = some rows ∧ v ∈ rows
  | record fields, v => ∃ values, v = .record values ∧ FieldsFit tables fields values
  | rows element, v => ∃ items, v = .list items ∧ ∀ item ∈ items, Fits tables element item
termination_by structural s => s

def FieldsFit (tables : Tables) : List (String × Shape) → List (String × Value) → Prop
  | [], [] => True
  | (name, s) :: fields, (name', v) :: values =>
    name = name' ∧ Fits tables s v ∧ FieldsFit tables fields values
  | _, _ => False
termination_by structural fields => fields

end

end Shape

/-- What shapes are assigned over: the catalog, the rows that are open, the references and the
parameters that may occur. -/
structure Setting where
  catalog : Catalog
  entity : SourceId → Option String
  refs : RowRef → Prop
  names : String → Prop

/-- The shape of a reference in a setting. -/
def Setting.shapeOf (S : Setting) (r : RowRef) : Option Shape :=
  ((S.entity r.source).map Shape.entity).bind (·.along? S.catalog r.path)

namespace Shape

variable {c : Catalog} {tables : Tables}

theorem FieldsFit.lookup {fields : List (String × Shape)} {values : List (String × Value)}
    {name : String} {s : Shape} (h : FieldsFit tables fields values)
    (hs : fields.lookup name = some s) :
    ∃ v, Value.field? values name = some v ∧ Fits tables s v := by
  induction fields generalizing values with
  | nil => cases hs
  | cons field fields ih =>
    obtain ⟨n, t⟩ := field
    cases values with
    | nil => exact h.elim
    | cons value values =>
      obtain ⟨m, v⟩ := value
      obtain ⟨rfl, hv, h⟩ := h
      rw [List.lookup_cons] at hs
      rw [Value.field?, List.lookup_cons]
      split at hs
      · cases hs
        exact ⟨_, rfl, hv⟩
      · exact ih h hs

theorem mem_related {e : NavigationEdge} {owner row : Value} (h : row ∈ e.related tables owner) :
    ∃ rows, tables.lookup e.target = some rows ∧ row ∈ rows := by
  rw [NavigationEdge.related, List.mem_filter] at h
  cases hl : tables.lookup e.target with
  | none =>
    rw [hl] at h
    cases h.1
  | some rows =>
    rw [hl] at h
    exact ⟨rows, rfl, h.1⟩

theorem follow_fits (e : NavigationEdge) (owner : Value) :
    Fits tables e.shape (e.follow tables owner) := by
  rw [NavigationEdge.shape, NavigationEdge.follow]
  split
  · exact ⟨_, rfl, fun row hrow => .inr (mem_related hrow)⟩
  · cases h : e.related tables owner with
    | nil => exact .inl rfl
    | cons row rows => exact .inr (mem_related (h ▸ List.mem_cons_self))

theorem find?_property {t : EntityType} {p : Property} {name : String}
    (h : t.property? name = some p) : p ∈ t.properties ∧ p.name = name := by
  refine ⟨List.mem_of_find?_eq_some h, ?_⟩
  simpa using List.find?_some h

/-- A declared property of an entity, missing or not. -/
theorem property_fits (ht : Carried c tables) {entity name : String} {t : EntityType}
    {p : Property} {v : Value} (hv : Fits tables (.entity entity) v)
    (hc : c.type? entity = some t) (hp : t.property? name = some p) :
    ∃ v', evalMember name v = .ok v' ∧ v'.isScalar = true := by
  obtain ⟨hmem, rfl⟩ := find?_property hp
  rcases hv with rfl | ⟨rows, hl, hv⟩
  · exact ⟨.null, rfl, rfl⟩
  · obtain ⟨rows', hl', hcarries⟩ := ht entity t hc
    obtain rfl : rows = rows' := Option.some.inj (hl.symm.trans hl')
    obtain ⟨fields, rfl, hfields⟩ := hcarries v hv
    obtain ⟨v', hfield, hscalar⟩ := hfields p hmem
    exact ⟨v', by simp only [evalMember, hfield]; rfl, hscalar⟩

/-- A member has a value of its shape. -/
theorem read_fits (ht : Consistent c tables) {s s' : Shape} {name : String} {v : Value}
    (hs : s.member? c name = some s') (hv : Fits tables s v) :
    ∃ v', read c tables (some s) name v = .ok v' ∧ Fits tables s' v' := by
  cases s with
  | scalar => cases hs
  | entity owner =>
    simp only [member?] at hs
    simp only [Shape.read]
    split at hs
    · next edge he =>
      cases hs
      exact ⟨_, rfl, follow_fits edge v⟩
    · cases hc : c.type? owner with
      | none => simp [hc] at hs
      | some t =>
        cases hp : t.property? name with
        | none => simp [hc, hp] at hs
        | some p =>
          obtain ⟨v', hv', -⟩ := property_fits ht.carried hv hc hp
          obtain rfl : .scalar = s' := by simpa [hc, hp] using hs
          exact ⟨v', hv', trivial⟩
  | record fields =>
    obtain ⟨values, rfl, hv⟩ := hv
    obtain ⟨v', hfield, hv'⟩ := hv.lookup hs
    exact ⟨v', by simp only [Shape.read, evalMember, hfield]; rfl, hv'⟩
  | rows element =>
    simp only [member?] at hs
    split at hs
    · next hname =>
      cases hs
      subst hname
      obtain ⟨items, rfl, -⟩ := hv
      exact ⟨_, rfl, trivial⟩
    · cases hs

/-- A member path has a value of its shape. -/
theorem readAlong_fits (ht : Consistent c tables) {s s' : Shape} {path : List String} {v : Value}
    (hs : s.along? c path = some s') (hv : Fits tables s v) :
    ∃ v', readAlong c tables (some s) path v = .ok v' ∧ Fits tables s' v' := by
  induction path generalizing s v with
  | nil =>
    cases hs
    exact ⟨v, rfl, hv⟩
  | cons name path ih =>
    rw [along?, Option.bind_eq_some_iff] at hs
    obtain ⟨t, hmember, hs⟩ := hs
    obtain ⟨w, hread, hw⟩ := read_fits ht hmember hv
    obtain ⟨v', hv', hfits⟩ := ih hs hw
    refine ⟨v', ?_, hfits⟩
    simp only [readAlong, hread, Option.bind_some, hmember]
    exact hv'

end Shape

namespace Expr

/-- The expression is a row reference. -/
def isRef : Expr → Bool
  | .rowRef _ => true
  | _ => false

/-- The expression is a record expression. -/
def isRecord : Expr → Bool
  | .record _ => true
  | _ => false

end Expr

/-- The expression has the shape. The flag says whether queries may be nested in it. -/
inductive HasShape (S : Setting) : Form → Bool → Shapes → Expr → Shape → Prop where
  | param {f n Γ x s} (h : Γ.lookup x = some s) (hx : S.names x) : HasShape S f n Γ (.param x) s
  | const {f n Γ} (value : Literal) : HasShape S f n Γ (.const value) .scalar
  | ref {f n Γ r s} (h : S.shapeOf r = some s) (hr : S.refs r) (hn : s.isRows = true → n = true)
    (hf : f = .ready → s.isRows = false) : HasShape S f n Γ (.rowRef r) s
  | set {f Γ entity} {t : EntityType} (h : S.catalog.type? entity = some t) :
    HasShape S f true Γ (.entitySet entity) (.rows (.entity entity))
  | property {f n Γ e entity name} {t : EntityType} {p : Property}
    (he : HasShape S f n Γ e (.entity entity)) (ht : S.catalog.type? entity = some t)
    (hn : t.navigation? name = none) (hp : t.property? name = some p) :
    HasShape S f n Γ (.member e name) .scalar
  | navigation {f n Γ e entity name edge} (he : HasShape S f n Γ e (.entity entity))
    (hn : S.catalog.navigation? entity name = some edge) (hc : edge.isCollection = true → n = true)
    (hf : f ≠ .raw → e.isRef = false) : HasShape S f n Γ (.member e name) edge.shape
  | field {f n Γ e fields name s} (he : HasShape S f n Γ e (.record fields))
    (hs : fields.lookup name = some s) (hf : f ≠ .raw → e.isRecord = false) :
    HasShape S f n Γ (.member e name) s
  | size {f Γ e entity name edge} (he : HasShape S f true Γ e (.entity entity))
    (hn : S.catalog.navigation? entity name = some edge) (hc : edge.isCollection = true)
    (hf : f ≠ .raw → e.isRef = false) :
    HasShape S f true Γ (.member (.member e name) "Count") .scalar
  | refSize {f Γ r s} (h : S.shapeOf r = some (.rows s)) (hr : S.refs r) (hf : f ≠ .ready) :
    HasShape S f true Γ (.member (.rowRef r) "Count") .scalar
  | binary {f n Γ a b s t} (op : BinaryOp) (ha : HasShape S f n Γ a s) (hb : HasShape S f n Γ b t)
    (hop : op.isEquality = true → s = .scalar ∧ t = .scalar) :
    HasShape S f n Γ (.binary op a b) .scalar
  | not {f n Γ a s} (ha : HasShape S f n Γ a s) : HasShape S f n Γ (.not a) .scalar
  | cond {f n Γ a b d s} (ha : HasShape S f n Γ a s) (hb : HasShape S f n Γ b .scalar)
    (hd : HasShape S f n Γ d .scalar) : HasShape S f n Γ (.cond a b d) .scalar
  | nil {f n Γ} : HasShape S f n Γ (.record []) (.record [])
  | cons {f n Γ name e s fields shapes} (he : HasShape S f n Γ e s)
    (hf : HasShape S f n Γ (.record fields) (.record shapes)) :
    HasShape S f n Γ (.record ((name, e) :: fields)) (.record ((name, s) :: shapes))
  | convert {f n Γ a} (t : ScalarType) (nullable : Bool) (ha : HasShape S f n Γ a .scalar) :
    HasShape S f n Γ (.convert a t nullable) .scalar
  | filter {f Γ source x body s} (note : Option CallNote) (hs : HasShape S f true Γ source (.rows s))
    (hb : HasShape S .raw true ((x, s) :: Γ) body .scalar) (hx : S.names x) :
    HasShape S f true Γ (.call .filter [source, .lambda [x] body] note) (.rows s)
  | total {f Γ source s operator} (note : Option CallNote) (ho : operator = .any ∨ operator = .count)
    (hs : HasShape S f true Γ source (.rows s)) :
    HasShape S f true Γ (.call operator [source] note) .scalar
  | totalWhere {f Γ source x body s operator} (note : Option CallNote)
    (ho : operator = .any ∨ operator = .count) (hs : HasShape S f true Γ source (.rows s))
    (hb : HasShape S .raw true ((x, s) :: Γ) body .scalar) (hx : S.names x) :
    HasShape S f true Γ (.call operator [source, .lambda [x] body] note) .scalar

/-- All rows that are open in a setting are open for a denotation. -/
def Setting.Within (S : Setting) (o : OpenRows) : Prop :=
  ∀ m entity, S.entity m = some entity → o.entity m = some entity

theorem Setting.shapeOf_eq_some {S : Setting} {r : RowRef} {s : Shape} :
    S.shapeOf r = some s ↔ ∃ entity, S.entity r.source = some entity ∧
      (Shape.entity entity).along? S.catalog r.path = some s := by
  simp only [Setting.shapeOf, Option.bind_eq_some_iff, Option.map_eq_some_iff]
  constructor
  · rintro ⟨_, ⟨entity, he, rfl⟩, h⟩
    exact ⟨entity, he, h⟩
  · rintro ⟨entity, he, h⟩
    exact ⟨_, ⟨entity, he, rfl⟩, h⟩

theorem Setting.shape?_rowRef (S : Setting) {o : OpenRows} (ho : S.Within o) {r : RowRef} {s : Shape}
    (h : S.shapeOf r = some s) {Γ : Shapes} : (Expr.rowRef r).shape? S.catalog o Γ = some s := by
  obtain ⟨entity, he, h⟩ := Setting.shapeOf_eq_some.1 h
  rw [Expr.shape?, OpenRows.shape?, ho _ _ he]
  exact h

/-- Rows that are open in a setting, for a denotation. -/
structure Grounded (S : Setting) (tables : Tables) (o : OpenRows) : Prop where
  consistent : Consistent S.catalog tables
  entity : S.Within o
  row : ∀ {m entity}, S.entity m = some entity →
    ∃ rows, tables.lookup entity = some rows ∧ o.row m ∈ rows

/-- Every parameter with a shape has a value of that shape. -/
def ScopeFits (tables : Tables) (Γ : Shapes) (scope : Scope) : Prop :=
  ∀ x s, Γ.lookup x = some s → ∃ v, scope.lookup x = some v ∧ s.Fits tables v

theorem ScopeFits.cons {tables : Tables} {Γ : Shapes} {scope : Scope} (h : ScopeFits tables Γ scope)
    {s : Shape} {v : Value} (hv : s.Fits tables v) (x : String) :
    ScopeFits tables ((x, s) :: Γ) (scope.bind [x] [v]) := by
  intro y t hy
  rw [List.lookup_cons] at hy
  change ∃ w, List.lookup y ((x, v) :: scope) = some w ∧ _
  rw [List.lookup_cons]
  split at hy
  · cases hy
    exact ⟨v, rfl, hv⟩
  · exact h y t hy

theorem ScopeFits.nil (tables : Tables) (scope : Scope) : ScopeFits tables [] scope :=
  fun _ _ h => nomatch h

/-- Whether an outcome is the value true. -/
def Outcome.isTrue (o : Outcome Value) : Bool :=
  match o with
  | .ok v => v.isTrue
  | .error _ => false

theorem keepRows_eq_filter {predicate : Argument} {rows : List Value}
    (h : ∀ row ∈ rows, ∃ v, predicate.apply [row] = .ok v) :
    keepRows predicate rows = .ok (rows.filter fun row => Outcome.isTrue (predicate.apply [row])) := by
  induction rows with
  | nil => rfl
  | cons row rows ih =>
    obtain ⟨v, hv⟩ := h row (.head _)
    rw [keepRows, hv, ih fun row hrow => h row (.tail _ hrow), List.filter_cons, hv, Outcome.isTrue]
    rfl

theorem evalOperator_filter {source predicate : Argument} {items : List Value}
    (hs : source.value () = .ok (.list items))
    (hp : ∀ row ∈ items, ∃ v, predicate.apply [row] = .ok v) :
    evalOperator .filter [source, predicate] =
      .ok (.list (items.filter fun row => Outcome.isTrue (predicate.apply [row]))) := by
  simp only [evalOperator, Argument.rows, hs]
  change (do return Value.list (← keepRows predicate items)) = _
  rw [keepRows_eq_filter hp]
  rfl

/-- Whether there are rows, or how many. -/
def Operator.totalOf (op : Operator) (items : List Value) : Value :=
  if op = .any then .bool !items.isEmpty else .int items.length

theorem evalOperator_total {op : Operator} (ho : op = .any ∨ op = .count) {source : Argument}
    {items : List Value} (hs : source.value () = .ok (.list items)) :
    evalOperator op [source] = .ok (op.totalOf items) := by
  rcases ho with rfl | rfl
  all_goals
    simp only [evalOperator, Argument.rows, hs]
    rfl

theorem denoteOperator_total {op : Operator} (ho : op = .any ∨ op = .count)
    {source predicate : Argument} {items : List Value} (hs : source.value () = .ok (.list items))
    (hp : ∀ row ∈ items, ∃ v, predicate.apply [row] = .ok v) :
    denoteOperator op [source, predicate] =
      .ok (op.totalOf (items.filter fun row => Outcome.isTrue (predicate.apply [row]))) := by
  have hf := evalOperator_filter hs hp
  rcases ho with rfl | rfl
  · exact evalOperator_total (.inl rfl) hf
  · exact evalOperator_total (.inr rfl) hf

section Congruence

variable {c : Catalog} {tables : Tables} {o o' : OpenRows} {Γ Γ' : Shapes} {scope scope' : Scope}

theorem denote_member (target : Expr) (name : String) :
    (Expr.member target name).denote c tables o Γ scope = (do
      Shape.read c tables (target.shape? c o Γ) name (← target.denote c tables o Γ scope)) := rfl

theorem keepRows_congr {predicate predicate' : Argument}
    (h : ∀ row, predicate'.apply [row] = predicate.apply [row]) (rows : List Value) :
    keepRows predicate' rows = keepRows predicate rows := by
  induction rows with
  | nil => rfl
  | cons row rows ih => rw [keepRows, keepRows, h, ih]

theorem evalOperator_total_congr {op : Operator} (ho : op = .any ∨ op = .count)
    {source source' : Argument} (h : source'.value () = source.value ()) :
    evalOperator op [source'] = evalOperator op [source] := by
  rcases ho with rfl | rfl
  all_goals simp only [evalOperator, Argument.rows, h]

theorem denoteOperator_congr {op : Operator} (ho : op = .filter ∨ op = .any ∨ op = .count)
    {source source' predicate predicate' : Argument} (hs : source'.value () = source.value ())
    (hp : ∀ row, predicate'.apply [row] = predicate.apply [row]) :
    denoteOperator op [source', predicate'] = denoteOperator op [source, predicate] := by
  have kept : evalOperator .filter [source', predicate'] = evalOperator .filter [source, predicate] := by
    simp only [evalOperator, Argument.rows, hs, keepRows_congr hp]
  rcases ho with rfl | ho
  · exact kept
  · have both (source predicate : Argument) : denoteOperator op [source, predicate] =
        evalOperator op [⟨fun _ => evalOperator .filter [source, predicate], source.apply⟩] := by
      rcases ho with rfl | rfl <;> rfl
    rw [both, both]
    exact evalOperator_total_congr ho kept

theorem denote_total_congr {op : Operator} (note note' : Option CallNote)
    (ho : op = .any ∨ op = .count) {e e' : Expr}
    (he : e'.denote c tables o' Γ' scope' = e.denote c tables o Γ scope) :
    (Expr.call op [e'] note').denote c tables o' Γ' scope' =
      (Expr.call op [e] note).denote c tables o Γ scope := by
  rcases ho with rfl | rfl
  · exact evalOperator_total_congr (.inl rfl) he
  · exact evalOperator_total_congr (.inr rfl) he

/-- A filter, or a total of what a filter keeps, of two sources with the same value by two bodies
with the same values. -/
theorem denote_lambda_congr {op : Operator} (note note' : Option CallNote)
    (ho : op = .filter ∨ op = .any ∨ op = .count) {e e' body body' : Expr} {x : String} {s : Shape}
    (he : e'.denote c tables o' Γ' scope' = e.denote c tables o Γ scope)
    (hs' : Shape.element (e'.shape? c o' Γ') = s) (hs : Shape.element (e.shape? c o Γ) = s)
    (hb : ∀ row, body'.denote c tables o' ((x, s) :: Γ') (scope'.bind [x] [row]) =
      body.denote c tables o ((x, s) :: Γ) (scope.bind [x] [row])) :
    (Expr.call op [e', .lambda [x] body'] note').denote c tables o' Γ' scope' =
      (Expr.call op [e, .lambda [x] body] note).denote c tables o Γ scope := by
  simp only [Expr.denote, Expr.denoteArguments, List.head?_cons, Option.bind_some, hs, hs']
  exact denoteOperator_congr ho he hb

end Congruence

section Calls

variable {c : Catalog} {tables : Tables} {o : OpenRows} {Γ : Shapes} {scope : Scope}
  {source body : Expr} {x : String} {element : Shape} {items : List Value}

theorem denote_filter (note : Option CallNote)
    (hs : source.denote c tables o Γ scope = .ok (.list items))
    (he : Shape.element (source.shape? c o Γ) = element)
    (hb : ∀ row ∈ items, ∃ v,
      body.denote c tables o ((x, element) :: Γ) (scope.bind [x] [row]) = .ok v) :
    (Expr.call .filter [source, .lambda [x] body] note).denote c tables o Γ scope =
      .ok (.list (items.filter fun row =>
        Outcome.isTrue (body.denote c tables o ((x, element) :: Γ) (scope.bind [x] [row])))) := by
  subst he
  rw [Expr.denote]
  exact evalOperator_filter hs hb

theorem denote_total {op : Operator} (note : Option CallNote) (ho : op = .any ∨ op = .count)
    (hs : source.denote c tables o Γ scope = .ok (.list items)) :
    (Expr.call op [source] note).denote c tables o Γ scope = .ok (op.totalOf items) := by
  rw [Expr.denote]
  rcases ho with rfl | rfl
  · exact evalOperator_total (.inl rfl) hs
  · exact evalOperator_total (.inr rfl) hs

theorem denote_totalWhere {op : Operator} (note : Option CallNote) (ho : op = .any ∨ op = .count)
    (hs : source.denote c tables o Γ scope = .ok (.list items))
    (he : Shape.element (source.shape? c o Γ) = element)
    (hb : ∀ row ∈ items, ∃ v,
      body.denote c tables o ((x, element) :: Γ) (scope.bind [x] [row]) = .ok v) :
    (Expr.call op [source, .lambda [x] body] note).denote c tables o Γ scope =
      .ok (op.totalOf (items.filter fun row =>
        Outcome.isTrue (body.denote c tables o ((x, element) :: Γ) (scope.bind [x] [row])))) := by
  subst he
  rw [Expr.denote]
  exact denoteOperator_total ho hs hb

end Calls

namespace HasShape

variable {S : Setting} {f : Form} {n : Bool} {Γ : Shapes} {e : Expr} {s : Shape}

theorem member?_navigation {c : Catalog} {entity name : String} {edge : NavigationEdge}
    (h : c.navigation? entity name = some edge) :
    (Shape.entity entity).member? c name = some edge.shape := by
  simp only [Shape.member?, h]

theorem member?_property {c : Catalog} {entity name : String} {t : EntityType} {p : Property}
    (ht : c.type? entity = some t) (hn : t.navigation? name = none)
    (hp : t.property? name = some p) : (Shape.entity entity).member? c name = some .scalar := by
  simp only [Shape.member?, Catalog.navigation?, ht, Option.bind_some, hn, hp, Option.map_some]

/-- The shape that the rules assign is the one that denotations go by. -/
theorem shape?_eq {o : OpenRows} (ho : S.Within o) (h : HasShape S f n Γ e s) :
    e.shape? S.catalog o Γ = some s := by
  induction h with
  | param h _ => exact h
  | ref h _ _ _ => exact S.shape?_rowRef ho h
  | property _ ht hn hp ih =>
    rw [Expr.shape?, ih, Option.bind_some, member?_property ht hn hp]
  | navigation _ hn _ _ ih => rw [Expr.shape?, ih, Option.bind_some, member?_navigation hn]
  | field _ hs _ ih =>
    rw [Expr.shape?, ih]
    exact hs
  | size _ hn hc _ ih =>
    rw [Expr.shape?, Expr.shape?, ih, Option.bind_some, member?_navigation hn, Option.bind_some,
      NavigationEdge.shape, if_pos hc]
    rfl
  | refSize h _ _ =>
    rw [Expr.shape?, S.shape?_rowRef ho h]
    rfl
  | cond _ _ _ _ ih _ => exact ih
  | convert _ _ _ ih => exact ih
  | cons _ _ ihe ihf =>
    rw [Expr.shape?, Option.map_eq_some_iff] at ihf
    obtain ⟨shapes, hf, heq⟩ := ihf
    cases heq
    rw [Expr.shape?, Expr.fieldShapes?, ihe, hf]
    rfl
  | filter _ _ _ _ ih _ => exact ih
  | total _ ho _ _ => rcases ho with rfl | rfl <;> rfl
  | totalWhere _ ho _ _ _ _ _ => rcases ho with rfl | rfl <;> rfl
  | _ => rfl

theorem element_eq {o : OpenRows} (ho : S.Within o) (h : HasShape S f n Γ e (.rows s)) :
    Shape.element (e.shape? S.catalog o Γ) = s := by
  rw [h.shape?_eq ho]
  rfl

section Values

variable {tables : Tables} {o : OpenRows} {scope : Scope}

/-- A member of a value of a shape is a value of the member's shape. -/
theorem denotes_member (hg : Grounded S tables o) {name : String} {v : Value} (he : HasShape S f n Γ e s)
    (hm : s.member? S.catalog name = some t) (hv : e.denote S.catalog tables o Γ scope = .ok v)
    (hfits : s.Fits tables v) :
    ∃ v', (Expr.member e name).denote S.catalog tables o Γ scope = .ok v' ∧ t.Fits tables v' := by
  rw [Expr.denote, hv, he.shape?_eq hg.entity]
  exact Shape.read_fits hg.consistent hm hfits

theorem denotes_ref (hg : Grounded S tables o) {r : RowRef} (h : S.shapeOf r = some s) (Γ : Shapes)
    (scope : Scope) :
    ∃ v, (Expr.rowRef r).denote S.catalog tables o Γ scope = .ok v ∧ s.Fits tables v := by
  obtain ⟨entity, hentity, h⟩ := Setting.shapeOf_eq_some.1 h
  rw [Expr.denote, OpenRows.shape?, hg.entity _ _ hentity]
  exact Shape.readAlong_fits hg.consistent h (.inr (hg.row hentity))

/-- A predicate that has a value for every element has one for every row. -/
theorem denotes_body {x : String} {body : Expr} {items : List Value}
    (hitems : ∀ item ∈ items, s.Fits tables item)
    (hbody : ∀ {scope : Scope}, ScopeFits tables ((x, s) :: Γ) scope →
      ∃ v, body.denote S.catalog tables o ((x, s) :: Γ) scope = .ok v ∧ Shape.scalar.Fits tables v)
    (hscope : ScopeFits tables Γ scope) : ∀ row ∈ items, ∃ v,
      body.denote S.catalog tables o ((x, s) :: Γ) (scope.bind [x] [row]) = .ok v := by
  intro row hrow
  obtain ⟨v, hv, -⟩ := hbody (hscope.cons (hitems row hrow) x)
  exact ⟨v, hv⟩

/-- An expression with a shape denotes a value of that shape. -/
theorem denotes (hg : Grounded S tables o)
    (h : HasShape S f n Γ e s) (hscope : ScopeFits tables Γ scope) :
    ∃ v, e.denote S.catalog tables o Γ scope = .ok v ∧ s.Fits tables v := by
  induction h generalizing scope with
  | param h _ =>
    obtain ⟨v, hv, hfits⟩ := hscope _ _ h
    exact ⟨v, by rw [Expr.denote, hv]; rfl, hfits⟩
  | const value => exact ⟨_, rfl, trivial⟩
  | ref h _ _ _ => exact denotes_ref hg h _ _
  | set h =>
    obtain ⟨rows, hl, -⟩ := hg.consistent.carries h
    refine ⟨.list rows, by rw [Expr.denote, hl]; rfl, rows, rfl, ?_⟩
    exact fun row hrow => .inr ⟨rows, hl, hrow⟩
  | property he ht hn hp ih =>
    obtain ⟨v, hv, hfits⟩ := ih hscope
    exact he.denotes_member hg (member?_property ht hn hp) hv hfits
  | navigation he hn _ _ ih =>
    obtain ⟨v, hv, hfits⟩ := ih hscope
    exact he.denotes_member hg (member?_navigation hn) hv hfits
  | field he hs _ ih =>
    obtain ⟨v, hv, hfits⟩ := ih hscope
    exact he.denotes_member hg hs hv hfits
  | size he hn hc hf ih =>
    obtain ⟨v, hv, hfits⟩ := ih hscope
    obtain ⟨w, hw, hwfits⟩ := he.denotes_member hg (member?_navigation hn) hv hfits
    refine (navigation he hn (fun _ => rfl) hf).denotes_member hg ?_ hw hwfits
    rw [NavigationEdge.shape, if_pos hc]
    rfl
  | @refSize _ Γ _ _ h hr hf =>
    obtain ⟨v, hv, hfits⟩ := denotes_ref hg h Γ scope
    exact (HasShape.ref (f := .raw) h hr (fun _ => rfl) (by simp)).denotes_member hg rfl hv hfits
  | binary op _ _ _ iha ihb =>
    obtain ⟨a, ha, -⟩ := iha hscope
    obtain ⟨b, hb, -⟩ := ihb hscope
    exact ⟨evalBinary op a b, by rw [Expr.denote, ha, hb]; rfl, trivial⟩
  | not _ ih =>
    obtain ⟨a, ha, -⟩ := ih hscope
    exact ⟨evalNot a, by rw [Expr.denote, ha]; rfl, trivial⟩
  | cond _ _ _ iha ihb ihd =>
    obtain ⟨a, ha, -⟩ := iha hscope
    obtain ⟨b, hb, hbfits⟩ := ihb hscope
    obtain ⟨d, hd, hdfits⟩ := ihd hscope
    refine ⟨if a.isTrue then b else d, ?_, trivial⟩
    rw [Expr.denote, ha, hb, hd]
    change (if a.isTrue = true then Except.ok b else Except.ok d) = _
    split <;> rfl
  | nil => exact ⟨.record [], rfl, [], rfl, trivial⟩
  | cons _ _ ihe ihf =>
    obtain ⟨v, hv, hfits⟩ := ihe hscope
    obtain ⟨_, hvs, values, rfl, hvalues⟩ := ihf hscope
    refine ⟨.record ((_, v) :: values), ?_, _, rfl, rfl, hfits, hvalues⟩
    rw [Expr.denote] at hvs ⊢
    rw [Expr.denoteFields, hv]
    cases hd : Expr.denoteFields S.catalog tables o _ scope _ with
    | error err =>
      rw [hd] at hvs
      cases hvs
    | ok values' =>
      rw [hd] at hvs
      cases hvs
      rfl
  | convert _ _ _ ih => exact ih hscope
  | filter note hs _ _ ihs ihb =>
    obtain ⟨_, hv, items, rfl, hitems⟩ := ihs hscope
    refine ⟨_, denote_filter note hv (hs.element_eq hg.entity) (denotes_body hitems ihb hscope), _, rfl, ?_⟩
    exact fun row hrow => hitems row (List.mem_of_mem_filter hrow)
  | total note ho _ ihs =>
    obtain ⟨_, hv, items, rfl, -⟩ := ihs hscope
    exact ⟨_, denote_total note ho hv, trivial⟩
  | totalWhere note ho hs _ _ ihs ihb =>
    obtain ⟨_, hv, items, rfl, hitems⟩ := ihs hscope
    exact ⟨_, denote_totalWhere note ho hv (hs.element_eq hg.entity) (denotes_body hitems ihb hscope),
      trivial⟩

end Values

end HasShape

/-- What may occur in an expression that has a shape: another one, or the lambda of a query. -/
def Setting.Part (S : Setting) (n : Bool) (Γ : Shapes) (d : Expr) : Prop :=
  (∃ f Γ' s, HasShape S f n Γ' d s ∧ (n = false → Γ' = Γ)) ∨
    n = true ∧ ∃ x body Γ' s, d = .lambda [x] body ∧ S.names x ∧ HasShape S .raw true Γ' body s

namespace HasShape

variable {S : Setting} {f : Form} {n : Bool} {Γ : Shapes} {e c d : Expr} {s : Shape}

theorem part (h : HasShape S f n Γ e s) : S.Part n Γ e := .inl ⟨f, Γ, s, h, fun _ => rfl⟩

theorem part_of_lambda {x : String} {body : Expr} {t : Shape}
    (h : HasShape S .raw true ((x, t) :: Γ) body s) (hx : S.names x) :
    S.Part true Γ (.lambda [x] body) := .inr ⟨rfl, x, body, _, s, rfl, hx, h⟩

/-- The direct parts of an expression that has a shape. -/
theorem part_of_child (h : HasShape S f n Γ e s) (hc : c ∈ e.children) : S.Part n Γ c := by
  induction h with
  | param _ _ | const _ | ref _ _ _ _ | set _ | nil => cases hc
  | refSize h hr _ =>
    obtain rfl := List.mem_singleton.1 hc
    exact part (.ref (f := .raw) h hr (fun _ => rfl) (fun h => nomatch h))
  | property he _ _ _ _ | navigation he _ _ _ _ | field he _ _ _ | not he _ | convert _ _ he _
  | total _ _ he _ =>
    obtain rfl := List.mem_singleton.1 hc
    exact he.part
  | size he hn _ hf _ =>
    obtain rfl := List.mem_singleton.1 hc
    exact (HasShape.navigation he hn (fun _ => rfl) hf).part
  | binary _ ha hb _ _ _ =>
    simp only [Expr.children, List.mem_cons, List.not_mem_nil, or_false] at hc
    rcases hc with rfl | rfl
    · exact ha.part
    · exact hb.part
  | cond ha hb hd _ _ _ =>
    simp only [Expr.children, List.mem_cons, List.not_mem_nil, or_false] at hc
    rcases hc with rfl | rfl | rfl
    · exact ha.part
    · exact hb.part
    · exact hd.part
  | cons he hf _ ih =>
    rcases List.mem_cons.1 hc with rfl | hc
    · exact he.part
    · exact ih hc
  | filter _ hs hb hx _ _ | totalWhere _ _ hs hb hx _ _ =>
    simp only [Expr.children, List.mem_cons, List.not_mem_nil, or_false] at hc
    rcases hc with rfl | rfl
    · exact hs.part
    · exact hb.part_of_lambda hx

end HasShape

theorem Setting.Part.of_node {S : Setting} {n : Bool} {Γ : Shapes} {e : Expr} (h : S.Part n Γ e) :
    ∀ d ∈ e.nodes, S.Part n Γ d := by
  induction e using Expr.children_induction with
  | step e ih =>
    intro d hd
    rcases Expr.mem_nodes_iff.1 hd with rfl | ⟨c, hc, hd⟩
    · exact h
    · refine ih c hc ?_ d hd
      rcases h with ⟨f, Γ', s, h, hΓ⟩ | ⟨rfl, x, body, Γ', s, rfl, hx, h⟩
      · rcases h.part_of_child hc with ⟨g, Γ'', t, h, hΓ'⟩ | h
        · exact .inl ⟨g, Γ'', t, h, fun hn => (hΓ' hn).trans (hΓ hn)⟩
        · exact .inr h
      · obtain rfl := List.mem_singleton.1 hc
        exact .inl ⟨_, _, _, h, fun hn => nomatch hn⟩

namespace HasShape

variable {S : Setting} {f : Form} {n : Bool} {Γ : Shapes} {e : Expr} {s : Shape}

/-- Users write no streams. -/
theorem hasStream_eq_false (h : HasShape S f n Γ e s) : e.hasStream = false := by
  refine List.any_eq_false.2 fun d hd hs => ?_
  split at hs
  · rcases h.part.of_node _ hd with ⟨_, _, _, hd, -⟩ | ⟨-, _, _, _, _, heq, -⟩
    · cases hd
    · cases heq
  · cases hs

/-- Without queries there are no lambdas, so all parameters are in view. -/
theorem names_in_view (h : HasShape S f false Γ e s) :
    ∀ x ∈ e.names, ∃ t, Γ.lookup x = some t := by
  intro x hx
  obtain ⟨d, hd, hx⟩ := List.mem_flatMap.1 hx
  rcases h.part.of_node _ hd with ⟨_, _, _, hd, hΓ⟩ | ⟨hn, -⟩
  · cases hd with
    | param hlookup _ =>
      obtain rfl := List.mem_singleton.1 hx
      obtain rfl := hΓ rfl
      exact ⟨_, hlookup⟩
    | _ => cases hx
  · cases hn

/-- Without queries all references are to single rows. -/
theorem refs_single (h : HasShape S f false Γ e s) :
    ∀ r ∈ e.rowRefs, S.refs r ∧ ∃ t, S.shapeOf r = some t ∧ t.isRows = false := by
  intro r hr
  rcases h.part.of_node _ (Expr.mem_rowRefs.1 hr) with ⟨_, _, _, hd, -⟩ | ⟨hn, -⟩
  · cases hd with
    | ref h hr hn _ => exact ⟨hr, _, h, Bool.eq_false_iff.2 fun ht => nomatch hn ht⟩
  · cases hn

end HasShape

end EntityQuery
