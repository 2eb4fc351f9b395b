import EntityQuery.Proofs.Substitution

/-!
# Expressions that stand for others

`Stands` says that one expression can be put for another: it has the same shape, and the same value
whatever rows are open and whatever the parameters are. The passes over a body rewrite it to an
expression that stands for it, so all that is left to prove of a pass is what it does to the nodes
that it acts on.
-/

namespace EntityQuery

/-- The second expression, which has the given form, stands for the first. -/
structure Stands (S : Setting) (tables : Tables) (f : Form) (n : Bool) (Γ : Shapes) (e e' : Expr)
    (s : Shape) : Prop where
  typed : HasShape S f n Γ e' s
  source : HasShape S .raw n Γ e s
  same : ∀ o scope, Grounded S tables o → ScopeFits tables Γ scope →
    e'.denote S.catalog tables o Γ scope = e.denote S.catalog tables o Γ scope

/-- What is grounded in a larger setting is so in a smaller one. -/
theorem Grounded.anti {S S' : Setting} {tables : Tables} {o : OpenRows} (h : Grounded S' tables o)
    (hS : S.Le S') : Grounded S tables o where
  consistent := hS.catalog ▸ h.consistent
  entity m entity hm := h.entity m entity (hS.entity hm)
  row hm := h.row (hS.entity hm)

namespace Stands

variable {S S' : Setting} {tables : Tables} {f g : Form} {n : Bool} {Γ : Shapes}
  {e e' e'' a a' b b' d d' : Expr} {s t : Shape}

theorem refl (h : HasShape S f n Γ e s) : Stands S tables f n Γ e e s :=
  ⟨h, h.toRaw, fun _ _ _ _ => rfl⟩

theorem trans (h : Stands S tables f n Γ e e' s) (k : Stands S tables g n Γ e' e'' s) :
    Stands S tables g n Γ e e'' s :=
  ⟨k.typed, h.source, fun o scope ho hs => (k.same o scope ho hs).trans (h.same o scope ho hs)⟩

theorem mono (h : Stands S tables f n Γ e e' s) (hS : S.Le S') : Stands S' tables f n Γ e e' s where
  typed := h.typed.mono hS
  source := h.source.mono hS
  same o scope ho hs := by
    rw [hS.catalog]
    exact h.same o scope (ho.anti hS) hs

theorem shape?_eq (h : Stands S tables f n Γ e e' s) {o : OpenRows} (ho : S.Within o) :
    e'.shape? S.catalog o Γ = e.shape? S.catalog o Γ := by
  rw [h.typed.shape?_eq ho, h.source.shape?_eq ho]

/-- A member of what stands for an expression. -/
theorem member_same (h : Stands S tables f n Γ e e' s) (name : String) (o : OpenRows) (scope : Scope)
    (ho : Grounded S tables o) (hs : ScopeFits tables Γ scope) :
    (Expr.member e' name).denote S.catalog tables o Γ scope =
      (Expr.member e name).denote S.catalog tables o Γ scope := by
  rw [denote_member, denote_member, h.shape?_eq ho.entity, h.same o scope ho hs]

theorem property {entity name : String} {t : EntityType} {q : Property}
    (h : Stands S tables f n Γ e e' (.entity entity)) (ht : S.catalog.type? entity = some t)
    (hn : t.navigation? name = none) (hq : t.property? name = some q) :
    Stands S tables f n Γ (.member e name) (.member e' name) .scalar :=
  ⟨.property h.typed ht hn hq, .property h.source ht hn hq, h.member_same name⟩

theorem navigation {entity name : String} {edge : NavigationEdge}
    (h : Stands S tables f n Γ e e' (.entity entity))
    (hedge : S.catalog.navigation? entity name = some edge)
    (hn : edge.isCollection = true → n = true) (href : f ≠ .raw → e'.isRef = false) :
    Stands S tables f n Γ (.member e name) (.member e' name) edge.shape :=
  ⟨.navigation h.typed hedge hn href, .navigation h.source hedge hn (absurd rfl), h.member_same name⟩

theorem field {name : String} {fields : List (String × Shape)}
    (h : Stands S tables f n Γ e e' (.record fields)) (hs : fields.lookup name = some s)
    (hrecord : f ≠ .raw → e'.isRecord = false) :
    Stands S tables f n Γ (.member e name) (.member e' name) s :=
  ⟨.field h.typed hs hrecord, .field h.source hs (absurd rfl), h.member_same name⟩

theorem size {entity name : String} {edge : NavigationEdge}
    (h : Stands S tables f true Γ e e' (.entity entity))
    (hedge : S.catalog.navigation? entity name = some edge) (hc : edge.isCollection = true)
    (href : f ≠ .raw → e'.isRef = false) :
    Stands S tables f true Γ (.member (.member e name) "Count") (.member (.member e' name) "Count")
      .scalar :=
  ⟨.size h.typed hedge hc href, .size h.source hedge hc (absurd rfl),
    (h.navigation hedge (fun _ => rfl) href).member_same "Count"⟩

theorem binary (op : BinaryOp) (ha : Stands S tables f n Γ a a' s) (hb : Stands S tables f n Γ b b' t)
    (hop : op.isEquality = true → s = .scalar ∧ t = .scalar) :
    Stands S tables f n Γ (.binary op a b) (.binary op a' b') .scalar where
  typed := .binary op ha.typed hb.typed hop
  source := .binary op ha.source hb.source hop
  same o scope ho hs := by simp only [Expr.denote, ha.same o scope ho hs, hb.same o scope ho hs]

theorem not (ha : Stands S tables f n Γ a a' s) : Stands S tables f n Γ (.not a) (.not a') .scalar where
  typed := .not ha.typed
  source := .not ha.source
  same o scope ho hs := by simp only [Expr.denote, ha.same o scope ho hs]

theorem cond (ha : Stands S tables f n Γ a a' s) (hb : Stands S tables f n Γ b b' .scalar)
    (hd : Stands S tables f n Γ d d' .scalar) :
    Stands S tables f n Γ (.cond a b d) (.cond a' b' d') .scalar where
  typed := .cond ha.typed hb.typed hd.typed
  source := .cond ha.source hb.source hd.source
  same o scope ho hs := by
    simp only [Expr.denote, ha.same o scope ho hs, hb.same o scope ho hs, hd.same o scope ho hs]

theorem cons {name : String} {fields fields' : List (String × Expr)} {shapes : List (String × Shape)}
    (he : Stands S tables f n Γ e e' s)
    (hf : Stands S tables f n Γ (.record fields) (.record fields') (.record shapes)) :
    Stands S tables f n Γ (.record ((name, e) :: fields)) (.record ((name, e') :: fields'))
      (.record ((name, s) :: shapes)) where
  typed := .cons he.typed hf.typed
  source := .cons he.source hf.source
  same o scope ho hs := denote_record_cons (he.same o scope ho hs) (hf.same o scope ho hs)

theorem convert (t : ScalarType) (nullable : Bool) (ha : Stands S tables f n Γ a a' .scalar) :
    Stands S tables f n Γ (.convert a t nullable) (.convert a' t nullable) .scalar where
  typed := .convert t nullable ha.typed
  source := .convert t nullable ha.source
  same o scope ho hs := by simp only [Expr.denote, ha.same o scope ho hs]

section Lambdas

variable {x : String} {body body' : Expr} {op : Operator}

/-- The rows that a predicate holds for are those that what stands for it holds for. -/
theorem filtered (hb : Stands S tables g true ((x, s) :: Γ) body body' .scalar) {o : OpenRows}
    {scope : Scope} (ho : Grounded S tables o) (hs : ScopeFits tables Γ scope) {items : List Value}
    (hitems : ∀ item ∈ items, s.Fits tables item) :
    (∀ row ∈ items, ∃ v,
      body.denote S.catalog tables o ((x, s) :: Γ) (scope.bind [x] [row]) = .ok v) ∧
    (∀ row ∈ items, ∃ v,
      body'.denote S.catalog tables o ((x, s) :: Γ) (scope.bind [x] [row]) = .ok v) ∧
    (items.filter fun row => Outcome.isTrue
      (body'.denote S.catalog tables o ((x, s) :: Γ) (scope.bind [x] [row]))) =
      items.filter fun row => Outcome.isTrue
        (body.denote S.catalog tables o ((x, s) :: Γ) (scope.bind [x] [row])) := by
  have same {row : Value} (hrow : row ∈ items) := hb.same o _ ho (hs.cons (hitems row hrow) x)
  have value : ∀ row ∈ items, ∃ v,
      body.denote S.catalog tables o ((x, s) :: Γ) (scope.bind [x] [row]) = .ok v := by
    intro row hrow
    obtain ⟨v, hv, -⟩ := hb.source.denotes ho (hs.cons (hitems row hrow) x)
    exact ⟨v, hv⟩
  refine ⟨value, fun row hrow => ?_, List.filter_congr fun row hrow => by rw [same hrow]⟩
  rw [same hrow]
  exact value row hrow

theorem filter (note : Option CallNote) (hs : Stands S tables f true Γ e e' (.rows s))
    (hb : Stands S tables g true ((x, s) :: Γ) body body' .scalar) (hx : S.names x) :
    Stands S tables f true Γ (.call .filter [e, .lambda [x] body] note)
      (.call .filter [e', .lambda [x] body'] note) (.rows s) where
  typed := .filter note hs.typed hb.typed.toRaw hx
  source := .filter note hs.source hb.source hx
  same o scope ho hscope := by
    obtain ⟨_, hv, items, rfl, hitems⟩ := hs.source.denotes ho hscope
    obtain ⟨hvalue, hvalue', heq⟩ := hb.filtered ho hscope hitems
    have hv' := (hs.same o scope ho hscope).trans hv
    rw [denote_filter note hv' (hs.typed.element_eq ho.entity) hvalue',
      denote_filter note hv (hs.source.element_eq ho.entity) hvalue, heq]

theorem total (note : Option CallNote) (hop : op = .any ∨ op = .count)
    (hs : Stands S tables f true Γ e e' (.rows s)) :
    Stands S tables f true Γ (.call op [e] note) (.call op [e'] note) .scalar where
  typed := .total note hop hs.typed
  source := .total note hop hs.source
  same o scope ho hscope := denote_total_congr note note hop (hs.same o scope ho hscope)

theorem totalWhere (note : Option CallNote) (hop : op = .any ∨ op = .count)
    (hs : Stands S tables f true Γ e e' (.rows s))
    (hb : Stands S tables g true ((x, s) :: Γ) body body' .scalar) (hx : S.names x) :
    Stands S tables f true Γ (.call op [e, .lambda [x] body] note)
      (.call op [e', .lambda [x] body'] note) .scalar where
  typed := .totalWhere note hop hs.typed hb.typed.toRaw hx
  source := .totalWhere note hop hs.source hb.source hx
  same o scope ho hscope := by
    obtain ⟨_, hv, items, rfl, hitems⟩ := hs.source.denotes ho hscope
    obtain ⟨hvalue, hvalue', heq⟩ := hb.filtered ho hscope hitems
    have hv' := (hs.same o scope ho hscope).trans hv
    rw [denote_totalWhere note hop hv' (hs.typed.element_eq ho.entity) hvalue',
      denote_totalWhere note hop hv (hs.source.element_eq ho.entity) hvalue, heq]

end Lambdas

end Stands

end EntityQuery
