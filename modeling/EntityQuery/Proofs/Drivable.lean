import EntityQuery.Proofs.Links

/-!
# Calls that are expanded

A call that carries a predicate, or whose operator is unknown, is undriven: only its expansion takes
the predicate out, or refuses it. A query in a body is expanded if it is a chain over an entity set, and
a collection becomes one when the body is rewritten. So an undriven call may stand over an entity set
or over a collection of a row whose entity is known.

`Expr.Yields` are the rules by which an expression is known to stand for rows of an entity, and
`Expr.Drivable` says that all undriven calls of an expression stand over such rows. The rules follow an
expression through its rewriting by the form of its references: of a raw one all members may be
navigations, in a bound one the navigations that start at references have been followed, and in a ready
one no reference stands for a collection.
-/

namespace EntityQuery

open EntityQuery.Expr

/-- The operator is a registered one. -/
def Operator.isKnown : Operator → Bool
  | .other _ => false
  | _ => true

/-- A call of the operator with these arguments after its source is of a known operator and carries no
predicate. -/
def Operator.drives (operator : Operator) (further : List Expr) : Bool :=
  operator.isKnown && (!operator.acceptsPredicate || further.isEmpty)

/-- The operator passes rows of its source on, as they are. -/
def Operator.keepsRows : Operator → Bool
  | .filter | .orderBy | .orderByDescending | .thenBy | .thenByDescending => true
  | .distinct | .take | .skip | .asTracking | .defaultIfEmpty => true
  | _ => false

/-- The driver expands what stands in the arguments after the source. An operator without a lambda of
its own leaves them as they are, except for a predicate. -/
def Operator.opensArguments (operator : Operator) : Bool :=
  operator.acceptsPredicate || operator.info?.all (·.kind != .terminating)

/-- Lambdas of the operator may be over rows of another argument than its source. -/
def Operator.pairsSources : Operator → Bool
  | .join | .groupJoin => true
  | _ => false

namespace Expr

variable {e e' : Expr}

/-- Neither a call, nor a lambda, nor a stream. -/
def isPlain : Expr → Bool
  | .call .. | .lambda .. | .stream .. => false
  | _ => true

/-- The node is neither an undriven call nor a stream that waits for one. -/
def isDriven : Expr → Bool
  | .call operator arguments _ => operator.drives arguments.tail
  | .stream _ _ frame => frame.cardinality.all (·.isKnown)
  | _ => true

/-- No call in the expression is undriven. -/
def Driven (e : Expr) : Prop := ∀ d ∈ e.nodes, d.isDriven = true

instance : DecidablePred Driven := fun e => inferInstanceAs (Decidable (∀ d ∈ e.nodes, d.isDriven = true))

theorem driven_iff : e.Driven ↔ e.isDriven = true ∧ ∀ d ∈ e.children, d.Driven := forall_nodes_iff

theorem Driven.child (h : e.Driven) {d : Expr} (hd : d ∈ e.children) : d.Driven := (driven_iff.1 h).2 d hd

theorem isDriven_of_isPlain (h : e.isPlain = true) : e.isDriven = true := by
  cases e <;> first | rfl | cases h

theorem Driven.plain (kind : e.isPlain = true) (parts : ∀ d ∈ e.children, d.Driven) : e.Driven :=
  driven_iff.2 ⟨isDriven_of_isPlain kind, parts⟩

/-- A scalar expression over operands has what its operands have and plain nodes pass on. -/
theorem Over.of_plain {P : Expr → Prop} (h : e.Over P)
    (plain : ∀ {e : Expr}, e.isPlain = true → (∀ d ∈ e.children, P d) → P e) : P e := by
  induction h with
  | operand h => exact h
  | const value => exact plain rfl (by simp [children])
  | member _ _ ih | convert _ _ _ ih => exact plain rfl (by simpa [children] using ih)
  | binary _ _ _ iha ihb => exact plain rfl (by simpa [children] using ⟨iha, ihb⟩)
  | cond _ _ _ iha ihb ihc => exact plain rfl (by simpa [children] using ⟨iha, ihb, ihc⟩)
  | tuple _ ih => exact plain rfl ih
  | nullSafeEqual _ _ _ _ ih iha ihb =>
    refine plain rfl fun d hd => ?_
    simp only [children, List.mem_append, List.mem_cons, List.not_mem_nil, or_false] at hd
    rcases hd with hd | rfl | rfl
    · exact ih d hd
    · exact iha
    · exact ihb

theorem Over.driven (h : e.Over Driven) : e.Driven := h.of_plain Driven.plain

section Heads

variable {a b : Expr} {items : List Expr}

@[simp] theorem driven_call {operator : Operator} {note : Option CallNote} :
    (call operator items note).Driven ↔ operator.drives items.tail = true ∧ ∀ a ∈ items, a.Driven :=
  driven_iff

@[simp] theorem driven_lambda {params : List String} : (lambda params a).Driven ↔ a.Driven := by
  rw [driven_iff]
  simp [isDriven, children]

@[simp] theorem driven_stream {frame : StreamFrame} : (stream a b frame).Driven ↔
    frame.cardinality.all (·.isKnown) = true ∧ a.Driven ∧ b.Driven := by
  rw [driven_iff]
  simp [isDriven, children]

theorem driven_leaf (h : e.children = []) (own : e.isDriven = true) : e.Driven :=
  driven_iff.2 ⟨own, by simp [h]⟩

@[simp] theorem driven_param (x : String) : (param x).Driven := driven_leaf rfl rfl

@[simp] theorem driven_rowRef (r : RowRef) : (rowRef r).Driven := driven_leaf rfl rfl

@[simp] theorem driven_const (value : Literal) : (const value).Driven := driven_leaf rfl rfl

@[simp] theorem driven_entitySet (entity : String) : (entitySet entity).Driven := driven_leaf rfl rfl

@[simp] theorem driven_member {name : String} : (member a name).Driven ↔ a.Driven := by
  rw [driven_iff]
  simp [isDriven, children]

@[simp] theorem driven_entityShape {entity : String} : (entityShape entity a).Driven ↔ a.Driven := by
  rw [driven_iff]
  simp [isDriven, children]

@[simp] theorem driven_tuple : (tuple items).Driven ↔ ∀ a ∈ items, a.Driven := by
  rw [driven_iff]
  simp [isDriven, children]

@[simp] theorem driven_binary {op : BinaryOp} : (binary op a b).Driven ↔ a.Driven ∧ b.Driven := by
  rw [driven_iff]
  simp [isDriven, children]

@[simp] theorem driven_pairing (outer inner : String) : (pairing outer inner).Driven := by
  rw [pairing, driven_lambda, driven_iff]
  simp [pairRecord, isDriven, children]

end Heads

theorem isDriven_of_sameHead {R : Expr → Expr → Prop} (head : SameHead R e e') :
    e'.isDriven = e.isDriven := by
  cases head with
  | call operator note h =>
    cases h with
    | nil => rfl
    | cons _ h => cases h <;> rfl
  | _ => rfl

theorem Driven.of_sameHead {R : Expr → Expr → Prop} (head : SameHead R e e') (own : e.isDriven = true)
    (parts : ∀ {c c'}, R c c' → c'.Driven) : e'.Driven := by
  refine driven_iff.2 ⟨(isDriven_of_sameHead head).trans own, fun c' hc' => ?_⟩
  obtain ⟨c, -, h⟩ := head.of_mem_children hc'
  exact parts h

theorem Driven.substitute {x : String} {d : Expr} (h : e.Driven) (hd : d.Driven) :
    (e.substitute x d).Driven := by
  intro c hc
  rcases mem_nodes_substitute hc with hc | ⟨b, hb, head⟩
  · exact hd c hc
  · exact (isDriven_of_sameHead head).trans (h b hb)

end Expr

/-- What is known of the rows in an expression: the forest that its references are into, how far it is
prepared, and the entities of its parameters. Without a form, references are not looked at. -/
structure KnownRows where
  catalog : Catalog
  forest : Forest
  form : Option Form
  params : String → Option String

/-- Rows that an expression stands for: one of them, several, or one that a lambda makes of another. -/
inductive Yield where
  | row (entity : String)
  | rows (entity : String)
  | map (source target : String)

namespace KnownRows

/-- What is known below a member: the navigations from references are bound already, unless the form
is raw. -/
def below (v : KnownRows) : KnownRows := { v with form := v.form.filter (· = .raw) }

/-- Inside a lambda. The first parameter stands for rows of the given entity, if it is known. -/
def bind (v : KnownRows) (params : List String) (element : Option String) : KnownRows :=
  { v with params := fun x =>
      if params.head? = some x then element else if x ∈ params then none else v.params x }

/-- Whatever is known in one view is known in the other. -/
structure Le (v w : KnownRows) : Prop where
  catalog : w.catalog = v.catalog
  keeps : v.forest.Keeps w.forest
  form : w.form = v.form ∨ w.form = some .raw ∧ v.form ≠ some .bound
  params : ∀ {x entity}, v.params x = some entity → w.params x = some entity

variable {v w : KnownRows}

theorem Le.refl (v : KnownRows) : v.Le v := ⟨rfl, .refl _, .inl rfl, id⟩

theorem Le.below (h : v.Le w) : v.below.Le w.below := by
  refine ⟨h.catalog, h.keeps, ?_, h.params⟩
  rcases h.form with heq | ⟨hw, -⟩
  · exact .inl (by simp only [KnownRows.below, heq])
  · refine .inr ⟨?_, ?_⟩
    · rw [KnownRows.below, hw]
      rfl
    · intro hv
      simpa using (Option.filter_eq_some_iff.1 hv).2

theorem Le.bind (h : v.Le w) (params : List String) (element : Option String) :
    (v.bind params element).Le (w.bind params element) := by
  refine ⟨h.catalog, h.keeps, h.form, fun {x entity} hx => ?_⟩
  simp only [KnownRows.bind] at hx ⊢
  split
  · next hhead => rwa [if_pos hhead] at hx
  · next hhead =>
    rw [if_neg hhead] at hx
    split
    · next hmem =>
      rw [if_pos hmem] at hx
      cases hx
    · next hmem =>
      rw [if_neg hmem] at hx
      exact h.params hx

theorem Le.bind_some (v : KnownRows) (params : List String) (element : Option String) :
    (v.bind params none).Le (v.bind params element) := by
  refine ⟨rfl, .refl _, .inl rfl, fun {x entity} hx => ?_⟩
  simp only [KnownRows.bind] at hx ⊢
  split at hx
  · cases hx
  · next hhead => rwa [if_neg hhead]

end KnownRows

/-- What an expression is known to stand for. -/
inductive Expr.Yields : KnownRows → Expr → Yield → Prop where
  | set {v : KnownRows} (entity : String) : Yields v (.entitySet entity) (.rows entity)
  | param {v : KnownRows} {x entity : String} (known : v.params x = some entity) :
    Yields v (.param x) (.row entity)
  | row {v : KnownRows} {r : RowRef} {entity : String} (read : v.form ≠ none)
    (single : (v.forest.node r.node).isCollection = false)
    (known : (v.forest.node r.node).entity = some entity) : Yields v (.rowRef r) (.row entity)
  | collection {v : KnownRows} {r : RowRef} {entity : String} (bound : v.form = some .bound)
    (many : (v.forest.node r.node).isCollection = true)
    (known : (v.forest.node r.node).entity = some entity) : Yields v (.rowRef r) (.rows entity)
  | navigation {v : KnownRows} {t : Expr} {owner name : String} {edge : NavigationEdge}
    (ht : Yields v.below t (.row owner)) (hedge : v.catalog.navigation? owner name = some edge)
    (single : edge.isCollection = false) : Yields v (.member t name) (.row edge.target)
  | navigations {v : KnownRows} {t : Expr} {owner name : String} {edge : NavigationEdge}
    (ht : Yields v.below t (.row owner)) (hedge : v.catalog.navigation? owner name = some edge)
    (many : edge.isCollection = true) : Yields v (.member t name) (.rows edge.target)
  | kept {v : KnownRows} {operator : Operator} {source : Expr} {arguments : List Expr}
    {note : Option CallNote} {entity : String} (keeps : operator.keepsRows = true)
    (hs : Yields v source (.rows entity)) :
    Yields v (.call operator (source :: arguments) note) (.rows entity)
  | select {v : KnownRows} {source selector : Expr} {entity target : String}
    (hs : Yields v source (.rows entity)) (hsel : Yields v selector (.map entity target)) :
    Yields v (.call .select [source, selector] none) (.rows target)
  | lambda {v : KnownRows} {x : String} {body : Expr} {entity target : String}
    (hb : Yields (v.bind [x] (some entity)) body (.row target)) :
    Yields v (.lambda [x] body) (.map entity target)

/-- The chain is over rows of a known entity. -/
def Expr.OnRows (v : KnownRows) (e : Expr) : Prop := ∃ entity, e.chainRoot.Yields v (.rows entity)

/-- All undriven calls in the expression stand over rows of known entities; there are none unless
`nested` says so. If the expression is a lambda, it is one over rows of `element`. -/
inductive Expr.Drivable : Bool → Option String → KnownRows → Expr → Prop where
  | plain {nested : Bool} {element : Option String} {v : KnownRows} {e : Expr} (kind : e.isPlain = true)
    (parts : ∀ d ∈ e.children, Drivable nested none v d) : Drivable nested element v e
  | lambda {nested : Bool} {element : Option String} {v : KnownRows} {params : List String} {body : Expr}
    (hb : Drivable nested none (v.bind params element) body) :
    Drivable nested element v (.lambda params body)
  | stream {nested : Bool} {element : Option String} {v : KnownRows} {rows selector : Expr}
    {frame : StreamFrame} (known : frame.cardinality.all (·.isKnown) = true)
    (hr : Drivable false none v rows) (hs : Drivable false none v selector) :
    Drivable nested element v (.stream rows selector frame)
  | bare {nested : Bool} {element : Option String} {v : KnownRows} {operator : Operator}
    {note : Option CallNote} (driven : operator.drives [] = true) :
    Drivable nested element v (.call operator [] note)
  | call {nested : Bool} {element : Option String} {v : KnownRows} {operator : Operator}
    {source : Expr} {arguments : List Expr} {note : Option CallNote} (row? : Option String)
    (driven : operator.drives arguments = true ∨ nested = true ∧ source.OnRows v)
    (known : ∀ entity, row? = some entity →
      operator.pairsSources = false ∧ source.Yields v (.rows entity))
    (hs : Drivable nested none v source)
    (ha : ∀ a ∈ arguments,
      Drivable (nested && operator.opensArguments && note.isNone) row? v a) :
    Drivable nested element v (.call operator (source :: arguments) note)

section Views

variable {v w : KnownRows} {e e' : Expr} {k : Yield} {nested : Bool} {element : Option String}

/-- References say the same of their rows in two views that look at them alike. -/
theorem Expr.Yields.reference {r : RowRef} (h : (rowRef r).Yields v k) (keeps : v.forest.Keeps w.forest)
    (read : v.form ≠ none → w.form ≠ none) (bound : v.form = some .bound → w.form = some .bound) :
    (rowRef r).Yields w k := by
  cases h with
  | row hread single known =>
    have stays := keeps.node (Forest.Keeps.range_of_entity known)
    exact .row (read hread) (stays.isCollection.trans single) (stays.entity.trans known)
  | collection hbound many known =>
    have stays := keeps.node (Forest.Keeps.range_of_entity known)
    exact .collection (bound hbound) (stays.isCollection.trans many) (stays.entity.trans known)

theorem KnownRows.Le.read (h : v.Le w) (hv : v.form ≠ none) : w.form ≠ none := by
  rcases h.form with heq | ⟨heq, -⟩
  · exact heq ▸ hv
  · simp [heq]

theorem KnownRows.Le.bound (h : v.Le w) (hv : v.form = some .bound) : w.form = some .bound := by
  rcases h.form with heq | ⟨-, hne⟩
  · exact heq.trans hv
  · exact absurd hv hne

theorem Expr.Yields.mono (h : e.Yields v k) (hle : v.Le w) : e.Yields w k := by
  induction h generalizing w with
  | set entity => exact .set entity
  | param known => exact .param (hle.params known)
  | row read single known => exact (Yields.row read single known).reference hle.keeps hle.read hle.bound
  | collection bound many known =>
    exact (Yields.collection bound many known).reference hle.keeps hle.read hle.bound
  | navigation _ hedge single ih => exact .navigation (ih hle.below) (hle.catalog ▸ hedge) single
  | navigations _ hedge many ih => exact .navigations (ih hle.below) (hle.catalog ▸ hedge) many
  | kept keeps _ ih => exact .kept keeps (ih hle)
  | select _ _ ihs ihsel => exact .select (ihs hle) (ihsel hle)
  | lambda _ ih => exact .lambda (ih (hle.bind _ _))

theorem Expr.OnRows.mono (h : e.OnRows v) (hle : v.Le w) : e.OnRows w := h.imp fun _ h => h.mono hle

/-- What stands for rows is a chain over rows. -/
theorem Expr.Yields.onRows {entity : String} (h : e.Yields v (.rows entity)) : e.OnRows v := by
  generalize hk : Yield.rows entity = k at h
  induction h generalizing entity with
  | set name => exact ⟨name, .set name⟩
  | collection bound many known => exact ⟨_, .collection bound many known⟩
  | navigations ht hedge many => exact ⟨_, .navigations ht hedge many⟩
  | kept _ _ ih => exact ih hk
  | select _ _ ih => exact ih rfl
  | _ => cases hk

theorem Expr.Drivable.mono (h : e.Drivable nested element v) (hle : v.Le w) :
    e.Drivable nested element w := by
  induction h generalizing w with
  | plain kind _ ih => exact .plain kind fun d hd => ih d hd hle
  | lambda _ ih => exact .lambda (ih (hle.bind _ _))
  | stream known _ _ ihr ihs => exact .stream known (ihr hle) (ihs hle)
  | bare driven => exact .bare driven
  | call _ driven known _ _ ihs iha =>
    exact .call _ (driven.imp_right (And.imp_right (·.mono hle)))
      (fun entity heq => (known entity heq).imp_right (·.mono hle)) (ihs hle) fun a ha => iha a ha hle

/-- Without undriven calls, nothing has to be known of rows. -/
theorem Expr.Driven.drivable (h : e.Driven) : e.Drivable nested element v := by
  induction e using children_induction generalizing nested element v with
  | step e ih =>
    obtain ⟨own, parts⟩ := driven_iff.1 h
    have part {d : Expr} (hd : d ∈ e.children) {nested element v} : d.Drivable nested element v :=
      ih d hd (parts d hd)
    cases e with
    | call operator arguments note =>
      cases arguments with
      | nil => exact .bare own
      | cons source arguments =>
        exact .call none (.inl own) (fun _ h => by cases h) (part (.head _)) fun a ha =>
          part (.tail _ ha)
    | lambda params body => exact .lambda (part (.head _))
    | stream rows selector frame => exact .stream own (part (.head _)) (part (.tail _ (.head _)))
    | _ => exact .plain rfl fun d hd => part hd

theorem Expr.Drivable.driven (h : e.Drivable false element v) : e.Driven := by
  generalize hn : false = nested at h
  induction h with
  | plain kind _ ih => exact .plain kind fun d hd => ih d hd hn
  | lambda _ ih => exact driven_iff.2 ⟨rfl, by simpa [children] using ih hn⟩
  | stream known _ _ ihr ihs => exact driven_iff.2 ⟨known, by simpa [children] using ⟨ihr rfl, ihs rfl⟩⟩
  | bare driven => exact driven_iff.2 ⟨driven, by simp [children]⟩
  | call _ driven known _ _ ihs iha =>
    subst hn
    refine driven_iff.2 ⟨driven.resolve_right (by simp), List.forall_mem_cons.2 ⟨ihs rfl, ?_⟩⟩
    exact fun a ha => iha a ha rfl

theorem Expr.drivable_false_iff : e.Drivable false element v ↔ e.Driven :=
  ⟨Drivable.driven, Driven.drivable⟩

theorem Expr.Drivable.of_and {b : Bool} (h : e.Drivable (nested && b) element v) :
    e.Drivable nested element v := by
  cases b with
  | true => rwa [Bool.and_true] at h
  | false =>
    rw [Bool.and_false] at h
    exact h.driven.drivable

theorem Expr.Drivable.body {params : List String} {body : Expr}
    (h : (Expr.lambda params body).Drivable nested element v) :
    body.Drivable nested none (v.bind params element) := by
  cases h with
  | plain kind _ => cases kind
  | lambda hb => exact hb

/-- The parts of a call in an expression that is still to be expanded. -/
theorem Expr.Drivable.of_call {operator : Operator} {source : Expr} {arguments : List Expr}
    {note : Option CallNote} (h : (Expr.call operator (source :: arguments) note).Drivable true element v) :
    ∃ row?, (∀ entity, row? = some entity →
        operator.pairsSources = false ∧ source.Yields v (.rows entity)) ∧
      source.Drivable true none v ∧ ∀ a ∈ arguments, a.Drivable true row? v := by
  cases h with
  | plain kind _ => cases kind
  | call row? _ known hs ha => exact ⟨row?, known, hs, fun a hmem => (ha a hmem).of_and.of_and⟩

theorem Expr.Drivable.of_none (h : e.Drivable nested none v) : e.Drivable nested element v := by
  cases h with
  | plain kind parts => exact .plain kind parts
  | lambda hb => exact .lambda (hb.mono (.bind_some _ _ _))
  | stream known hr hs => exact .stream known hr hs
  | bare driven => exact .bare driven
  | call row? driven known hs ha => exact .call row? driven known hs ha

end Views

section Carrying

variable {v w u : KnownRows} {e e' e'' : Expr} {nested : Bool} {element : Option String}

/-- What is known of an expression in one view is known of another one in another view. -/
structure Transfers (v w : KnownRows) (e e' : Expr) : Prop where
  yields : ∀ {k}, e.Yields v k → e'.Yields w k
  onRows : e.OnRows v → e'.OnRows w
  drivable : ∀ {nested element}, e.Drivable nested element v → e'.Drivable nested element w

theorem Transfers.trans (h : Transfers v w e e') (k : Transfers w u e' e'') : Transfers v u e e'' :=
  ⟨k.yields ∘ h.yields, k.onRows ∘ h.onRows, k.drivable ∘ h.drivable⟩

theorem Transfers.of_le (h : v.Le w) (e : Expr) : Transfers v w e e :=
  ⟨fun hy => hy.mono h, fun hr => hr.mono h, fun hd => hd.mono h⟩

theorem Expr.isPlain_of_sameHead {R : Expr → Expr → Prop} (head : SameHead R e e') :
    e'.isPlain = e.isPlain := by
  cases head <;> rfl

theorem Expr.Drivable.of_sameHead (h : e.Drivable nested element v) (head : SameHead (Transfers v w) e e')
    (hl : ∀ params body, e ≠ .lambda params body) : e'.Drivable nested element w := by
  cases h with
  | plain kind parts =>
    refine .plain (isPlain_of_sameHead head ▸ kind) fun d' hd' => ?_
    obtain ⟨d, hd, htransfers⟩ := head.of_mem_children hd'
    exact htransfers.drivable (parts d hd)
  | lambda hb => exact absurd rfl (hl _ _)
  | stream known hr hs =>
    cases head with
    | stream _ hrows hselector => exact .stream known (hrows.drivable hr) (hselector.drivable hs)
  | bare driven =>
    cases head with
    | call _ _ harguments =>
      cases harguments
      exact .bare driven
  | call row? driven known hs ha =>
    cases head with
    | call _ _ harguments =>
      cases harguments with
      | cons hsource harguments =>
        refine .call row? ?_ ?_ (hsource.drivable hs) ?_
        · rcases driven with driven | ⟨hn, onRows⟩
          · left
            cases harguments <;> exact driven
          · exact .inr ⟨hn, hsource.onRows onRows⟩
        · exact fun entity heq => (known entity heq).imp_right hsource.yields
        · intro a' ha'
          obtain ⟨a, hmem, htransfers⟩ := exists_of_mem_right harguments ha'
          exact htransfers.drivable (ha a hmem)

theorem Expr.chainRoot_of_ne (h : ∀ operator source arguments note,
    e ≠ .call operator (source :: arguments) note) : e.chainRoot = e := by
  unfold chainRoot
  split
  · exact absurd rfl (h _ _ _ _)
  · rfl

/-- Rebuilding from parts that carry over carries over, if the leaves do; of the target of a member,
what is known below a member has to carry over, too. -/
theorem Transfers.of_sameHead {R : Expr → Expr → Prop} (head : SameHead R e e')
    (parts : ∀ {c c'}, R c c' → Transfers v w c c')
    (below : ∀ {c c' name owner}, e = .member c name → R c c' → c.Yields v.below (.row owner) →
      c'.Yields w.below (.row owner))
    (hl : ∀ params body, e ≠ .lambda params body)
    (hx : ∀ x k, e = .param x → e.Yields v k → e.Yields w k)
    (hr : ∀ r k, e = .rowRef r → e.Yields v k → e.Yields w k) (hc : w.catalog = v.catalog) :
    Transfers v w e e' := by
  have yields {k} (h : e.Yields v k) : e'.Yields w k := by
    cases h with
    | set entity =>
      cases head
      exact .set entity
    | param known =>
      cases head
      exact hx _ _ rfl (.param known)
    | row read single known =>
      cases head
      exact hr _ _ rfl (.row read single known)
    | collection bound many known =>
      cases head
      exact hr _ _ rfl (.collection bound many known)
    | navigation ht hedge single =>
      cases head with
      | member _ h => exact .navigation (below rfl h ht) (hc ▸ hedge) single
    | navigations ht hedge many =>
      cases head with
      | member _ h => exact .navigations (below rfl h ht) (hc ▸ hedge) many
    | kept keeps hs =>
      cases head with
      | call _ _ harguments =>
        cases harguments with
        | cons hsource _ => exact .kept keeps ((parts hsource).yields hs)
    | select hs hsel =>
      cases head with
      | call _ _ harguments =>
        cases harguments with
        | cons hsource harguments =>
          cases harguments with
          | cons hselector harguments =>
            cases harguments
            exact .select ((parts hsource).yields hs) ((parts hselector).yields hsel)
    | lambda hb => exact absurd rfl (hl _ _)
  refine ⟨yields, fun onRows => ?_, fun h => h.of_sameHead (head.mono fun _ _ => parts) hl⟩
  by_cases hcall : ∃ operator source arguments note, e = .call operator (source :: arguments) note
  · obtain ⟨operator, source, arguments, note, rfl⟩ := hcall
    cases head with
    | call _ _ harguments =>
      cases harguments with
      | cons hsource _ => exact (parts hsource).onRows onRows
  · have root : e.chainRoot = e :=
      chainRoot_of_ne fun operator source arguments note h => hcall ⟨_, _, _, _, h⟩
    have root' : e'.chainRoot = e' := by
      refine chainRoot_of_ne fun operator source arguments note h => ?_
      subst h
      cases head with
      | call _ _ harguments =>
        cases harguments
        exact hcall ⟨_, _, _, _, rfl⟩
    unfold OnRows at onRows ⊢
    rw [root] at onRows
    rw [root']
    exact onRows.imp fun _ => yields

theorem Transfers.lambda {params : List String} {body body' : Expr}
    (h : ∀ element, Transfers (v.bind params element) (w.bind params element) body body') :
    Transfers v w (.lambda params body) (.lambda params body') where
  yields hy := by
    cases hy with
    | lambda hb => exact .lambda ((h _).yields hb)
  onRows := by
    rintro ⟨entity, hy⟩
    cases hy
  drivable hd := by
    cases hd with
    | plain kind _ => cases kind
    | lambda hb => exact .lambda ((h _).drivable hb)

end Carrying

end EntityQuery
