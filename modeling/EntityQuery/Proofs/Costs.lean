import Mathlib.Order.Monotone.Basic
import EntityQuery.Proofs.Links

/-!
# How deep expansions nest

A cost bounds how deep the expansion of a query nests, and that of every query that can be read out of
its rows. A parameter costs what the rows that it stands for cost, so that putting a selector for it
makes nothing more expensive. The calls of an expression cost more than what they are over and more
than the bodies of their lambdas. Only a navigation can become a query that was not there before, and
the members of rows that are no navigations stay members.

Substitution does not rename the lambdas that it enters. What is put for a parameter mentions only names
that were in view where the parameter was bound, so nothing of it is captured as long as the parameter
is used where none of these names is hidden (`Costing.Sees`).
-/

namespace EntityQuery

open EntityQuery.Expr

/-- What the parameters in view cost at most, the innermost first. -/
abbrev Costing := List (String × Nat)

namespace Costing

/-- The names of the parameters in view. -/
def names (ρ : Costing) : List String := ρ.map Prod.fst

/-- The parameters of a lambda cost `m` in its body. -/
def binding (params : List String) (m : Nat) (ρ : Costing) : Costing :=
  (params.map (·, m)).reverse ++ ρ

/-- What was in view at an outer place is in view here, and nothing that was bound since hides it. -/
def Sees (ρ τ : Costing) : Prop := ∃ inner, ρ = inner ++ τ ∧ (names inner).Disjoint τ.names

variable {ρ σ τ inner outer : Costing} {params : List String} {x : String} {m : Nat}

@[simp] theorem names_append (inner ρ : Costing) : names (inner ++ ρ) = names inner ++ names ρ :=
  List.map_append

@[simp] theorem names_cons (x : String) (m : Nat) (ρ : Costing) : names ((x, m) :: ρ) = x :: names ρ := rfl

@[simp] theorem names_binding (params : List String) (m : Nat) (ρ : Costing) :
    (ρ.binding params m).names = params.reverse ++ ρ.names := by
  simp [binding, names, Function.comp_def]

theorem Sees.refl (ρ : Costing) : ρ.Sees ρ := ⟨[], rfl, List.disjoint_nil_left _⟩

theorem Sees.trans (hρ : ρ.Sees σ) (hσ : σ.Sees τ) : ρ.Sees τ := by
  obtain ⟨a, rfl, ha⟩ := hρ
  obtain ⟨b, rfl, hb⟩ := hσ
  rw [names_append, List.disjoint_append_right] at ha
  refine ⟨a ++ b, (List.append_assoc _ _ _).symm, ?_⟩
  rw [names_append, List.disjoint_append_left]
  exact ⟨ha.2, hb⟩

theorem Sees.mem (h : ρ.Sees ((x, m) :: τ)) : x ∈ ρ.names := by
  obtain ⟨inner, rfl, -⟩ := h
  simp

/-- What is seen from inside a binding of `x` was in view there, or it stands below and `x` hides none of
it. -/
theorem Sees.across (h : (inner ++ (x, m) :: outer).Sees τ) :
    (∃ skip inner', inner = skip ++ inner' ∧ τ = inner' ++ (x, m) :: outer ∧ (names skip).Disjoint τ.names) ∨
      (inner ++ outer).Sees τ ∧ x ∉ τ.names := by
  obtain ⟨skip, heq, apart⟩ := h
  rcases List.append_eq_append_iff.1 heq with ⟨l, rfl, htail⟩ | ⟨l, rfl, rfl⟩
  · rcases List.cons_eq_append_iff.1 htail with ⟨rfl, rfl⟩ | ⟨l', rfl, rfl⟩
    · exact .inl ⟨inner, [], by simp, rfl, by simpa using apart⟩
    · rw [names_append, names_cons, List.disjoint_append_left, List.disjoint_cons_left] at apart
      refine .inr ⟨⟨inner ++ l', by simp, ?_⟩, apart.2.1⟩
      rw [names_append, List.disjoint_append_left]
      exact ⟨apart.1, apart.2.2⟩
  · exact .inl ⟨skip, l, rfl, rfl, apart⟩

/-- The same view, without the binding. -/
theorem Sees.without (h : (names inner).Disjoint (names (σ ++ (x, m) :: outer))) :
    (inner ++ σ ++ outer).Sees (σ ++ outer) := by
  refine ⟨inner, List.append_assoc _ _ _, ?_⟩
  simp only [names_append, names_cons, List.disjoint_append_right, List.disjoint_cons_right] at h ⊢
  exact ⟨h.1, h.2.2⟩

end Costing

/-- The name of a declared property, or of a field of a pair record. -/
def Catalog.IsColumn (c : Catalog) (x : String) : Prop :=
  x = outerField ∨ x = innerField ∨ ∃ t ∈ c.types, ∃ p ∈ t.properties, p.name = x

instance (c : Catalog) (x : String) : Decidable (c.IsColumn x) :=
  inferInstanceAs (Decidable (_ ∨ _ ∨ _))

theorem Catalog.isColumn_of_property {c : Catalog} {entity x : String} {t : EntityType} {p : Property}
    (ht : c.type? entity = some t) (hp : t.property? x = some p) : c.IsColumn x :=
  .inr (.inr ⟨t, List.mem_of_find?_eq_some ht, p, Shape.find?_property hp⟩)

theorem Catalog.isColumn_of_propertiesNamed {c : Catalog} {entity : String} {t : EntityType}
    {names : List String} {key : List Property} (ht : c.type? entity = some t)
    (h : t.propertiesNamed names = .ok key) : ∀ q ∈ key, c.IsColumn q.name :=
  fun q hq => isColumn_of_property ht ((EntityType.names_of_propertiesNamed h).2 q hq)

/-- No navigation has the name of a column. -/
def Catalog.NamesApart (c : Catalog) : Prop :=
  ∀ t ∈ c.types, ∀ edge ∈ t.navigations, ¬c.IsColumn edge.name

instance (c : Catalog) : Decidable c.NamesApart :=
  inferInstanceAs (Decidable (∀ t ∈ c.types, ∀ edge ∈ t.navigations, ¬c.IsColumn edge.name))

/-- A navigation of some type has the name. -/
def Catalog.IsNavigation (c : Catalog) (x : String) : Prop :=
  ∃ t ∈ c.types, ∃ edge ∈ t.navigations, edge.name = x

theorem Catalog.NamesApart.not_isNavigation {c : Catalog} (h : c.NamesApart) {x : String}
    (hx : c.IsColumn x) : ¬ c.IsNavigation x := by
  rintro ⟨t, ht, edge, hedge, rfl⟩
  exact h t ht edge hedge hx

theorem Catalog.isNavigation_of_navigation? {c : Catalog} {entity x : String} {edge : NavigationEdge}
    (h : c.navigation? entity x = some edge) : c.IsNavigation x := by
  obtain ⟨t, ht, hedge⟩ := navigation?_eq_some.1 h
  exact ⟨t, List.mem_of_find?_eq_some ht, edge, List.mem_of_find?_eq_some hedge, by
    simpa using List.find?_some hedge⟩

/-- How much deeper than its arguments a call is. A predicate of another operator becomes a filter. -/
def Operator.depth : Operator → Nat
  | .filter => 1
  | _ => 2

theorem Operator.depth_pos (operator : Operator) : 1 ≤ operator.depth := by
  unfold depth
  split <;> decide

namespace Expr

/-- The node is no row and no member, binds nothing, calls nothing and is no stream. -/
def isScalarNode : Expr → Bool
  | .param _ | .rowRef _ | .member _ _ | .call .. | .lambda .. | .stream .. => false
  | _ => true

def isLambda : Expr → Bool
  | .lambda .. => true
  | _ => false

/-- The expression is a set or a call. -/
def isQuery : Expr → Bool
  | .entitySet _ | .call .. => true
  | _ => false

variable {c : Catalog} {f g : Forest} {ρ σ τ : Costing} {k l m n : Nat} {e e' d v : Expr} {x : String}

theorem getElem?_of_forall₂ {R : Expr → Expr → Prop} {es ds : List Expr} (h : List.Forall₂ R es ds) {i : Nat}
    {d : Expr} (hi : ds[i]? = some d) : ∃ e, es[i]? = some e ∧ R e d := by
  induction h generalizing i with
  | nil => cases hi
  | cons hR _ ih =>
    cases i with
    | zero => exact ⟨_, rfl, Option.some.inj hi ▸ hR⟩
    | succ i => exact ih hi

theorem SameHead.isScalarNode {R : Expr → Expr → Prop} (h : SameHead R e e') :
    e'.isScalarNode = e.isScalarNode := by
  cases h <;> rfl

theorem SameHead.isQuery {R : Expr → Expr → Prop} (h : SameHead R e e') : e'.isQuery = e.isQuery := by
  cases h <;> rfl

theorem isQuery_substitute (h : e.isQuery = true) (x : String) (v : Expr) :
    (e.substitute x v).isQuery = true := by
  cases e with
  | entitySet _ => rfl
  | call _ _ _ => rw [substitute_of_none rfl]; rfl
  | _ => cases h

/-- Expansions of the expression, and of the queries that can be read out of its rows, nest at most `k`
deep. Lambdas are nothing but arguments of calls, and their parameters are different from each other. A
call takes from around it what it sees from some place on. An argument may use the rows of those before
it. -/
inductive Costs (c : Catalog) (f : Forest) : Costing → Nat → Expr → Prop where
  | param {ρ : Costing} {k m : Nat} {x : String} (τ : Costing) (known : ρ.Sees ((x, m) :: τ)) (le : m ≤ k)
    (pos : 1 ≤ k) : Costs c f ρ k (.param x)
  | rowRef {ρ : Costing} {k : Nat} {r : RowRef} (range : r.node.index < f.size) (pos : 1 ≤ k)
    (many : (f.node r.node).isCollection = true → 4 ≤ k) : Costs c f ρ k (.rowRef r)
  | member {ρ : Costing} {k : Nat} {t : Expr} {name : String} (target : Costs c f ρ k t)
    (navigation : c.IsNavigation name → 4 ≤ k) : Costs c f ρ k (.member t name)
  | stream {ρ : Costing} {k : Nat} {rows selector : Expr} {frame : StreamFrame} (query : rows.isQuery = true)
    (selector_costs : Costs c f ρ k selector) : Costs c f ρ k (.stream rows selector frame)
  | scalar {ρ : Costing} {k : Nat} {e : Expr} (node : e.isScalarNode = true) (pos : 1 ≤ k)
    (parts : ∀ d ∈ e.children, Costs c f ρ k d) : Costs c f ρ k e
  | call {ρ : Costing} {k : Nat} {operator : Operator} {arguments : List Expr} {note : Option CallNote}
    (τ : Costing) (around : ρ.Sees τ) (bound : Nat → Nat) (mono : Monotone bound)
    (values : ∀ (i : Nat) (a : Expr), arguments[i]? = some a → a.isLambda = false →
      Costs c f τ (bound (i + 1)) a)
    (apart : ∀ (params : List String) (body : Expr), .lambda params body ∈ arguments → params.Nodup)
    (bodies : ∀ (i : Nat) (params : List String) (body : Expr), arguments[i]? = some (.lambda params body) →
      Costs c f (τ.binding params (bound i)) (bound (i + 1)) body)
    (deeper : bound arguments.length + operator.depth ≤ k) :
    Costs c f ρ k (.call operator arguments note)

namespace Costs

theorem pos (h : Costs c f ρ k e) : 1 ≤ k := by
  induction h with
  | param _ _ _ pos | rowRef _ pos _ | scalar _ pos _ _ => exact pos
  | member _ _ ih | stream _ _ ih => exact ih
  | @call _ _ operator _ _ _ _ _ _ _ _ _ deeper =>
    have := operator.depth_pos
    omega

theorem isLambda (h : Costs c f ρ k e) : e.isLambda = false := by
  cases h with
  | scalar node _ _ => cases e <;> first | rfl | cases node
  | _ => rfl

/-- More parameters in view and a higher bound do no harm. -/
theorem mono (h : Costs c f ρ k e) (hσ : σ.Sees ρ) (hk : k ≤ l) : Costs c f σ l e := by
  induction h generalizing σ l with
  | param τ known le pos => exact .param τ (hσ.trans known) (le.trans hk) (pos.trans hk)
  | rowRef range pos many => exact .rowRef range (pos.trans hk) fun h => (many h).trans hk
  | member _ navigation ih => exact .member (ih hσ hk) fun h => (navigation h).trans hk
  | stream query _ ih => exact .stream query (ih hσ hk)
  | scalar node pos _ ih => exact .scalar node (pos.trans hk) fun d hd => ih d hd hσ hk
  | call τ around bound mono values apart bodies deeper _ _ =>
    exact .call τ (hσ.trans around) bound mono values apart bodies (deeper.trans hk)

theorem le (h : Costs c f ρ k e) (hk : k ≤ l) : Costs c f ρ l e := h.mono (.refl ρ) hk

/-- Forests that keep the nodes keep the costs. -/
theorem keeps (h : Costs c f ρ k e) (hfg : f.Keeps g) : Costs c g ρ k e := by
  induction h with
  | param τ known le pos => exact .param τ known le pos
  | rowRef range pos many =>
    refine .rowRef (Nat.lt_of_lt_of_le range hfg.size) pos fun h => many ?_
    rwa [← (hfg.node range).isCollection]
  | member _ navigation ih => exact .member ih navigation
  | stream query _ ih => exact .stream query ih
  | scalar node pos _ ih => exact .scalar node pos ih
  | call τ around bound mono _ apart _ deeper ihv ihb =>
    exact .call τ around bound mono ihv apart ihb deeper

/-- A binding that is hidden by another one of its name is not used. -/
theorem unhide (h : Costs c f ρ k e) {inner outer : Costing} (hρ : ρ = inner ++ (x, m) :: outer)
    (hx : x ∈ Costing.names inner) : Costs c f (inner ++ outer) k e := by
  induction h generalizing inner with
  | @param ρ k n y τ known le pos =>
    subst hρ
    rcases known.across with ⟨skip, inner', rfl, heq, apart⟩ | ⟨seen, -⟩
    · cases inner' with
      | nil =>
        cases heq
        rw [List.append_nil] at hx
        exact absurd (List.mem_cons_self ..) (apart hx)
      | cons entry inner' =>
        cases heq
        exact .param _ (.without apart) le pos
    · exact .param τ seen le pos
  | rowRef range pos many => exact .rowRef range pos many
  | member _ navigation ih => exact .member (ih hρ hx) navigation
  | stream query _ ih => exact .stream query (ih hρ hx)
  | scalar node pos _ ih => exact .scalar node pos fun d hd => ih d hd hρ hx
  | call τ around bound mono values apart bodies deeper ihv ihb =>
    subst hρ
    rcases around.across with ⟨skip, inner', rfl, rfl, disjoint⟩ | ⟨seen, -⟩
    · have hx' : x ∈ Costing.names inner' := by
        rw [Costing.names_append] at hx
        refine (List.mem_append.1 hx).resolve_left fun hskip => disjoint hskip ?_
        simp
      refine .call _ (.without disjoint) bound mono (fun i a ha hl => ihv i a ha hl rfl hx') apart
        (fun i params body ha => ?_) deeper
      have entered : Costing.binding params (bound i) (inner' ++ (x, m) :: outer) =
          Costing.binding params (bound i) inner' ++ (x, m) :: outer := by simp [Costing.binding]
      have inside := ihb i params body ha entered (by simp [hx'])
      simpa [Costing.binding] using inside
    · exact .call τ seen bound mono values apart bodies deeper

end Costs

/-- `v` is put for `x`: the parameter is not in view, or `v` costs what it does, with what was in view where
it was bound. -/
inductive Puts (c : Catalog) (f : Forest) (x : String) (v : Expr) : Costing → Costing → Prop where
  | absent {ρ : Costing} (h : x ∉ ρ.names) : Puts c f x v ρ ρ
  | present {inner outer : Costing} {m : Nat} (hv : Costs c f outer m v) (hinner : x ∉ Costing.names inner) :
    Puts c f x v (inner ++ (x, m) :: outer) (inner ++ outer)

namespace Puts

variable {y : String} {params : List String}

/-- A parameter that is seen is the one that `v` is put for, which is seen from the same place, or it is
still seen. -/
theorem param (h : Puts c f x v ρ σ) (known : ρ.Sees ((y, m) :: τ)) :
    (y = x ∧ Costs c f σ m v) ∨ y ≠ x ∧ ∃ τ', σ.Sees ((y, m) :: τ') := by
  cases h with
  | absent hρ =>
    refine .inr ⟨?_, τ, known⟩
    rintro rfl
    exact hρ known.mem
  | @present inner outer n hv hinner =>
    rcases known.across with ⟨skip, inner', rfl, heq, apart⟩ | ⟨seen, hx⟩
    · cases inner' with
      | nil =>
        cases heq
        rw [List.append_nil]
        exact .inl ⟨rfl, hv.mono ⟨skip, rfl, (List.disjoint_cons_right.1 apart).2⟩ (Nat.le_refl _)⟩
      | cons entry inner' =>
        cases heq
        refine .inr ⟨?_, _, .without apart⟩
        rintro rfl
        simp at hinner
    · refine .inr ⟨?_, τ, seen⟩
      rintro rfl
      simp at hx

/-- What a call sees around it has the parameter in it, or is left as it is. -/
theorem around (h : Puts c f x v ρ σ) (hτ : ρ.Sees τ) : ∃ τ', σ.Sees τ' ∧ Puts c f x v τ τ' := by
  cases h with
  | absent hx =>
    obtain ⟨inner, rfl, apart⟩ := hτ
    exact ⟨τ, ⟨inner, rfl, apart⟩, .absent fun hmem => hx (by simp [hmem])⟩
  | @present inner outer m hv hinner =>
    rcases hτ.across with ⟨skip, inner', rfl, rfl, apart⟩ | ⟨seen, hx⟩
    · refine ⟨inner' ++ outer, .without apart, .present hv fun hmem => hinner ?_⟩
      simp [hmem]
    · exact ⟨τ, seen, .absent hx⟩

/-- Under a lambda that binds other names. -/
theorem binding (h : Puts c f x v ρ σ) (hx : x ∉ params) (b : Nat) :
    Puts c f x v (ρ.binding params b) (σ.binding params b) := by
  cases h with
  | absent hρ => exact .absent (by simp [hx, hρ])
  | @present inner outer m hv hinner =>
    have hnames : x ∉ Costing.names (Costing.binding params b inner) := by simp [hx, hinner]
    simpa only [Costing.binding, List.append_assoc] using present hv hnames

/-- Under a lambda that binds the parameter anew, nothing is put for it. -/
theorem hidden (h : Puts c f x v ρ σ) (hx : x ∈ params) (b : Nat)
    (he : Costs c f (ρ.binding params b) k e) : Costs c f (σ.binding params b) k e := by
  cases h with
  | absent _ => exact he
  | @present inner outer m _ _ =>
    have entered : Costing.binding params b (inner ++ (x, m) :: outer) =
        Costing.binding params b inner ++ (x, m) :: outer := by simp [Costing.binding]
    have inside := he.unhide entered (by simp [hx])
    simpa [Costing.binding] using inside

/-- What costs no more than the parameters of a lambda can be put for the first of them. -/
theorem enter (nodup : (x :: params).Nodup) (hv : Costs c f ρ m v) :
    Puts c f x v (ρ.binding (x :: params) m) (ρ.binding params m) := by
  have hinner : x ∉ Costing.names (params.map (·, m)).reverse := by
    simpa [Costing.names, Function.comp_def] using (List.nodup_cons.1 nodup).1
  simpa [Costing.binding] using present hv hinner

end Puts

namespace Costs

theorem substitute (h : Costs c f ρ k e) (hput : Puts c f x v ρ σ) : Costs c f σ k (e.substitute x v) := by
  have parts (e : Expr) (hnone : substituteAt x v e = none) :
      SameHead (fun d d' => d ∈ e.children ∧ d' = d.substitute x v) e (e.substitute x v) := by
    rw [substitute_of_none hnone]
    exact .of_map (fun d => d.substitute x v) e
  induction h generalizing σ with
  | @param ρ k m y τ known le pos =>
    rw [substitute_param]
    rcases hput.param known with ⟨rfl, hv⟩ | ⟨hne, τ', seen⟩
    · rw [if_pos rfl]
      exact hv.le le
    · rw [if_neg hne]
      exact .param τ' seen le pos
  | rowRef range pos many => exact .rowRef range pos many
  | member _ navigation ih =>
    rw [substitute_of_none rfl]
    exact .member (ih hput) navigation
  | stream query _ ih =>
    rw [substitute_of_none rfl]
    exact .stream (isQuery_substitute query x v) (ih hput)
  | @scalar ρ k e node pos _ ih =>
    have head := parts e (by cases e <;> first | rfl | cases node)
    refine .scalar (head.isScalarNode.trans node) pos fun d' hd' => ?_
    obtain ⟨d, hd, -, rfl⟩ := head.of_mem_children hd'
    exact ih d hd hput
  | @call ρ k operator arguments note τ around bound hmono _ apart bodies deeper ihv ihb =>
    obtain ⟨τ', around', hput⟩ := hput.around around
    obtain ⟨args, heq, hargs⟩ : ∃ args, (Expr.call operator arguments note).substitute x v =
        .call operator args note ∧ List.Forall₂ (fun a a' => a' = a.substitute x v) arguments args := by
      have head := parts (.call operator arguments note) rfl
      generalize Expr.substitute (.call operator arguments note) x v = e' at head
      cases head with
      | call _ _ h => exact ⟨_, rfl, h.imp fun _ _ h => h.2⟩
    have values (i : Nat) (a : Expr) (ha : arguments[i]? = some a) (hl : a.isLambda = false) :
        Costs c f τ' (bound (i + 1)) (a.substitute x v) := ihv i a ha hl hput
    -- A lambda among the new arguments was one before: no lambda is put for a parameter.
    have lambda_of {i : Nat} {params : List String} {body' : Expr}
        (ha : args[i]? = some (.lambda params body')) : ∃ body, arguments[i]? = some (.lambda params body) ∧
          Expr.lambda params body' = (Expr.lambda params body).substitute x v := by
      obtain ⟨a, hi, heq⟩ := getElem?_of_forall₂ hargs ha
      cases hl : a.isLambda with
      | false => exact absurd (values i a hi hl).isLambda (by rw [← heq]; simp [Expr.isLambda])
      | true =>
        cases a with
        | lambda params' body =>
          obtain rfl : params = params' := by
            rw [substitute_lambda] at heq
            split at heq <;> cases heq <;> rfl
          exact ⟨body, hi, heq⟩
        | _ => cases hl
    rw [heq]
    refine .call τ' around' bound hmono (fun i a' ha' hl' => ?_) (fun params body' ha' => ?_)
      (fun i params body' ha' => ?_) (hargs.length_eq ▸ deeper)
    · obtain ⟨a, hi, rfl⟩ := getElem?_of_forall₂ hargs ha'
      refine values i a hi ?_
      cases a with
      | lambda params body =>
        rw [substitute_lambda] at hl'
        split at hl' <;> cases hl'
      | _ => rfl
    · obtain ⟨i, hi⟩ := List.mem_iff_getElem?.1 ha'
      obtain ⟨body, hi, -⟩ := lambda_of hi
      exact apart params body (List.mem_of_getElem? hi)
    · obtain ⟨body, hi, heq⟩ := lambda_of ha'
      rw [substitute_lambda] at heq
      split at heq
      · next hx =>
        cases heq
        exact hput.hidden hx _ (bodies i params _ hi)
      · next hx =>
        cases heq
        exact ihb i params body hi (hput.binding hx _)

end Costs

/-- The arguments of a call cost what their places allow: an argument may use the rows of those before
it. -/
structure Arguments (c : Catalog) (f : Forest) (ρ : Costing) (bound : Nat → Nat) (arguments : List Expr) :
    Prop where
  mono : Monotone bound
  values : ∀ (i : Nat) (a : Expr), arguments[i]? = some a → a.isLambda = false →
    Costs c f ρ (bound (i + 1)) a
  apart : ∀ (params : List String) (body : Expr), .lambda params body ∈ arguments → params.Nodup
  bodies : ∀ (i : Nat) (params : List String) (body : Expr), arguments[i]? = some (.lambda params body) →
    Costs c f (ρ.binding params (bound i)) (bound (i + 1)) body

theorem Costs.arguments {operator : Operator} {arguments : List Expr} {note : Option CallNote}
    (h : Costs c f ρ k (.call operator arguments note)) : ∃ τ bound, ρ.Sees τ ∧
      Arguments c f τ bound arguments ∧ bound arguments.length + operator.depth ≤ k := by
  cases h with
  | call τ around bound mono values apart bodies deeper =>
    exact ⟨τ, bound, around, ⟨mono, values, apart, bodies⟩, deeper⟩
  | scalar node _ _ => cases node

namespace Arguments

variable {i : Nat} {bound : Nat → Nat} {arguments : List Expr} {body w : Expr} {y : String}

theorem call (h : Arguments c f ρ bound arguments) {operator : Operator}
    (deeper : bound arguments.length + operator.depth ≤ k) (note : Option CallNote) :
    Costs c f ρ k (.call operator arguments note) :=
  .call ρ (.refl ρ) bound h.mono h.values h.apart h.bodies deeper

/-- Arguments that cost the same, each of them. -/
theorem constant (values : ∀ a ∈ arguments, a.isLambda = false → Costs c f ρ m a)
    (bodies : ∀ params body, .lambda params body ∈ arguments →
      params.Nodup ∧ Costs c f (ρ.binding params m) m body) :
    Arguments c f ρ (fun _ => m) arguments where
  mono := monotone_const
  values _ a ha hl := values a (List.mem_of_getElem? ha) hl
  apart params body ha := (bodies params body ha).1
  bodies _ params body ha := (bodies params body (List.mem_of_getElem? ha)).2

theorem keeps (h : Arguments c f ρ bound arguments) (hfg : f.Keeps g) : Arguments c g ρ bound arguments where
  mono := h.mono
  values i a ha hl := (h.values i a ha hl).keeps hfg
  apart := h.apart
  bodies i params body ha := (h.bodies i params body ha).keeps hfg

theorem substitute (h : Arguments c f ρ bound arguments) (ha : arguments[i]? = some (.lambda [x] body))
    (hv : Costs c f ρ m v) (hm : m ≤ bound i) : Costs c f ρ (bound (i + 1)) (body.substitute x v) :=
  (h.bodies i [x] body ha).substitute (.enter (List.pairwise_singleton _ _) (hv.le hm))

theorem substitute_pair (h : Arguments c f ρ bound arguments)
    (ha : arguments[i]? = some (.lambda [x, y] body)) (hv : Costs c f ρ m v) (hw : Costs c f ρ m w)
    (hm : m ≤ bound i) : Costs c f ρ (bound (i + 1)) ((body.substitute x v).substitute y w) :=
  ((h.bodies i [x, y] body ha).substitute (.enter (h.apart _ _ (List.mem_of_getElem? ha)) (hv.le hm))).substitute
    (.enter (List.pairwise_singleton _ _) (hw.le hm))

end Arguments

/-- Over the second forest the second expression costs no more than the first one over the first forest.
A lambda costs nothing itself, but its body may. -/
structure Cheaper (c : Catalog) (f g : Forest) (e e' : Expr) : Prop where
  costs : ∀ {ρ k}, Costs c f ρ k e → Costs c g ρ k e'
  body : ∀ {params b}, e = .lambda params b →
    ∃ b', e' = .lambda params b' ∧ ∀ {ρ k}, Costs c f ρ k b → Costs c g ρ k b'

namespace Cheaper

variable {h : Forest}

theorem refl (hfg : f.Keeps g) (e : Expr) : Cheaper c f g e e where
  costs he := he.keeps hfg
  body heq := ⟨_, heq, fun hb => hb.keeps hfg⟩

theorem trans (hfg : Cheaper c f g e d) (hgh : Cheaper c g h d e') : Cheaper c f h e e' where
  costs he := hgh.costs (hfg.costs he)
  body heq := by
    obtain ⟨b, hb, first⟩ := hfg.body heq
    obtain ⟨b', hb', second⟩ := hgh.body hb
    exact ⟨b', hb', fun hcosts => second (first hcosts)⟩

/-- An expression that is no lambda. -/
theorem of_costs (hne : ∀ params b, e ≠ .lambda params b)
    (h : ∀ {ρ k}, Costs c f ρ k e → Costs c g ρ k e') : Cheaper c f g e e' :=
  ⟨h, fun heq => absurd heq (hne _ _)⟩

/-- Parts that cost no more make a whole that costs no more. -/
theorem of_head (hfg : f.Keeps g) (head : SameHead (Cheaper c f g) e e')
    (rows : ∀ {rows rows' selector selector' frame}, e = .stream rows selector frame →
      e' = .stream rows' selector' frame → rows.isQuery = true → rows'.isQuery = true) :
    Cheaper c f g e e' where
  body heq := by
    subst heq
    cases head with
    | lambda _ hb => exact ⟨_, rfl, hb.costs⟩
  costs he := by
    cases he with
    | param τ known le pos =>
      cases head
      exact .param τ known le pos
    | rowRef range pos many =>
      cases head
      exact .keeps (.rowRef range pos many) hfg
    | member target navigation =>
      cases head with
      | member _ ht => exact .member (ht.costs target) navigation
    | stream query selector_costs =>
      cases head with
      | stream _ _ hs => exact .stream (rows rfl rfl query) (hs.costs selector_costs)
    | scalar node pos parts =>
      refine .scalar (head.isScalarNode.trans node) pos fun d' hd' => ?_
      obtain ⟨d, hd, hcheaper⟩ := head.of_mem_children hd'
      exact hcheaper.costs (parts d hd)
    | @call _ _ operator arguments _ τ around bound mono values apart bodies deeper =>
      cases head with
      | @call _ args _ _ hargs =>
        have lambda_of {i : Nat} {params : List String} {b' : Expr}
            (ha : args[i]? = some (.lambda params b')) : ∃ b, arguments[i]? = some (.lambda params b) ∧
              ∀ {ρ k}, Costs c f ρ k b → Costs c g ρ k b' := by
          obtain ⟨a, hi, hcheaper⟩ := getElem?_of_forall₂ hargs ha
          cases hl : a.isLambda with
          | false => exact absurd (hcheaper.costs (values i a hi hl)).isLambda (by simp [Expr.isLambda])
          | true =>
            cases a with
            | lambda params' b =>
              obtain ⟨_, heq, hb⟩ := hcheaper.body rfl
              cases heq
              exact ⟨b, hi, hb⟩
            | _ => cases hl
        refine .call τ around bound mono (fun i a' ha' hl' => ?_) (fun params b' ha' => ?_)
          (fun i params b' ha' => ?_) (hargs.length_eq ▸ deeper)
        · obtain ⟨a, hi, hcheaper⟩ := getElem?_of_forall₂ hargs ha'
          refine hcheaper.costs (values i a hi ?_)
          cases a with
          | lambda params b =>
            obtain ⟨_, rfl, -⟩ := hcheaper.body rfl
            cases hl'
          | _ => rfl
        · obtain ⟨i, hi⟩ := List.mem_iff_getElem?.1 ha'
          obtain ⟨b, hi, -⟩ := lambda_of hi
          exact apart params b (List.mem_of_getElem? hi)
        · obtain ⟨b, hi, hb⟩ := lambda_of ha'
          exact hb (bodies i params b hi)

end Cheaper

/-- The second expression costs no more than the first one, and it is a query if the first one is. -/
structure Rewritten (c : Catalog) (f g : Forest) (e e' : Expr) : Prop
    extends Cheaper c f g e e' where
  query : e.isQuery = true → e'.isQuery = true

namespace Rewritten

variable {h : Forest}

theorem refl (hfg : f.Keeps g) (e : Expr) : Rewritten c f g e e := ⟨.refl hfg e, id⟩

theorem trans (hfg : Rewritten c f g e d) (hgh : Rewritten c g h d e') :
    Rewritten c f h e e' :=
  ⟨hfg.toCheaper.trans hgh.toCheaper, fun hquery => hgh.query (hfg.query hquery)⟩

/-- An expression that is neither a lambda nor a query. -/
theorem of_costs (hlambda : ∀ params b, e ≠ .lambda params b) (hquery : e.isQuery = false)
    (h : ∀ {ρ k}, Costs c f ρ k e → Costs c g ρ k e') : Rewritten c f g e e' :=
  ⟨.of_costs hlambda h, fun hq => by rw [hquery] at hq; cases hq⟩

theorem of_head (hfg : f.Keeps g) (head : SameHead (Rewritten c f g) e e') :
    Rewritten c f g e e' := by
  refine ⟨.of_head hfg (head.mono fun _ _ h => h.toCheaper) ?_, fun hquery => head.isQuery.trans hquery⟩
  rintro rows rows' selector selector' frame rfl rfl
  cases head with
  | stream _ hr _ => exact hr.query

end Rewritten

end Expr

end EntityQuery
