import EntityQuery.Proofs.Matching
import EntityQuery.Proofs.Scoping
import EntityQuery.Proofs.Tables

/-!
# Putting expressions for parameters

The value of an expression depends on its scope at the parameters that occur free
(`Expr.Concurs.of_freeParams`). So what means the same as a parameter can be put for it, as long as no lambda
captures it (`Expr.Concurs.substitute`): substitution agrees with evaluation (`Expr.eval_substitute`). A
parameter that gets a new name is the case in which another parameter is put for it
(`Expr.Concurs.rename`).
-/

namespace EntityQuery

namespace Expr

variable {tables : Tables} {scope scope' : Scope} {e e' : Expr}

/-- What an expression is as an argument of a call. -/
def meaning (tables : Tables) (scope : Scope) (e : Expr) : Argument :=
  ⟨fun _ => e.eval tables scope, e.apply tables scope⟩

/-- The expressions mean the same, each in its own scope. -/
def Concurs (tables : Tables) (scope scope' : Scope) (e e' : Expr) : Prop :=
  (e.meaning tables scope).Alike (e'.meaning tables scope')

namespace Concurs

/-- Only a lambda can be applied. -/
theorem of_value (h : Alike (e.eval tables scope) (e'.eval tables scope'))
    (he : ∀ params body, e ≠ .lambda params body) (he' : ∀ params body, e' ≠ .lambda params body) :
    Concurs tables scope scope' e e' := by
  have refused {e : Expr} (he : ∀ params body, e ≠ .lambda params body) (scope : Scope)
      (values : List Value) : e.apply tables scope values = .error (.notALambda e) := by
    cases e with
    | lambda params body => exact absurd rfl (he params body)
    | _ => rfl
  refine ⟨h, fun values => ?_⟩
  change Alike (e.apply tables scope values) (e'.apply tables scope' values)
  rw [refused he, refused he']
  exact .error rfl

theorem lambda {params params' : List String} {body body' : Expr} (hp : params'.length = params.length)
    (h : ∀ values, params.length = values.length → Alike
      (body.eval tables (scope.bind params values)) (body'.eval tables (scope'.bind params' values))) :
    Concurs tables scope scope' (.lambda params body) (.lambda params' body') := by
  refine ⟨.error rfl, fun values => ?_⟩
  change Alike (apply tables scope (.lambda params body) values)
    (apply tables scope' (.lambda params' body') values)
  simp only [apply, hp]
  split
  · next hl => exact h values hl
  · exact .error rfl

section Lists

variable {es es' : List Expr}

theorem arguments (h : List.Forall₂ (Concurs tables scope scope') es es') :
    List.Forall₂ Argument.Alike (evalArguments tables scope es) (evalArguments tables scope' es') := by
  rw [evalArguments_map, evalArguments_map, List.forall₂_map_left_iff, List.forall₂_map_right_iff]
  exact h

theorem items (h : List.Forall₂ (Concurs tables scope scope') es es') :
    Alike (evalItems tables scope es) (evalItems tables scope' es') := by
  induction h with
  | nil => rfl
  | cons h _ ih => exact .bind h.value fun _ _ => .bind ih fun _ _ => .refl _

theorem fields {fs fs' : List (String × Expr)}
    (h : List.Forall₂ (fun x y => x.1 = y.1 ∧ Concurs tables scope scope' x.2 y.2) fs fs') :
    Alike (evalFields tables scope fs) (evalFields tables scope' fs') := by
  induction h with
  | nil => rfl
  | @cons x y _ _ h _ ih =>
    obtain ⟨name, d⟩ := x
    obtain ⟨name', d'⟩ := y
    obtain ⟨rfl, h⟩ := h
    exact .bind h.value fun _ _ => .bind ih fun _ _ => .refl _

theorem guards (h : List.Forall₂ (Concurs tables scope scope') es es') :
    Alike (anyNullGuard tables scope es) (anyNullGuard tables scope' es') := by
  induction h with
  | nil => rfl
  | cons h _ ih =>
    refine .bind h.value fun x _ => ?_
    cases x.isNull with
    | true => exact .refl _
    | false => exact ih

end Lists

/-- Away from parameters and lambdas, expressions mean the same if their parts do. -/
theorem of_sameHead (h : SameHead (Concurs tables scope scope') e e')
    (hp : ∀ x, e ≠ .param x) (hl : ∀ params body, e ≠ .lambda params body) :
    Concurs tables scope scope' e e' := by
  cases h with
  | param name => exact absurd rfl (hp name)
  | lambda params h => exact absurd rfl (hl params _)
  | entitySet _ | const _ => exact of_value (.refl _) (by simp) (by simp)
  | rowRef _ | stream _ _ _ => exact of_value (.error rfl) (by simp) (by simp)
  | member name h => exact of_value (.bind h.value fun _ _ => .refl _) (by simp) (by simp)
  | binary op ha hb =>
    exact of_value (.bind ha.value fun _ _ => .bind hb.value fun _ _ => .refl _) (by simp) (by simp)
  | not h => exact of_value (.bind h.value fun _ _ => .refl _) (by simp) (by simp)
  | cond ha hb hc =>
    refine of_value (.bind ha.value fun x _ => ?_) (by simp) (by simp)
    cases x.isTrue with
    | true => exact hb.value
    | false => exact hc.value
  | record h => exact of_value (.bind (fields h) fun _ _ => .refl _) (by simp) (by simp)
  | tuple h => exact of_value (.bind (items h) fun _ _ => .refl _) (by simp) (by simp)
  | convert _ _ h | entityShape _ h => exact of_value h.value (by simp) (by simp)
  | @function args args' name h =>
    have refused (scope : Scope) {args : List Expr} (hn : name ≠ "Equals") :
        eval tables scope (.function name args) = .error (.notEvaluable (.function name args)) := by
      unfold eval
      split <;> rename_i heq <;> cases heq
      · exact absurd rfl hn
      · rfl
    refine of_value ?_ (by simp) (by simp)
    by_cases hn : name = "Equals"
    · subst hn
      rcases h with _ | ⟨h₁, _ | ⟨h₂, _ | _⟩⟩
      case cons.cons.nil =>
        exact .bind h₁.value fun _ _ => .bind h₂.value fun _ _ => .refl _
      all_goals exact .error rfl
    · rw [refused scope hn, refused scope' hn]
      exact .error rfl
  | call operator note h =>
    exact of_value (evalOperator_alike operator (arguments h)) (by simp) (by simp)
  | nullSafeEqual h ha hb =>
    refine of_value (.bind (guards h) fun x _ => ?_) (by simp) (by simp)
    cases x with
    | true => exact .refl _
    | false => exact .bind ha.value fun _ _ => .bind hb.value fun _ _ => .refl _

theorem trans {e'' : Expr} {scope'' : Scope} (h : Concurs tables scope scope' e e')
    (k : Concurs tables scope' scope'' e' e'') : Concurs tables scope scope'' e e'' :=
  ⟨h.value.trans k.value, fun values => (h.apply values).trans (k.apply values)⟩

/-- The meaning depends on the scope at the parameters that occur free. -/
theorem of_freeParams (h : ∀ x ∈ e.freeParams, scope.lookup x = scope'.lookup x) :
    Concurs tables scope scope' e e := by
  induction e using children_induction generalizing scope scope' with
  | step e ih =>
    cases e with
    | param name =>
      refine of_value (.of_eq ?_) (by simp) (by simp)
      rw [eval, eval, h name (by simp [freeParams])]
    | lambda params body =>
      refine lambda rfl fun values hl => (ih body (.head _) fun x hx => ?_).value
      exact Scope.lookup_bind_congr hl fun hb => h x (mem_freeParams_of_child hb (.head _) hx)
    | _ =>
      refine of_sameHead (SameHead.refl_of _ fun c hc => ih c hc fun x hx => ?_) (by simp) (by simp)
      exact h x (mem_freeParams_of_child List.not_mem_nil hc hx)

/-- What means the same as a parameter may be put for it, where no lambda captures it. -/
theorem substitute {x : String} {r : Expr} (hr : ∀ d ∈ e.nodes, ∀ y ∈ d.binders, y ∉ r.freeParams)
    (hx : x ∈ e.freeParams → Concurs tables scope scope' (.param x) r)
    (h : ∀ y ∈ e.freeParams, y ≠ x → scope.lookup y = scope'.lookup y) :
    Concurs tables scope scope' e (e.substitute x r) := by
  induction e using children_induction generalizing scope scope' with
  | step e ih =>
    cases e with
    | param name =>
      rw [substitute_param]
      split
      · next heq =>
        subst heq
        exact hx (by simp [freeParams])
      · next hne => exact of_freeParams fun y hy => h y hy (by simp_all [freeParams])
    | lambda params body =>
      rw [substitute_lambda]
      split
      · next hbound =>
        -- The lambda binds the parameter anew, so it does not occur free.
        refine of_freeParams fun y hy => h y hy ?_
        rintro rfl
        simp [freeParams, hbound] at hy
      · next hfree =>
        refine lambda rfl fun values hl => (ih body (.head _) ?_ (fun hxb => ?_) fun y hy hne => ?_).value
        · exact fun d hd => hr d (mem_nodes_of_child (.head _) hd)
        · -- The parameters that the lambda binds occur neither in `x` nor in `r`.
          have bound : ∀ y ∈ params, y ∉ r.freeParams := hr _ (self_mem_nodes _)
          refine .trans ?_ ((hx (mem_freeParams_of_child hfree (.head _) hxb)).trans ?_)
          · refine of_freeParams fun y hy => Scope.lookup_bind_of_not_mem ?_
            obtain rfl : y = x := by simpa [freeParams] using hy
            exact hfree
          · exact of_freeParams fun y hy =>
              (Scope.lookup_bind_of_not_mem fun hyb => bound y hyb hy).symm
        · exact Scope.lookup_bind_congr hl fun hb =>
            h y (mem_freeParams_of_child hb (.head _) hy) hne
    | _ =>
      rw [substitute_of_none rfl]
      refine of_sameHead ((SameHead.of_map _ _).mono ?_) (by simp) (by simp)
      rintro c c' ⟨hc, rfl⟩
      have free {y} (hy : y ∈ c.freeParams) := mem_freeParams_of_child List.not_mem_nil hc hy
      exact ih c hc (fun d hd => hr d (mem_nodes_of_child hc hd)) (fun hxc => hx (free hxc))
        fun y hy => h y (free hy)

/-- A parameter may get a new name. -/
theorem rename {old new : String} (hn : new ∉ e.names)
    (h : ∀ x, x ≠ new → scope.lookup x = scope'.lookup (if x = old then new else x)) :
    Concurs tables scope scope' e (e.substitute old (.param new)) := by
  refine substitute (fun d hd y hy hnew => ?_) (fun hold => ?_) fun y hy hne => ?_
  · obtain rfl : y = new := by simpa [freeParams] using hnew
    exact hn (List.mem_flatMap.2 ⟨d, hd, by cases d <;> simp_all [binders, ownNames]⟩)
  · have := h old fun heq => hn (heq ▸ mem_names_of_mem_freeParams hold)
    rw [if_pos rfl] at this
    refine of_value ?_ (by simp) (by simp)
    simp only [eval, this]
    cases scope'.lookup new with
    | none => exact .error rfl
    | some value => rfl
  · have := h y fun heq => hn (heq ▸ mem_names_of_mem_freeParams hy)
    rwa [if_neg hne] at this

/-- A lambda may rename a parameter to a name that it does not use. -/
theorem rename_lambda {l : Lambda} {old new : String} (hold : old ∈ l.params) (hn : new ∉ l.toExpr.names) :
    Concurs tables scope scope l.toExpr (l.rename old new).toExpr :=
  lambda (by simp [Lambda.rename]) fun _ hl => (rename (Lambda.not_mem_names hn) fun _ hx =>
    l.lookup_rename hold (Lambda.not_mem_params hn) hl hx).value

end Concurs

/-- Substitution agrees with evaluation: if no lambda captures what is put for a parameter, the result has
the value that the expression has where the parameter is bound to the value of its replacement. So a lambda
returns the same on all arguments when one of its parameters gets a name that does not occur in it. -/
theorem eval_substitute :
    (∀ {e r : Expr} {x : String} {tables : Tables} {s : Scope} {v : Value}, r.eval tables s = .ok v →
      (∀ params body, .lambda params body ∈ e.nodes → ∀ y ∈ params, y ∉ r.freeParams) →
      ∀ w, (e.substitute x r).eval tables s = .ok w ↔ e.eval tables (s.bind [x] [v]) = .ok w) ∧
    ∀ {l : Lambda} {old new : String} {tables : Tables} {s : Scope}, old ∈ l.params →
      new ∉ l.toExpr.names → ∀ values w, (l.rename old new).toExpr.apply tables s values = .ok w ↔
        l.toExpr.apply tables s values = .ok w := by
  constructor
  · intro e r x tables s v hr hfree w
    have found : (s.bind [x] [v]).lookup x = some v := by simp [Scope.bind]
    have bound {y : String} (hy : y ≠ x) : (s.bind [x] [v]).lookup y = s.lookup y :=
      Scope.lookup_bind_of_not_mem (by simpa using hy)
    have concurs : Concurs tables (s.bind [x] [v]) s e (e.substitute x r) := by
      refine .substitute (fun d hd y hy => ?_) (fun _ => ?_) fun y _ hy => bound hy
      · cases d with
        | lambda params body => exact hfree params body hd y hy
        | _ => cases hy
      · -- What has a value is no lambda, so neither side can be applied.
        refine .of_value (.of_eq ?_) (by simp) fun params body heq => by simp [heq, eval] at hr
        rw [eval, found, hr]
        rfl
    exact (concurs.value.ok_iff w).symm
  · intro l old new tables s hold hn values w
    exact (((Concurs.rename_lambda hold hn).apply values).ok_iff w).symm

end Expr

/-- Whether an order's total is above `x` and a customer has placed it. -/
def Shop.aboveLimit : Lambda where
  params := ["o"]
  body :=
    let customers : Expr := .call .filter [.entitySet "Customer",
      .lambda ["x"] (.eq (.member (.param "x") "Id") (.member (.param "o") "CustomerId"))] none
    .binary .and (.binary .greater (.member (.param "o") "Total") (.param "x")) (.call .any [customers] none)

/-- The limit is put for the outer `x` only. -/
theorem Expr.eval_substitute_aboveLimit :
    let rows : Expr := .call .filter [.entitySet "Order", Shop.aboveLimit.toExpr] none
    let limit : Expr := .member (.param "s") "Limit"
    let scope : Scope := [("s", .record [("Limit", .int 4)])]
    limit.eval Shop.tables scope = .ok (.int 4) ∧
      (rows.substitute "x" limit).eval Shop.tables scope =
        .ok (.list [Shop.order 10 1 5, Shop.order 11 2 7]) ∧
      "o" ∈ Shop.aboveLimit.params ∧ "t" ∉ Shop.aboveLimit.toExpr.names ∧
      (Shop.aboveLimit.rename "o" "t").toExpr.apply Shop.tables [("x", .int 4)] [Shop.order 12 2 3] =
        .ok (.bool false) := by
  intro rows limit scope
  have free : ∀ d ∈ rows.nodes, ∀ y ∈ d.binders, y ∉ limit.freeParams := by decide
  refine ⟨rfl, ?_, by decide, by decide, ?_⟩
  · exact (eval_substitute.1 rfl (fun _ _ hd => free _ hd) _).2 rfl
  · exact (eval_substitute.2 (by decide) (by decide) _ _).2 rfl

end EntityQuery
