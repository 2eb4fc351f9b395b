import EntityQuery.Proofs.Scoping

/-!
# Evaluation with all parameters in view

An expression that reads only parameters of its scope is evaluated without ever looking up one that is
not there (`Expr.Scoped.eval_bound`). Operators apply their lambdas to rows and look up nothing
themselves.
-/

namespace EntityQuery

open EntityQuery.Expr

variable {α β : Type} {tables : Tables}

/-- An evaluation that does not fail for want of a parameter. -/
def Bound (o : Outcome α) : Prop := ∀ name, o ≠ .error (.unboundParameter name)

namespace Bound

theorem ok (a : α) : Bound (.ok a : Outcome α) := nofun

theorem error {e : EvalError} (h : ∀ name, e ≠ .unboundParameter name) :
    Bound (.error e : Outcome α) := by
  rintro name ⟨⟩
  exact h name rfl

theorem bind {o : Outcome α} {f : α → Outcome β} (ho : Bound o) (hf : ∀ a, Bound (f a)) :
    Bound (o >>= f) := by
  cases o with
  | ok a => exact hf a
  | error e => exact error fun name he => ho name (he ▸ rfl)

theorem mapM {f : α → Outcome β} {l : List α} (h : ∀ a, Bound (f a)) : Bound (l.mapM f) := by
  induction l with
  | nil => exact ok []
  | cons a l ih =>
    rw [List.mapM_cons]
    exact (h a).bind fun _ => ih.bind fun _ => ok _

end Bound

/-- An argument neither of whose uses fails for want of a parameter. -/
structure Argument.Bound (a : Argument) : Prop where
  value : EntityQuery.Bound (a.value ())
  apply : ∀ values, EntityQuery.Bound (a.apply values)

theorem Argument.Bound.rows {a : Argument} (h : a.Bound) : EntityQuery.Bound a.rows :=
  h.value.bind fun v => by cases v <;> exact nofun

theorem Argument.Bound.rowCount {a : Argument} (h : a.Bound) : EntityQuery.Bound a.rowCount :=
  h.value.bind fun v => by split <;> exact nofun

theorem keepRows_bound {a : Argument} (h : a.Bound) (rows : List Value) : Bound (keepRows a rows) := by
  induction rows with
  | nil => exact .ok []
  | cons row rows ih => exact (h.apply _).bind fun _ => ih.bind fun _ => .ok _

theorem mapRows_bound {a : Argument} (h : a.Bound) (rows : List Value) : Bound (mapRows a rows) := by
  rw [mapRows_eq_mapM]
  exact .mapM fun _ => h.apply _

theorem keyRows_bound {a : Argument} (h : a.Bound) (rows : List Value) : Bound (keyRows a rows) :=
  (mapRows_bound h rows).bind fun _ => .ok _

theorem joinRows_bound {a b : Argument} (ha : a.Bound) (hb : b.Bound) (inner : List (Value × Value))
    (rows : List Value) : Bound (joinRows a b inner rows) := by
  induction rows with
  | nil => exact .ok []
  | cons row rows ih =>
    exact (ha.apply _).bind fun _ => (Bound.mapM fun _ => hb.apply _).bind fun _ =>
      ih.bind fun _ => .ok _

theorem groupRows_bound {a b : Argument} (ha : a.Bound) (hb : b.Bound) (inner : List (Value × Value))
    (rows : List Value) : Bound (groupRows a b inner rows) := by
  induction rows with
  | nil => exact .ok []
  | cons row rows ih =>
    exact (ha.apply _).bind fun _ => (hb.apply _).bind fun _ => ih.bind fun _ => .ok _

theorem flattenRows_bound {a : Argument} {result : Option Argument} (ha : a.Bound)
    (hresult : ∀ b, result = some b → b.Bound) (rows : List Value) :
    Bound (flattenRows a result rows) := by
  induction rows with
  | nil => exact .ok []
  | cons row rows ih =>
    refine (ha.apply _).bind fun v => ?_
    cases v with
    | list elements =>
      cases result with
      | none => exact ih.bind fun _ => .ok _
      | some b =>
        exact (Bound.mapM fun _ => (hresult b rfl).apply _).bind fun _ => ih.bind fun _ => .ok _
    | _ => exact nofun

theorem firstRow_bound (rows : List Value) : Bound (firstRow rows) := by
  cases rows
  · exact .error (by simp)
  · exact .ok _

/-- Operators look up no parameters of their own. -/
theorem evalOperator_bound (op : Operator) {arguments : List Argument}
    (h : ∀ a ∈ arguments, a.Bound) : Bound (evalOperator op arguments) := by
  rcases arguments with _ | ⟨a, _ | ⟨b, rest⟩⟩
  · cases op <;> exact .error (by simp)
  · have ha := h a (.head _)
    have first : Bound (a.rows >>= firstRow) := ha.rows.bind firstRow_bound
    cases op
    case defaultIfEmpty => exact ha.rows.bind fun rows => by cases rows <;> exact .ok _
    all_goals first
      | exact .error (by simp)
      | exact ha.value
      | exact first
      | exact ha.rows.bind fun _ => .ok _
  · have ha := h a (.head _)
    have hb := h b (.tail _ (.head _))
    have first : Bound (a.rows >>= firstRow) := ha.rows.bind firstRow_bound
    cases op
    case filter => exact ha.rows.bind fun _ => (keepRows_bound hb _).bind fun _ => .ok _
    case select => exact ha.rows.bind fun _ => (mapRows_bound hb _).bind fun _ => .ok _
    case orderBy => exact ha.rows.bind fun _ => (keyRows_bound hb _).bind fun _ => .ok _
    case orderByDescending => exact ha.rows.bind fun _ => (keyRows_bound hb _).bind fun _ => .ok _
    case selectMany =>
      refine ha.rows.bind fun _ => (flattenRows_bound hb (fun c hc => ?_) _).bind fun _ => .ok _
      exact h c (.tail _ (.tail _ (List.mem_of_mem_head? hc)))
    case defaultIfEmpty => exact ha.rows.bind fun rows => by cases rows <;> exact .ok _
    case take => exact ha.rows.bind fun _ => hb.rowCount.bind fun _ => .ok _
    case skip => exact ha.rows.bind fun _ => hb.rowCount.bind fun _ => .ok _
    case contains => exact ha.rows.bind fun _ => hb.value.bind fun _ => .ok _
    case join =>
      rcases rest with _ | ⟨c, _ | ⟨d, _ | ⟨e, rest⟩⟩⟩
      case cons.cons.cons =>
        have hc := h c (by simp)
        have hd := h d (by simp)
        have he := h e (by simp)
        exact ha.rows.bind fun _ => hb.rows.bind fun _ => (keyRows_bound hd _).bind fun _ =>
          (joinRows_bound hc he _ _).bind fun _ => .ok _
      all_goals exact .error (by simp)
    case groupJoin =>
      rcases rest with _ | ⟨c, _ | ⟨d, _ | ⟨e, rest⟩⟩⟩
      case cons.cons.cons =>
        have hc := h c (by simp)
        have hd := h d (by simp)
        have he := h e (by simp)
        exact ha.rows.bind fun _ => hb.rows.bind fun _ => (keyRows_bound hd _).bind fun _ =>
          (groupRows_bound hc he _ _).bind fun _ => .ok _
      all_goals exact .error (by simp)
    all_goals first
      | exact .error (by simp)
      | exact ha.value
      | exact first
      | exact ha.rows.bind fun _ => .ok _

/-- The parameters in view of a scope. -/
def Scope.names (s : Scope) : List String := s.map (·.1)

theorem Scope.names_bind {s : Scope} {params : List String} {values : List Value}
    (h : params.length = values.length) : params ++ s.names ⊆ (s.bind params values).names := by
  intro x hx
  simp only [names, bind, List.map_append, List.map_reverse, List.map_fst_zip (Nat.le_of_eq h)]
  simpa [names] using hx

theorem Scope.lookup_of_mem_names {s : Scope} {x : String} (h : x ∈ s.names) :
    ∃ v, s.lookup x = some v := by
  refine Option.isSome_iff_exists.1 (List.lookup_isSome_iff.2 ?_)
  obtain ⟨entry, hmem, rfl⟩ := List.mem_map.1 h
  exact ⟨entry, hmem, beq_self_eq_true _⟩

section Parts

variable {scope : Scope} {es : List Expr}

theorem evalItems_bound (h : ∀ e ∈ es, Bound (e.eval tables scope)) :
    Bound (evalItems tables scope es) := by
  induction es with
  | nil => exact .ok []
  | cons e es ih =>
    exact (h e (.head _)).bind fun _ => (ih fun e he => h e (.tail _ he)).bind fun _ => .ok _

theorem evalFields_bound {fields : List (String × Expr)}
    (h : ∀ e ∈ fields.map (·.2), Bound (e.eval tables scope)) :
    Bound (evalFields tables scope fields) := by
  induction fields with
  | nil => exact .ok []
  | cons field fields ih =>
    exact (h _ (.head _)).bind fun _ => (ih fun e he => h e (.tail _ he)).bind fun _ => .ok _

theorem anyNullGuard_bound (h : ∀ e ∈ es, Bound (e.eval tables scope)) :
    Bound (anyNullGuard tables scope es) := by
  induction es with
  | nil => exact .ok false
  | cons e es ih =>
    refine (h e (.head _)).bind fun _ => ?_
    split
    · exact .ok true
    · exact ih fun e he => h e (.tail _ he)

theorem evalArguments_bound (h : ∀ e ∈ es, Bound (e.eval tables scope))
    (k : ∀ e ∈ es, ∀ values, Bound (e.apply tables scope values)) :
    ∀ a ∈ evalArguments tables scope es, a.Bound := by
  induction es with
  | nil => exact nofun
  | cons e es ih =>
    refine List.forall_mem_cons.2 ⟨⟨h e (.head _), k e (.head _)⟩, ?_⟩
    exact ih (fun e he => h e (.tail _ he)) fun e he => k e (.tail _ he)

theorem evalMember_bound (name : String) (v : Value) : Bound (evalMember name v) := by
  unfold evalMember
  split
  · exact .ok _
  · split
    · exact .ok _
    · exact .error (by simp)
  · exact .error (by simp)

end Parts

/-- An expression is evaluated, and a lambda applied, without looking up a parameter that is not in
view. -/
theorem Expr.Scoped.bound {e : Expr} {scope : Scope} (he : e.Scoped scope.names) :
    Bound (e.eval tables scope) ∧ ∀ values, Bound (e.apply tables scope values) := by
  induction e using children_induction generalizing scope with
  | step e ih =>
    -- Only a lambda has other parameters in view of its part than it has itself.
    have parts (hb : e.binders = []) {c : Expr} (hc : c ∈ e.children) :
        Bound (c.eval tables scope) ∧ ∀ values, Bound (c.apply tables scope values) := by
      have hp : ∀ x, e ≠ .param x := by
        rintro x rfl
        cases hc
      exact ih c hc (by simpa [hb] using (scoped_iff hp).1 he c hc)
    refine ⟨?_, fun values => ?_⟩
    · have part (hb : e.binders = []) {c : Expr} (hc : c ∈ e.children) : Bound (c.eval tables scope) :=
        (parts hb hc).1
      cases e with
      | param name =>
        obtain ⟨v, hv⟩ := Scope.lookup_of_mem_names (scoped_param.1 he)
        rw [eval, hv]
        exact .ok v
      | entitySet entity =>
        rw [eval]
        split
        · exact .ok _
        · exact .error (by simp)
      | const value => exact .ok _
      | member target name => exact (part rfl (.head _)).bind (evalMember_bound name)
      | binary op a b =>
        exact (part rfl (.head _)).bind fun _ => (part rfl (.tail _ (.head _))).bind fun _ => .ok _
      | not a => exact (part rfl (.head _)).bind fun _ => .ok _
      | cond test a b =>
        refine (part rfl (.head _)).bind fun v => ?_
        split
        · exact part rfl (.tail _ (.head _))
        · exact part rfl (.tail _ (.tail _ (.head _)))
      | record fields => exact (evalFields_bound fun c hc => part rfl hc).bind fun _ => .ok _
      | tuple items => exact (evalItems_bound fun c hc => part rfl hc).bind fun _ => .ok _
      | convert a t nullable =>
        rw [eval]
        exact part rfl (.head _)
      | function name arguments =>
        unfold eval
        split <;> rename_i heq <;> cases heq
        · exact (part rfl (.head _)).bind fun _ => (part rfl (.tail _ (.head _))).bind fun _ => .ok _
        · exact .error (by simp)
      | call op arguments note =>
        exact evalOperator_bound op (evalArguments_bound (fun c hc => part rfl hc)
          fun c hc => (parts rfl hc).2)
      | lambda params body => exact .error (by simp)
      | rowRef r => exact .error (by simp)
      | stream rows selector frame => exact .error (by simp)
      | nullSafeEqual guards a b =>
        refine (anyNullGuard_bound fun c hc => part rfl (by simp [children, hc])).bind fun found => ?_
        split
        · exact .ok _
        · exact (part rfl (by simp [children])).bind fun _ =>
            (part rfl (by simp [children])).bind fun _ => .ok _
      | entityShape entity rows =>
        rw [eval]
        exact part rfl (.head _)
    · unfold apply
      split
      · next params body =>
        split
        · next hlength =>
          exact (ih body (.head _) ((scoped_lambda.1 he).mono (Scope.names_bind hlength))).1
        · exact .error (by simp)
      · exact .error (by simp)

end EntityQuery
