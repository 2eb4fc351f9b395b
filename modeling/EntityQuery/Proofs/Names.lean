import EntityQuery.Proofs.View

/-!
# Names in expressions

`names` lists all parameters of an expression, bound or free. The value of an expression depends on
its scope and view only at its free parameters and references (`Agree.of_congr`), and putting a new
name for one of its parameters changes nothing (`Agree.rename`).
-/

namespace EntityQuery

namespace Expr

variable {e c d : Expr}

theorem mem_nodes_iff : d ∈ e.nodes ↔ d = e ∨ ∃ c ∈ e.children, d ∈ c.nodes := by
  rw [nodes_eq, List.mem_cons, List.mem_flatMap]

theorem self_mem_nodes (e : Expr) : e ∈ e.nodes := mem_nodes_iff.2 (.inl rfl)

theorem mem_nodes_of_child (hc : c ∈ e.children) (hd : d ∈ c.nodes) : d ∈ e.nodes :=
  mem_nodes_iff.2 (.inr ⟨c, hc, hd⟩)

theorem forall_nodes_iff {P : Expr → Prop} :
    (∀ d ∈ e.nodes, P d) ↔ P e ∧ ∀ c ∈ e.children, ∀ d ∈ c.nodes, P d := by
  refine ⟨fun h => ⟨h e (self_mem_nodes e), fun c hc d hd => h d (mem_nodes_of_child hc hd)⟩, fun h d hd => ?_⟩
  rcases mem_nodes_iff.1 hd with rfl | ⟨c, hc, hd⟩
  · exact h.1
  · exact h.2 c hc d hd

theorem exists_nodes_iff {P : Expr → Prop} :
    (∃ d ∈ e.nodes, P d) ↔ P e ∨ ∃ c ∈ e.children, ∃ d ∈ c.nodes, P d := by
  constructor
  · rintro ⟨d, hd, h⟩
    rcases mem_nodes_iff.1 hd with rfl | ⟨c, hc, hd⟩
    · exact .inl h
    · exact .inr ⟨c, hc, d, hd, h⟩
  · rintro (h | ⟨c, hc, d, hd, h⟩)
    · exact ⟨e, self_mem_nodes e, h⟩
    · exact ⟨d, mem_nodes_of_child hc hd, h⟩

/-- The parameters that a node itself names. -/
def ownNames : Expr → List String
  | .param name => [name]
  | .lambda params _ => params
  | .stream _ _ frame => [frame.parameter]
  | _ => []

/-- The parameters of an expression, bound or free. -/
def names (e : Expr) : List String := e.nodes.flatMap ownNames

theorem mem_names_iff {x : String} :
    x ∈ e.names ↔ x ∈ e.ownNames ∨ ∃ c ∈ e.children, x ∈ c.names := by
  simp only [names, List.mem_flatMap]
  exact exists_nodes_iff

theorem mem_names_of_child {x : String} (hc : c ∈ e.children) (hx : x ∈ c.names) : x ∈ e.names :=
  mem_names_iff.2 (.inr ⟨c, hc, hx⟩)

theorem mem_rowRefs {r : RowRef} : r ∈ e.rowRefs ↔ .rowRef r ∈ e.nodes := by
  simp only [rowRefs, List.mem_filterMap]
  constructor
  · rintro ⟨d, hd, h⟩
    split at h
    · cases h
      exact hd
    · cases h
  · intro h
    exact ⟨_, h, rfl⟩

theorem mem_rowRefs_of_child {r : RowRef} (hc : c ∈ e.children) (hr : r ∈ c.rowRefs) :
    r ∈ e.rowRefs :=
  mem_rowRefs.2 (mem_nodes_of_child hc (mem_rowRefs.1 hr))

theorem mem_rowRefs_iff {r : RowRef} :
    r ∈ e.rowRefs ↔ e = .rowRef r ∨ ∃ c ∈ e.children, r ∈ c.rowRefs := by
  simp only [mem_rowRefs]
  rw [mem_nodes_iff, eq_comm]

theorem rowRefs_eq (h : ∀ r, e ≠ .rowRef r) : e.rowRefs = e.children.flatMap rowRefs := by
  rw [rowRefs, nodes_eq, List.filterMap_cons_none, List.filterMap_flatMap]
  · rfl
  · split
    · next r => exact absurd rfl (h r)
    · rfl

theorem hasStream_iff :
    e.hasStream = true ↔
      (∃ rows selector frame, e = .stream rows selector frame) ∨
        ∃ c ∈ e.children, c.hasStream = true := by
  simp only [hasStream, List.any_eq_true]
  refine exists_nodes_iff.trans (or_congr_left ⟨fun h => ?_, ?_⟩)
  · split at h
    · exact ⟨_, _, _, rfl⟩
    · cases h
  · rintro ⟨rows, selector, frame, rfl⟩
    rfl

theorem hasStream_of_child (hc : c ∈ e.children) (h : c.hasStream = true) : e.hasStream = true :=
  hasStream_iff.2 (.inr ⟨c, hc, h⟩)

theorem hasStream_eq_false_iff :
    e.hasStream = false ↔
      (∀ rows selector frame, e ≠ .stream rows selector frame) ∧
        ∀ c ∈ e.children, c.hasStream = false := by
  rw [← Bool.not_eq_true, hasStream_iff]
  simp only [not_or, not_exists, not_and, ne_eq, Bool.not_eq_true]

theorem hasStream_lambda {params : List String} (h : e.hasStream = false) :
    (lambda params e).hasStream = false :=
  hasStream_eq_false_iff.2 ⟨by simp, by simpa [children] using h⟩

theorem hasStream_call {op : Operator} {arguments : List Expr} {note : Option CallNote}
    (h : ∀ a ∈ arguments, a.hasStream = false) : (call op arguments note).hasStream = false :=
  hasStream_eq_false_iff.2 ⟨by simp, h⟩

theorem hasStream_member {name : String} (h : e.hasStream = false) : (member e name).hasStream = false :=
  hasStream_eq_false_iff.2 ⟨by simp, by simpa [children] using h⟩

theorem hasStream_entityShape {entity : String} (h : e.hasStream = false) :
    (entityShape entity e).hasStream = false :=
  hasStream_eq_false_iff.2 ⟨by simp, by simpa [children] using h⟩

theorem hasStream_nullSafeEqual {guards : List Expr} {a b : Expr} (hguards : ∀ g ∈ guards, g.hasStream = false)
    (ha : a.hasStream = false) (hb : b.hasStream = false) : (nullSafeEqual guards a b).hasStream = false := by
  refine hasStream_eq_false_iff.2 ⟨by simp, fun c hc => ?_⟩
  simp only [children, List.mem_append, List.mem_cons, List.not_mem_nil, or_false] at hc
  rcases hc with hc | rfl | rfl
  · exact hguards c hc
  · exact ha
  · exact hb

/-- Induction over an expression by its direct parts. -/
theorem children_induction {motive : Expr → Prop}
    (step : ∀ e, (∀ c ∈ e.children, motive c) → motive e) (e : Expr) : motive e :=
  step e fun c _ => children_induction step c
termination_by e.size
decreasing_by exact size_lt_of_mem_children ‹_›

/-- The parameters that a node binds in its parts. -/
def binders : Expr → List String
  | .lambda params _ => params
  | _ => []

theorem itemsFreeParams_eq (es : List Expr) : itemsFreeParams es = es.flatMap freeParams := by
  induction es with
  | nil => rfl
  | cons e es ih => rw [itemsFreeParams, ih, List.flatMap_cons]

theorem fieldsFreeParams_eq (fields : List (String × Expr)) :
    fieldsFreeParams fields = (fields.map (·.2)).flatMap freeParams := by
  induction fields with
  | nil => rfl
  | cons e es ih => rw [fieldsFreeParams, ih, List.map_cons, List.flatMap_cons]

/-- What occurs free in a node occurs free in a part and is not bound for it. -/
theorem freeParams_eq (h : ∀ x, e ≠ .param x) :
    e.freeParams = (e.children.flatMap freeParams).filter (!e.binders.contains ·) := by
  cases e with
  | param x => exact absurd rfl (h x)
  | _ => simp [freeParams, children, binders, itemsFreeParams_eq, fieldsFreeParams_eq]

/-- What a node does not bind occurs free in it if it does so in a part. -/
theorem mem_freeParams_of_child (hb : x ∉ e.binders) (hc : c ∈ e.children) (hx : x ∈ c.freeParams) :
    x ∈ e.freeParams := by
  rw [freeParams_eq fun y hy => by simp [hy, children] at hc]
  exact List.mem_filter.2 ⟨List.mem_flatMap.2 ⟨c, hc, hx⟩, by simpa using hb⟩

theorem mem_names_of_mem_freeParams (hx : x ∈ e.freeParams) : x ∈ e.names := by
  induction e using children_induction with
  | step e ih =>
    by_cases h : ∃ y, e = .param y
    · obtain ⟨y, rfl⟩ := h
      simpa [freeParams, names, nodes, ownNames] using hx
    · rw [freeParams_eq fun y hy => h ⟨y, hy⟩] at hx
      obtain ⟨c, hc, hx⟩ := List.mem_flatMap.1 (List.mem_filter.1 hx).1
      exact mem_names_of_child hc (ih c hc hx)

/-- A parameter that does not occur free is not replaced. -/
theorem substitute_of_not_mem {x : String} {replacement : Expr} (h : x ∉ e.freeParams) :
    e.substitute x replacement = e := by
  induction e using children_induction with
  | step e ih =>
    have part {c} (hb : x ∉ e.binders) (hc : c ∈ e.children) : c.substitute x replacement = c :=
      ih c hc fun hx => h (mem_freeParams_of_child hb hc hx)
    cases e with
    | param name =>
      rw [substitute_param, if_neg]
      rintro rfl
      exact h (by simp [freeParams])
    | lambda params body =>
      rw [substitute_lambda]
      split
      · rfl
      · next hx => rw [part hx (.head _)]
    | _ =>
      rw [substitute_of_none rfl]
      refine (SameHead.eq ((SameHead.of_map _ _).mono ?_)).symm
      rintro c c' ⟨hc, rfl⟩
      exact (part List.not_mem_nil hc).symm

/-- A node of an expression after a substitution comes from the replacement, or it is a node that
was there with the same substitution made in its parts or not. -/
theorem mem_nodes_substitute {x : String} {replacement : Expr}
    (h : d ∈ (e.substitute x replacement).nodes) :
    d ∈ replacement.nodes ∨ ∃ b ∈ e.nodes,
      SameHead (fun c c' => c' = c ∨ c' = c.substitute x replacement) b d := by
  induction e using children_induction with
  | step e ih =>
    have inside {c} (hc : c ∈ e.children) (hd : d ∈ (c.substitute x replacement).nodes) :
        d ∈ replacement.nodes ∨ ∃ b ∈ e.nodes,
          SameHead (fun c c' => c' = c ∨ c' = c.substitute x replacement) b d := by
      rcases ih c hc hd with hd | ⟨b, hb, hd⟩
      · exact .inl hd
      · exact .inr ⟨b, mem_nodes_of_child hc hb, hd⟩
    have unchanged (hd : d ∈ e.nodes) : d ∈ replacement.nodes ∨ ∃ b ∈ e.nodes,
        SameHead (fun c c' => c' = c ∨ c' = c.substitute x replacement) b d :=
      .inr ⟨d, hd, SameHead.refl_of d fun _ _ => .inl rfl⟩
    cases e with
    | param name =>
      rw [substitute_param] at h
      split at h
      · exact .inl h
      · exact unchanged h
    | lambda params body =>
      rw [substitute_lambda] at h
      split at h
      · exact unchanged h
      · rcases mem_nodes_iff.1 h with rfl | ⟨c, hc, hd⟩
        · exact .inr ⟨_, self_mem_nodes _, .lambda params (.inr rfl)⟩
        · obtain rfl := List.mem_singleton.1 hc
          exact inside (.head _) hd
    | _ =>
      rw [substitute_of_none rfl] at h
      rcases mem_nodes_iff.1 h with rfl | ⟨c', hc', hd⟩
      · exact .inr ⟨_, self_mem_nodes _, (SameHead.of_map _ _).mono fun _ _ h => .inr h.2⟩
      · obtain ⟨c, hc, -, rfl⟩ := (SameHead.of_map _ _).of_mem_children hc'
        exact inside hc hd

theorem ownNames_of_sameHead {R : Expr → Expr → Prop} (h : SameHead R e d) :
    d.ownNames = e.ownNames := by
  cases h <;> rfl

theorem mem_names_substitute {x y : String} {replacement : Expr}
    (h : y ∈ (e.substitute x replacement).names) : y ∈ replacement.names ∨ y ∈ e.names := by
  obtain ⟨d, hd, hy⟩ := List.mem_flatMap.1 h
  rcases mem_nodes_substitute hd with hd | ⟨b, hb, hd⟩
  · exact .inl (List.mem_flatMap.2 ⟨d, hd, hy⟩)
  · exact .inr (List.mem_flatMap.2 ⟨b, hb, ownNames_of_sameHead hd ▸ hy⟩)

theorem mem_rowRefs_substitute {x : String} {replacement : Expr} {r : RowRef}
    (h : r ∈ (e.substitute x replacement).rowRefs) : r ∈ replacement.rowRefs ∨ r ∈ e.rowRefs := by
  simp only [mem_rowRefs] at *
  rcases mem_nodes_substitute h with hd | ⟨b, hb, hd⟩
  · exact .inl hd
  · cases hd
    exact .inr hb

/-- What holds of the row that is put for a parameter and of all rows that are referred to, holds afterwards. -/
theorem forall_rowRefs_substitute {x : String} {r : RowRef} {P : RowRef → Prop} (hr : P r)
    (h : ∀ ref ∈ e.rowRefs, P ref) : ∀ ref ∈ (e.substitute x (.rowRef r)).rowRefs, P ref := by
  intro ref href
  rcases mem_rowRefs_substitute href with href | href
  · obtain rfl := List.mem_singleton.1 href
    exact hr
  · exact h ref href

end Expr

namespace Scope

variable {s s' : Scope} {params : List String} {values : List Value} {x : String}

theorem lookup_bind_of_not_mem (h : x ∉ params) :
    (s.bind params values).lookup x = s.lookup x := by
  rw [bind, List.lookup_append, Option.or_eq_right_of_none]
  rw [List.lookup_eq_none_iff]
  rintro ⟨name, value⟩ hp
  have := (List.of_mem_zip (List.mem_reverse.1 hp)).1
  simp only [bne_iff_ne]
  rintro rfl
  exact h this

theorem lookup_bind_of_mem (h : x ∈ params) (hl : params.length = values.length) :
    (s.bind params values).lookup x = (s'.bind params values).lookup x := by
  have found : ((params.zip values).reverse.lookup x).isSome = true := by
    obtain ⟨i, hi, rfl⟩ := List.mem_iff_getElem.1 h
    rw [List.lookup_isSome_iff]
    refine ⟨(params[i], values[i]), ?_, beq_self_eq_true _⟩
    rw [List.mem_reverse, List.mem_iff_getElem]
    exact ⟨i, by simpa [← hl] using hi, by simp⟩
  obtain ⟨value, found⟩ := Option.isSome_iff_exists.1 found
  simp only [bind, List.lookup_append, found, Option.some_or]

/-- Scopes that agree on a name still do when the same values are bound. -/
theorem lookup_bind_congr (hl : params.length = values.length)
    (h : x ∉ params → s.lookup x = s'.lookup x) :
    (s.bind params values).lookup x = (s'.bind params values).lookup x := by
  by_cases hx : x ∈ params
  · exact lookup_bind_of_mem hx hl
  · rw [lookup_bind_of_not_mem hx, lookup_bind_of_not_mem hx, h hx]

theorem lookup_map_keys (rename : String → String) {l : List (String × Value)}
    (inj : ∀ entry ∈ l, rename entry.1 = rename x → entry.1 = x) :
    (l.map fun entry => (rename entry.1, entry.2)).lookup (rename x) = l.lookup x := by
  induction l with
  | nil => rfl
  | cons entry l ih =>
    obtain ⟨name, value⟩ := entry
    have ih := ih fun entry he => inj entry (.tail _ he)
    by_cases hx : x = name
    · subst hx
      rw [List.map_cons, List.lookup_cons_self, List.lookup_cons_self]
    · have hr : rename x ≠ rename name := fun h => hx (inj _ (.head _) h.symm).symm
      rw [List.map_cons, List.lookup_cons, List.lookup_cons, ih, beq_false_of_ne hx,
        beq_false_of_ne hr]

/-- Binding renamed parameters: a name is found under its new name. -/
theorem lookup_bind_map (rename : String → String) (hl : params.length = values.length)
    (inj : ∀ y ∈ params, rename y = rename x → y = x)
    (h : x ∉ params → s.lookup x = s'.lookup (rename x)) :
    (s.bind params values).lookup x = (s'.bind (params.map rename) values).lookup (rename x) := by
  have keys : ((params.map rename).zip values).reverse =
      (params.zip values).reverse.map fun entry => (rename entry.1, entry.2) := by
    rw [List.zip_map_left, List.map_reverse]
    rfl
  by_cases hx : x ∈ params
  · have alone : (s.bind params values).lookup x = (Scope.bind [] params values).lookup x :=
      lookup_bind_of_mem hx hl
    have renamed : (s'.bind (params.map rename) values).lookup (rename x) =
        (Scope.bind [] (params.map rename) values).lookup (rename x) :=
      lookup_bind_of_mem (List.mem_map_of_mem hx) (by simpa using hl)
    rw [alone, renamed]
    simp only [bind, List.append_nil, keys]
    rw [lookup_map_keys]
    rintro ⟨name, value⟩ he
    exact inj name (List.of_mem_zip (List.mem_reverse.1 he)).1
  · rw [lookup_bind_of_not_mem hx, lookup_bind_of_not_mem, h hx]
    intro hm
    obtain ⟨y, hy, hr⟩ := List.mem_map.1 hm
    exact hx (inj y hy hr ▸ hy)

end Scope

namespace Agree

open EntityQuery.Expr

variable {tables : Tables} {v v' : RowView} {scope scope' : Scope} {e : Expr}

/-- Values depend on the scope at free parameters and on the view at references alone; where the rows of
nodes are matters only to streams. -/
theorem of_congr (hs : ∀ x ∈ e.freeParams, scope.lookup x = scope'.lookup x)
    (hr : ∀ r ∈ e.rowRefs, Alike (v.row r) (v'.row r))
    (hp : e.hasStream = true → v.path = v'.path) :
    Agree tables v scope e v' scope' e := by
  induction e using children_induction generalizing v v' scope scope' with
  | step e ih =>
    have part {c} (hb : e.binders = []) (hc : c ∈ e.children) : Agree tables v scope c v' scope' c :=
      ih c hc (fun x hx => hs x (mem_freeParams_of_child (by simp [hb]) hc hx))
        (fun r h => hr r (mem_rowRefs_of_child hc h)) (fun h => hp (hasStream_of_child hc h))
    cases e with
    | param name =>
      refine of_value ?_ (by simp) (by simp)
      have := hs name (by simp [freeParams])
      simp only [evalIn, this]
      rfl
    | rowRef r =>
      refine of_value (hr r ?_) (by simp) (by simp)
      simp [rowRefs, nodes]
    | lambda params body =>
      refine Agree.lambda rfl fun values hl => (ih body (.head _) ?_ ?_ ?_).value
      · exact fun x hx =>
          Scope.lookup_bind_congr hl fun hb => hs x (mem_freeParams_of_child hb (.head _) hx)
      · exact fun r h => hr r (mem_rowRefs_of_child (.head _) h)
      · exact fun h => hp (hasStream_of_child (.head _) h)
    | stream rows selector frame =>
      have hsel : selector ∈ (Expr.stream rows selector frame).children := .tail _ (.head _)
      have hpath : v.path = v'.path := hp (hasStream_iff.2 (.inl ⟨_, _, _, rfl⟩))
      refine Agree.stream (part rfl (.head _)) fun w => (ih selector hsel ?_ ?_ ?_).value
      · exact fun x hx => hs x (mem_freeParams_of_child List.not_mem_nil hsel hx)
      · intro r h
        simp only [RowView.enter, hpath]
        split
        · rfl
        · exact hr r (mem_rowRefs_of_child hsel h)
      · exact fun _ => hpath
    | _ => exact of_sameHead (SameHead.refl_of _ fun c hc => part rfl hc) rfl

/-- A new name for a parameter. -/
theorem rename {old new : String} (hn : new ∉ e.names)
    (h : ∀ x, x ≠ new → scope.lookup x = scope'.lookup (if x = old then new else x)) :
    Agree tables v scope e v scope' (e.substitute old (.param new)) := by
  induction e using children_induction generalizing v scope scope' with
  | step e ih =>
    have part {c} (hc : c ∈ e.children) :
        Agree tables v scope c v scope' (c.substitute old (.param new)) :=
      ih c hc (fun hx => hn (mem_names_of_child hc hx)) h
    cases e with
    | param name =>
      have hname : name ≠ new := by
        rintro rfl
        exact hn (by simp [names, nodes, ownNames])
      have := h name hname
      rw [substitute_param]
      split at this
      · next heq =>
        refine of_value ?_ (by simp) (by simp [heq])
        subst heq
        simp only [if_true, evalIn, ← this]
        cases scope.lookup name with
        | none => exact .error rfl
        | some value => rfl
      · next hne =>
        refine of_value ?_ (by simp) (by simp [hne])
        simp only [hne, if_false, evalIn, this]
        rfl
    | lambda params body =>
      have hbody : new ∉ body.names := fun hx => hn (mem_names_of_child (.head _) hx)
      have hparams : new ∉ params := fun hx => hn (by simp [names, nodes, ownNames, hx])
      rw [substitute_lambda]
      split
      · next hold =>
        -- The lambda binds the old name itself, so the scopes agree below it.
        refine Agree.lambda rfl fun values hl => (of_congr ?_ (fun _ _ => .refl _) fun _ => rfl).value
        intro x hx
        refine Scope.lookup_bind_congr hl fun hxp => ?_
        have hne : x ≠ old := fun heq => hxp (heq ▸ hold)
        have := h x (fun heq => hbody (heq ▸ mem_names_of_mem_freeParams hx))
        rwa [if_neg hne] at this
      · next hold =>
        refine Agree.lambda rfl fun values hl => (ih body (.head _) hbody fun x hx => ?_).value
        by_cases heq : x = old
        · subst heq
          rw [if_pos rfl, Scope.lookup_bind_of_not_mem hold, Scope.lookup_bind_of_not_mem hparams]
          simpa using h x hx
        · rw [if_neg heq]
          refine Scope.lookup_bind_congr hl fun _ => ?_
          simpa [heq] using h x hx
    | stream rows selector frame =>
      have hsel : selector ∈ (Expr.stream rows selector frame).children := .tail _ (.head _)
      rw [substitute_of_none rfl]
      refine Agree.stream (part (.head _)) fun w => (ih selector hsel ?_ h).value
      exact fun hx => hn (mem_names_of_child hsel hx)
    | rowRef r => exact of_value (.refl _) (by simp) (fun _ _ => Expr.noConfusion)
    | _ =>
      rw [substitute_of_none rfl]
      refine of_sameHead ((SameHead.of_map _ _).mono ?_) rfl
      rintro c c' ⟨hc, rfl⟩
      exact part hc

end Agree

namespace Expr

variable {tables : Tables} {v : RowView} {scope : Scope}

theorem evalItemsIn_eq {es : List Expr}
    (h : ∀ c ∈ es, c.evalIn tables v scope = c.eval tables scope) :
    evalItemsIn tables v scope es = evalItems tables scope es := by
  induction es with
  | nil => rfl
  | cons e es ih =>
    simp only [evalItemsIn, evalItems, h e (.head _), ih fun c hc => h c (.tail _ hc)]

theorem evalFieldsIn_eq {es : List (String × Expr)}
    (h : ∀ c ∈ es.map (·.2), c.evalIn tables v scope = c.eval tables scope) :
    evalFieldsIn tables v scope es = evalFields tables scope es := by
  induction es with
  | nil => rfl
  | cons e es ih =>
    simp only [evalFieldsIn, evalFields, h e.2 (.head _), ih fun c hc => h c (.tail _ hc)]

theorem anyNullGuardIn_eq {es : List Expr}
    (h : ∀ c ∈ es, c.evalIn tables v scope = c.eval tables scope) :
    anyNullGuardIn tables v scope es = anyNullGuard tables scope es := by
  induction es with
  | nil => rfl
  | cons e es ih =>
    simp only [anyNullGuardIn, anyNullGuard, h e (.head _), ih fun c hc => h c (.tail _ hc)]

theorem evalArgumentsIn_eq {es : List Expr}
    (h : ∀ c ∈ es, c.evalIn tables v scope = c.eval tables scope ∧
      c.applyIn tables v scope = c.apply tables scope) :
    evalArgumentsIn tables v scope es = evalArguments tables scope es := by
  induction es with
  | nil => rfl
  | cons e es ih =>
    simp only [evalArgumentsIn, evalArguments, h e (.head _), ih fun c hc => h c (.tail _ hc)]

/-- An expression without references and streams has the same value in every view. -/
theorem evalIn_eq_eval {e : Expr} (hr : e.rowRefs = []) (hs : e.hasStream = false) :
    e.evalIn tables v scope = e.eval tables scope ∧
      e.applyIn tables v scope = e.apply tables scope := by
  induction e using children_induction generalizing scope with
  | step e ih =>
    have part {c} (hc : c ∈ e.children) (scope : Scope) :
        c.evalIn tables v scope = c.eval tables scope ∧
          c.applyIn tables v scope = c.apply tables scope := by
      refine ih c hc ?_ ?_
      · refine List.eq_nil_iff_forall_not_mem.2 fun r h => ?_
        exact List.not_mem_nil (hr ▸ mem_rowRefs_of_child hc h)
      · refine Bool.eq_false_iff.2 fun h => ?_
        rw [hasStream_of_child hc h] at hs
        cases hs
    cases e with
    | rowRef r => cases hr
    | stream rows selector frame =>
      rw [hasStream_iff.2 (.inl ⟨_, _, _, rfl⟩)] at hs
      cases hs
    | entitySet _ | const _ | param _ => exact ⟨rfl, rfl⟩
    | lambda params body =>
      refine ⟨rfl, funext fun values => ?_⟩
      simp only [applyIn, apply, (part (.head _) _).1]
    | function name args =>
      refine ⟨?_, rfl⟩
      by_cases hn : name = "Equals"
      · subst hn
        rcases args with _ | ⟨a, _ | ⟨b, _ | _⟩⟩
        case cons.cons.nil =>
          simp only [evalIn, eval, (part (.head _) scope).1, (part (.tail _ (.head _)) scope).1]
        all_goals rfl
      · rw [evalIn_function tables v scope args hn]
        unfold eval
        split <;> rename_i heq <;> cases heq
        · exact absurd rfl hn
        · rfl
    | member t name => exact ⟨by simp only [evalIn, eval, (part (.head _) scope).1], rfl⟩
    | binary op a b =>
      refine ⟨?_, rfl⟩
      simp only [evalIn, eval, (part (.head _) scope).1, (part (.tail _ (.head _)) scope).1]
    | not a => exact ⟨by simp only [evalIn, eval, (part (.head _) scope).1], rfl⟩
    | cond a b c =>
      refine ⟨?_, rfl⟩
      simp only [evalIn, eval, (part (.head _) scope).1, (part (.tail _ (.head _)) scope).1,
        (part (.tail _ (.tail _ (.head _))) scope).1]
    | record fields =>
      exact ⟨by simp only [evalIn, eval, evalFieldsIn_eq fun c hc => (part hc scope).1], rfl⟩
    | tuple items =>
      exact ⟨by simp only [evalIn, eval, evalItemsIn_eq fun c (hc : c ∈ items) => (part hc scope).1], rfl⟩
    | convert a _ _ => exact ⟨by simp only [evalIn, eval, (part (.head _) scope).1], rfl⟩
    | call operator args note =>
      exact ⟨by simp only [evalIn, eval, evalArgumentsIn_eq fun c (hc : c ∈ args) => part hc scope], rfl⟩
    | nullSafeEqual guards a b =>
      have ha : a ∈ (nullSafeEqual guards a b).children := by simp [children]
      have hb : b ∈ (nullSafeEqual guards a b).children := by simp [children]
      have hg {c} (hc : c ∈ guards) : c ∈ (nullSafeEqual guards a b).children := by
        simp [children, hc]
      refine ⟨?_, rfl⟩
      simp only [evalIn, eval, anyNullGuardIn_eq fun c hc => (part (hg hc) scope).1,
        (part ha scope).1, (part hb scope).1]
    | entityShape _ rows => exact ⟨by simp only [evalIn, eval, (part (.head _) scope).1], rfl⟩

end Expr

/-- What a lambda binds is found under the new name of a parameter. -/
theorem Lambda.lookup_rename {scope : Scope} {values : List Value} (l : Lambda) {old new x : String}
    (hold : old ∈ l.params) (hn : new ∉ l.params) (hl : l.params.length = values.length) (hx : x ≠ new) :
    (scope.bind l.params values).lookup x =
      (scope.bind (l.rename old new).params values).lookup (if x = old then new else x) := by
  refine Scope.lookup_bind_map (fun y => if y = old then new else y) hl ?_ fun hxp => ?_
  · intro y hy heq
    split at heq <;> split at heq
    · next hy hx => rw [hy, hx]
    · exact absurd heq.symm hx
    · exact absurd (heq ▸ hy) hn
    · exact heq
  · rw [if_neg fun (heq : x = old) => hxp (heq ▸ hold)]

section Renaming

variable {l : Lambda} {old new : String}

theorem Lambda.not_mem_params (hn : new ∉ l.toExpr.names) : new ∉ l.params := fun hx => hn (by
  simp [toExpr, Expr.names, Expr.nodes, Expr.ownNames, hx])

theorem Lambda.not_mem_names (hn : new ∉ l.toExpr.names) : new ∉ l.body.names := fun hx =>
  hn (Expr.mem_names_of_child (e := l.toExpr) (.head _) hx)

/-- A lambda may rename a parameter to a name that it does not use. -/
theorem Lambda.rename_agree {tables : Tables} {v : RowView} {scope : Scope} (l : Lambda)
    (hold : old ∈ l.params) (hn : new ∉ l.toExpr.names) :
    Agree tables v scope l.toExpr v scope (l.rename old new).toExpr :=
  Agree.lambda (by simp [rename]) fun _ hl => (Agree.rename (not_mem_names hn) fun _ hx =>
    l.lookup_rename hold (not_mem_params hn) hl hx).value

end Renaming

end EntityQuery
