import EntityQuery.Proofs.Driving
import EntityQuery.Proofs.Roots
import EntityQuery.Proofs.Tables

/-!
# Every call has been expanded

Operators take predicates out of the calls that carry them, and refuse unknown operators; what they
build themselves are calls of joins, filters and projections. So a query whose undriven calls all stand
over rows has an expansion without undriven calls (`expandQuery_driven`): chains at any depth start at
an entity set, at the collection of a row of a known entity, or have nothing in them to be driven.
-/

namespace EntityQuery

open EntityQuery.Expr EntityQuery.Forest

variable {M : Model} {p p' q : Progress} {recur : Recur} {e e' : Expr} {s s' : Stream} {entity : String}

section Resolving

theorem driven_query {frame : StreamFrame} {rows : Expr} {selector? : Option Expr}
    (known : frame.cardinality.all (·.isKnown) = true) (hrows : rows.Driven)
    (hselector : ∀ selector, selector? = some selector → selector.Driven) :
    (frame.query rows selector?).Driven := by
  have single {operator : Operator} {rows : Expr} (hop : operator.isKnown = true) (h : rows.Driven) :
      (Expr.call operator [rows] none).Driven :=
    driven_call.2 ⟨by simpa [Operator.drives] using hop, by simpa using h⟩
  have projected {selector : Expr} (h : selector.Driven) :
      (Expr.call .select [rows, selector] none).Driven :=
    driven_call.2 ⟨rfl, by simp [hrows, h]⟩
  unfold StreamFrame.query
  cases hc : frame.cardinality with
  | none =>
    cases selector? with
    | none => exact hrows
    | some selector => exact projected (hselector selector rfl)
  | some operator =>
    rw [hc] at known
    cases selector? with
    | none => exact single known hrows
    | some selector => exact single known (projected (hselector selector rfl))

theorem driven_readPath (x : String) (path : List String) : (readPath x path).Driven :=
  Over.driven (.readPath x path (driven_param x))

/-- Resolving leaves no call undriven that was driven. -/
theorem resolution_driven (f : Forest) : Resolution f fun _ e e' => e.Driven → e'.Driven where
  parts _ head h := .of_sameHead head (driven_iff.1 h).1 fun hc => hc.2 (h.child hc.1)
  kept _ h := h
  keptMember _ h := h
  row _ _ _ := driven_readPath _ _
  entity _ _ _ := driven_entityShape.2 (driven_readPath _ _)
  property _ _ _ := driven_member.2 (driven_readPath _ _)
  guarded hguards hleft hright h := by
    refine driven_iff.2 ⟨rfl, fun d hd => ?_⟩
    simp only [children, List.mem_append, List.mem_cons, List.not_mem_nil, or_false] at hd
    rcases hd with hd | rfl | rfl
    · obtain ⟨g, hmem, ⟨hg, -⟩ | ⟨r, path, -, -, -, rfl⟩⟩ := exists_of_mem_right hguards hd
      · exact hg (h.child (by simp [children, hmem]))
      · exact driven_readPath _ _
    · exact hleft (h.child (by simp [children]))
    · exact hright (h.child (by simp [children]))
  lambda _ hbody h := driven_lambda.2 (hbody (driven_lambda.1 h))
  renamed _ hbody h := driven_lambda.2 (hbody ((driven_lambda.1 h).substitute (driven_param _)))
  projected hselector _ hrows again h := by
    obtain ⟨known, hr, hs⟩ := driven_stream.1 h
    refine driven_query known (hrows hr) ?_
    rintro _ ⟨⟩
    exact again (driven_lambda.2 (hselector hs))
  unprojected _ hrows h := by
    obtain ⟨known, hr, -⟩ := driven_stream.1 h
    exact driven_query known (hrows hr) fun _ h => by cases h

theorem Stream.resolve_driven (h : Runs (s.resolve e) M p e' p') (he : e.Driven) : e'.Driven :=
  ((resolution_driven p.forest).resolve rfl h).2.2 he

end Resolving

/-- Nothing in the stream is undriven, nor does it wait for an unknown operator. -/
def Stream.Driven (s : Stream) : Prop :=
  s.cardinality.all (·.isKnown) = true ∧ s.rows.Driven ∧ s.selector.Driven

theorem driven_toExpr : s.toExpr.Driven ↔ s.Driven := driven_stream

section Joins

variable {outer inner : Expr} {outerKey innerKey : JoinKey} {note : JoinNote}

theorem keyedJoin_driven (h : Runs (keyedJoin outer inner outerKey innerKey note) M p e p')
    (ho : outer.Driven) (hi : inner.Driven) (hk : outerKey.value.Driven) (hl : innerKey.value.Driven) :
    e.Driven := by
  obtain ⟨-, ⟨-, rfl⟩ | ⟨-, group, row, rfl⟩⟩ := Runs.keyedJoin_cases h
  · simp_all [innerJoin, JoinKey.toExpr, Operator.drives, Operator.isKnown, Operator.acceptsPredicate,
      Operator.isCardinalityReducing]
  · simp_all [flattenedJoin, JoinKey.toExpr, Operator.drives, Operator.isKnown,
      Operator.acceptsPredicate, Operator.isCardinalityReducing]

theorem joinNode_driven {n : NodeId} (h : Runs (joinNode s n) M p s' p') (hs : s.Driven) :
    s'.Driven ∧ s'.selector = s.selector := by
  obtain ⟨q, edge, path, outerKey, innerKey, target, note, rows, q', found, rfl, -, -⟩ :=
    Runs.joinNode h
  obtain ⟨known, hrows, hselector⟩ := hs
  have owner : (Expr.readPath s.parameter path).Over Driven := .readPath _ _ (driven_param _)
  refine ⟨⟨known, ?_, hselector⟩, rfl⟩
  exact keyedJoin_driven found.joined hrows (driven_entitySet _)
    (navigationColumns_owner_over owner).driven (navigationColumns_target_over (driven_param _)).driven

theorem joinReferenced_driven {es : List Expr} {k : Nat}
    (h : Runs (joinReferenced s es) M p (s', k) p') (hs : s.Driven) :
    s'.Driven ∧ s'.selector = s.selector :=
  joinReferenced_keeps (P := fun _ t => t.Driven ∧ t.selector = s.selector)
    (fun ht hrun => (joinNode_driven hrun ht.1).imp_right (·.trans ht.2)) (fun ht => ht) h ⟨hs, rfl⟩

end Joins

section Bodies

variable {x : String} {params : List String} {body d source lambda : Expr} {b : JoinedBody}
  {row? : Option String}

/-- A selector that refers to rows of the entity of a lambda can be put for the lambda's row. -/
theorem Progress.replaces (c : Catalog) (x : String) (params : List String)
    (h : ∀ entity, row? = some entity → p.forest.RowOf d entity) :
    ((p.start c).bind (x :: params) row?).Replaces (p.start c) x d where
  catalog := rfl
  forest := rfl
  raw := rfl
  raw' := rfl
  rest {y entity} hy hv := by
    simp only [KnownRows.bind, List.head?_cons, Option.some.injEq, if_neg (Ne.symm hy)] at hv
    split at hv <;> cases hv
  here {entity} hv := by
    simp only [KnownRows.bind, List.head?_cons, if_true] at hv
    exact h entity hv

/-- Anything can be put for a parameter of which nothing is known. -/
theorem Progress.replaces_unknown (c : Catalog) (x : String) (d : Expr) :
    (p.start c).Replaces (p.start c) x d :=
  ⟨rfl, rfl, rfl, rfl, fun _ h => h, fun h => by cases h⟩

theorem expandSource_driven (hrec : Drives M recur) (h : Runs (expandSource recur e) M p s p')
    (hp : p.forest.Linked M.catalog) (he : e.Drivable true none (p.start M.catalog)) :
    s.Driven ∧ ∀ entity, e.Yields (p.start M.catalog) (.rows entity) →
      p'.forest.RowOf s.selector entity := by
  obtain ⟨driven, rows⟩ := hrec.drives (Runs.expandSource h).1 hp he
  exact ⟨driven_toExpr.1 driven, fun entity => rows s entity rfl⟩

theorem joinBody_driven (hrec : Drives M recur) (h : Runs (joinBody recur s x body) M p b p')
    (hp : p.forest.Linked M.catalog) (hs : s.Driven)
    (hrow : ∀ entity, row? = some entity → p.forest.RowOf s.selector entity)
    (hbody : (Expr.lambda [x] body).Drivable true row? (p.start M.catalog)) :
    b.stream.Driven ∧ b.stream.selector = s.selector ∧ b.body.Driven ∧
      ∀ entity target, p.forest.RowOf s.selector entity →
        (Expr.lambda [x] body).Yields (p.start M.catalog) (.map entity target) →
        p'.forest.RowOf b.body target := by
  obtain ⟨q, s₁, k, hprepare, hjoin, hstream⟩ := Runs.joinBody h
  have composed := substitute_transfers (e := body) (p.replaces M.catalog x [] hrow)
    hs.2.2
  obtain ⟨driven, rows⟩ := prepareBody_driven hrec hprepare hp (composed.drivable hbody.body)
  obtain ⟨joined, selector⟩ := joinReferenced_driven hjoin hs
  have hq := (prepareBody_onward hrec.links _ hprepare hp).1
  refine ⟨?_, ?_, driven, ?_⟩
  · rcases hstream with hstream | hstream <;> exact hstream ▸ joined
  · rcases hstream with hstream | hstream <;> exact hstream ▸ selector
  · intro entity target known hy
    cases hy with
    | lambda hy =>
      have composed := substitute_transfers (e := body)
        (p.replaces M.catalog x [] fun _ h => Option.some.inj h ▸ known) hs.2.2
      exact (rows target (composed.yields hy)).keeps (joinReferenced_onward hjoin hq).2

theorem resolvedBody_driven (hrec : Drives M recur) (h : Runs (resolvedBody recur s x body) M p b p')
    (hp : p.forest.Linked M.catalog) (hs : s.Driven)
    (hrow : ∀ entity, row? = some entity → p.forest.RowOf s.selector entity)
    (hbody : (Expr.lambda [x] body).Drivable true row? (p.start M.catalog)) :
    b.stream.Driven ∧ b.stream.selector = s.selector ∧ b.body.Driven := by
  obtain ⟨b₀, q, hjoin, hresolve, hstream, -⟩ := Runs.resolvedBody h
  obtain ⟨hs', hselector, hb, -⟩ := joinBody_driven hrec hjoin hp hs hrow hbody
  rw [hstream]
  exact ⟨hs', hselector, Stream.resolve_driven hresolve hb⟩

/-- Lambdas over rows of a known source read rows of that entity. -/
theorem Brought.driven (hrec : Drives M recur) (h : Brought recur M p source lambda b p')
    (hp : p.forest.Linked M.catalog) (hsource : source.Drivable true none (p.start M.catalog))
    (hrow : ∀ entity, row? = some entity → source.Yields (p.start M.catalog) (.rows entity))
    (hlambda : lambda.Drivable true row? (p.start M.catalog)) :
    b.stream.Driven ∧ b.body.Driven ∧ ∀ entity,
      source.Yields (p.start M.catalog) (.rows entity) → p'.forest.RowOf b.stream.selector entity := by
  obtain ⟨x, body, s, q, rfl, hrun, hbody⟩ := h
  obtain ⟨hs, rows⟩ := expandSource_driven hrec hrun hp hsource
  obtain ⟨hq, keeps⟩ := expandSource_onward hrec.links _ hrun hp
  obtain ⟨hs', hselector, hb⟩ := resolvedBody_driven hrec hbody hq hs
    (fun entity heq => rows entity (hrow entity heq)) (hlambda.mono (p.start_le keeps M.catalog))
  have keeps' := (resolvedBody_onward hrec.links hbody hq).2
  exact ⟨hs', hb, fun entity hy => hselector ▸ (rows entity hy).keeps keeps'⟩

end Bodies

section Operators

variable {outer inner : Stream} {m : MergedStreams} {source lambda : Expr} {row? : Option String}

/-- Merged rows are driven like those of the two streams. -/
structure MergedStreams.Driven (m : MergedStreams) : Prop where
  stream : m.stream.Driven
  outer : m.outerSelector.Driven
  inner : m.innerSelector.Driven

theorem mergeStreams_keyed_driven {outerKey innerKey : Expr} {note : JoinNote}
    (h : Runs (mergeStreams outer inner (.keyed outerKey innerKey note)) M p m p') (ho : outer.Driven)
    (hi : inner.Driven) (hk : outerKey.Driven) (hl : innerKey.Driven) :
    m.Driven ∧ m.outerSelector = outer.selector := by
  obtain ⟨rows, q, q', -, -, hjoin, rfl, -⟩ := Runs.mergeStreams_keyed h
  have hkey : (mergedKey outer inner p.names innerKey).Driven := by
    rw [mergedKey]
    split
    · exact hl.substitute (driven_param _)
    · exact hl
  exact ⟨⟨⟨rfl, keyedJoin_driven hjoin ho.2.1 hi.2.1 hk hkey, driven_const _⟩, ho.2.2, hi.2.2⟩, rfl⟩

theorem mergeStreams_correlated_driven (h : Runs (mergeStreams outer inner .correlated) M p m p')
    (ho : outer.Driven) (hi : inner.Driven) : m.Driven ∧ m.outerSelector = outer.selector := by
  obtain ⟨_, -, rfl, -⟩ := Runs.mergeStreams_correlated h
  have rows : (Expr.call .selectMany
      [outer.rows, .lambda [outer.parameter] inner.rows,
        pairing outer.parameter (mergedName outer inner p.names)] none).Driven :=
    driven_call.2 ⟨rfl, by simp [ho.2.1, hi.2.1]⟩
  exact ⟨⟨⟨rfl, rows, driven_const _⟩, ho.2.2, hi.2.2⟩, rfl⟩

/-- A result selector is put over both selectors; its first parameter may be known to be a row. -/
theorem selectResult_driven (hrec : Drives M recur) {result : Option ResultSelector}
    (h : Runs (selectResult recur m result) M p s p') (hp : p.forest.Linked M.catalog) (hm : m.Driven)
    (hrow : ∀ entity, row? = some entity → p.forest.RowOf m.outerSelector entity)
    (hresult : ∀ x y body, result = some (x, y, body) →
      (Expr.lambda [x, y] body).Drivable true row? (p.start M.catalog)) : s.Driven := by
  rcases Runs.selectResult h with ⟨-, rfl, -⟩ | ⟨x, y, body, body', q, s₁, k, rfl, hprepare, hjoin, rfl⟩
  · exact ⟨hm.stream.1, hm.stream.2.1, hm.inner⟩
  · have hb := (hresult x y body rfl).body
    have first := substitute_transfers (e := body) (p.replaces M.catalog x [y] hrow) hm.outer
    have second := substitute_transfers (e := body.substitute x m.outerSelector)
      (p.replaces_unknown M.catalog y m.innerSelector) hm.inner
    have driven := (prepareBody_driven hrec hprepare hp (second.drivable (first.drivable hb))).1
    have joined := (joinReferenced_driven hjoin hm.stream).1
    exact ⟨joined.1, joined.2.1, driven⟩

theorem expandSelect_driven (hrec : Drives M recur) (h : Runs (expandSelect recur source lambda) M p s p')
    (hp : p.forest.Linked M.catalog) (hsource : source.Drivable true none (p.start M.catalog))
    (hrow : ∀ entity, row? = some entity → source.Yields (p.start M.catalog) (.rows entity))
    (hlambda : lambda.Drivable true row? (p.start M.catalog)) :
    s.Driven ∧ ∀ entity target, source.Yields (p.start M.catalog) (.rows entity) →
      lambda.Yields (p.start M.catalog) (.map entity target) → p'.forest.RowOf s.selector target := by
  obtain ⟨x, body, s₀, q, b, q', rfl, hrun, hbody, halias, needsProjection, rfl⟩ :=
    Runs.expandSelect_cases h
  obtain ⟨hs, rows⟩ := expandSource_driven hrec hrun hp hsource
  obtain ⟨hq, keeps⟩ := expandSource_onward hrec.links _ hrun hp
  have hle := p.start_le keeps M.catalog
  obtain ⟨hs', -, hb, made⟩ := joinBody_driven hrec hbody hq hs
    (fun entity heq => rows entity (hrow entity heq)) (hlambda.mono hle)
  have keeps' := (aliasFields_onward _ halias (joinBody_onward hrec.links hbody hq).1).2
  exact ⟨⟨hs'.1, hs'.2.1, hb⟩, fun entity target known hy =>
    (made entity target (rows entity known) (hy.mono hle)).keeps keeps'⟩

theorem expandJoin_driven (hrec : Drives M recur) {outer inner outerKey innerKey result : Expr}
    (h : Runs (expandJoin recur outer inner outerKey innerKey result) M p s p')
    (hp : p.forest.Linked M.catalog) (ho : outer.Drivable true none (p.start M.catalog))
    (hi : inner.Drivable true none (p.start M.catalog))
    (hk : outerKey.Drivable true none (p.start M.catalog))
    (hl : innerKey.Drivable true none (p.start M.catalog))
    (hresult : result.Drivable true none (p.start M.catalog)) : s.Driven := by
  obtain ⟨x, y, z, w, outerKey', innerKey', result', outer', inner', b, c, q₁, q₂, q₃, q₄, q₅, m, note,
    rfl, rfl, rfl, houter, hinner, hb, hc, -, -, hmerge, hselect⟩ := Runs.expandJoin h
  have unknown {s : Stream} {p : Progress} (entity : String) (h : none = some entity) :
      p.forest.RowOf s.selector entity := by cases h
  have hs := (expandSource_driven hrec houter hp ho).1
  obtain ⟨h₁, k₁⟩ := expandSource_onward hrec.links _ houter hp
  have ht := (expandSource_driven hrec hinner h₁ (hi.mono (p.start_le k₁ _))).1
  obtain ⟨h₂, k₂⟩ := expandSource_onward hrec.links _ hinner h₁
  obtain ⟨hbs, -, hbb⟩ := resolvedBody_driven hrec hb h₂ hs unknown (hk.mono (p.start_le (k₁.trans k₂) _))
  obtain ⟨h₃, k₃⟩ := resolvedBody_onward hrec.links hb h₂
  obtain ⟨hcs, -, hcb⟩ := resolvedBody_driven hrec hc h₃ ht unknown
    (hl.mono (p.start_le ((k₁.trans k₂).trans k₃) _))
  obtain ⟨h₄, k₄⟩ := resolvedBody_onward hrec.links hc h₃
  obtain ⟨hm, -⟩ := mergeStreams_keyed_driven hmerge hbs hcs hbb hcb
  obtain ⟨h₅, k₅⟩ := mergeStreams_keyed_onward hmerge h₄
  refine selectResult_driven hrec hselect h₅ hm (fun _ h => absurd h (Option.some_ne_none _).symm) ?_
  rintro _ _ _ ⟨⟩
  exact hresult.mono (p.start_le ((((k₁.trans k₂).trans k₃).trans k₄).trans k₅) _)

theorem materialize_driven {entity? : Option String} (h : Runs (materialize s entity?) M p s' p')
    (hs : s.Driven) : s'.Driven ∧ ∀ entity, entity? = none → p.forest.RowOf s.selector entity →
      p'.forest.RowOf s'.selector entity := by
  rcases Runs.materialize h with ⟨rfl, rfl⟩ | ⟨body, q, source, q', hbody, hsource, hforest, rfl⟩
  · exact ⟨hs, fun _ _ h => h⟩
  · have rows : (Expr.call .select [s.rows, .lambda [s.parameter] body] none).Driven :=
      driven_call.2 ⟨rfl, by simp [hs.2.1, Stream.resolve_driven hbody hs.2.2]⟩
    refine ⟨⟨hs.1, rows, driven_rowRef _⟩, fun entity hnone row => ?_⟩
    obtain ⟨r, hselector, single, known⟩ := row
    obtain ⟨-, -, noEdge, made⟩ := projectedSource_onward hsource
    rw [hforest]
    refine ⟨_, rfl, Node.not_isCollection noEdge, made r entity hselector ?_ hnone⟩
    rw [Stream.resolve_forest hbody]
    exact known

end Operators

section Hoisting

variable {outer inner : Stream} {m : MergedStreams} {plan : HoistPlan} {collection : Expr}
  {filter : NavigationFilter} {target : String} {rowWise : Bool} {v : KnownRows}

/-- What a navigation filter compares has no undriven call. -/
theorem navigationFilter?_driven {nested : Bool} {element : Option String}
    (h : e.navigationFilter? = some (filter, rowWise)) (he : e.Drivable nested element v) :
    ∀ a ∈ filter.arguments.tail, a.Driven := by
  induction e using children_induction generalizing nested element rowWise with
  | step e ih =>
    unfold navigationFilter? at h
    split at h
    · cases h
      cases he with
      | plain kind _ => cases kind
      | bare _ => simp
      | call row? driven known hs ha =>
        exact fun a hmem => (show a.Drivable false row? v by simpa using ha a hmem).driven
    · obtain ⟨⟨filter', rowWise'⟩, hsource, heq⟩ := Option.map_eq_some_iff.1 h
      cases heq
      cases he with
      | plain kind _ => cases kind
      | call row? driven known hs ha => exact ih _ (.head _) hsource hs
    · cases h

/-- Over the whole target set, the rows of a chain are known as they were over the filter. -/
theorem withoutFilter_transfers (h : e.navigationFilter? = some (filter, rowWise)) {rest : List Expr}
    (harguments : filter.arguments = .entitySet target :: rest) :
    Transfers v v e (e.withoutFilter target) := by
  induction e using children_induction generalizing rowWise with
  | step e ih =>
    unfold navigationFilter? at h
    unfold withoutFilter
    split at h
    · cases h
      dsimp only at harguments
      subst harguments
      refine ⟨fun hy => ?_, fun _ => ⟨target, .set target⟩, fun _ => (driven_entitySet _).drivable⟩
      cases hy with
      | kept _ hs =>
        cases hs with
        | set => exact .set target
    · next operator source arguments note hne =>
      obtain ⟨⟨filter', rowWise'⟩, hsource, heq⟩ := Option.map_eq_some_iff.1 h
      cases heq
      have source' := ih source (.head _) hsource
      have head : SameHead (Transfers v v) (.call operator (source :: arguments) note)
          (.call operator (source.withoutFilter target :: arguments) note) :=
        .call _ _ (.cons source' (List.forall₂_same.2 fun a _ => .of_le (.refl v) a))
      exact .of_sameHead head (fun h => h) (fun h => by cases h) (fun _ _ h => by cases h)
        (fun _ _ h => by cases h) (fun _ _ h => by cases h) rfl
    · cases h

/-- The chain of a plan can be driven if its selector can, and its keys hold no undriven call. -/
theorem HoistPlan.ofSelector_driven (h : HoistPlan.ofSelector e = .ok plan)
    (he : e.Drivable true none v) : plan.chain.Drivable true none v ∧
      (∀ part ∈ plan.innerKey, part.Driven) ∧ ∀ part ∈ plan.outerKey, part.Driven := by
  obtain ⟨chain, filter, body, rest, hchain, hfilter, harguments, hpair, hopened, -⟩ :=
    HoistPlan.ofSelector_eq_ok h
  have hchain : chain.Drivable true none v := by
    rcases hchain with rfl | ⟨further, note, rfl⟩
    · exact he
    · cases he with
      | plain kind _ => cases kind
      | call _ _ _ hs _ => exact hs
  have hbody : body.Driven :=
    driven_lambda.1 (navigationFilter?_driven hfilter hchain (.lambda [plan.parameter] body)
      (by simp [harguments]))
  have parts {key : Expr} (hkey : key.Driven) : ∀ part ∈ key.tupleParts, part.Driven := by
    unfold tupleParts
    split
    · exact driven_tuple.1 hkey
    · simpa using hkey
  obtain ⟨guard, a, b, rfl, hkeys⟩ := Expr.keyPair?_eq_some hpair
  obtain ⟨-, ha, hb⟩ : _ ∧ a.Driven ∧ b.Driven := by simpa using hbody
  refine ⟨hopened ▸ (withoutFilter_transfers hfilter harguments).drivable hchain, ?_⟩
  rcases hkeys with ⟨hi, ho, -⟩ | ⟨hi, ho, -⟩ <;> rw [hi, ho]
  · exact ⟨parts ha, parts hb⟩
  · exact ⟨parts hb, parts ha⟩

/-- A chain of row-wise operators over all rows of an entity. -/
inductive Expr.RowWiseOver (target : String) : Expr → Prop where
  | set : RowWiseOver target (.entitySet target)
  | operator {operator : Operator} {source : Expr} {arguments : List Expr} {note : Option CallNote}
    (rowWise : operator.isRowWise = true) (hs : RowWiseOver target source) :
    RowWiseOver target (.call operator (source :: arguments) note)

theorem withoutFilter_rowWise (h : e.navigationFilter? = some (filter, true)) :
    (e.withoutFilter target).RowWiseOver target := by
  induction e using children_induction with
  | step e ih =>
    unfold navigationFilter? at h
    unfold withoutFilter
    split at h
    · exact .set
    · obtain ⟨⟨filter', rowWise'⟩, hsource, heq⟩ := Option.map_eq_some_iff.1 h
      obtain ⟨rfl, hboth⟩ := Prod.mk.inj heq
      obtain ⟨rfl, hop⟩ := Bool.and_eq_true_iff.1 hboth
      exact .operator hop (ih _ (.head _) hsource)
    · cases h

/-- A chain over a root stream runs as the chain over the set does that starts with that stream. -/
def StartsAtRoot (M : Model) (recur : Recur) : Prop :=
  ∀ {chain target p root q e p'}, chain.RowWiseOver target → Runs (rootStream target) M p root q →
    Runs (recur (chain.withChainRoot root.toExpr)) M q e p' → Runs (recur chain) M p e p'

theorem expandHoisted_driven (hrec : Drives M recur) (hroot : StartsAtRoot M recur)
    {found : Option Stream} (hplan : HoistPlan.ofSelector e = .ok plan)
    (h : Runs (expandHoisted recur plan) M p found p') (hp : p.forest.Linked M.catalog)
    (he : e.Drivable true none (p.start M.catalog)) : ∀ s, found = some s → s.Driven := by
  obtain ⟨root, q, inner, q', hset, hinner, -, hfound⟩ := Runs.expandHoisted h
  rintro s rfl
  obtain rfl := Option.some.inj (hfound.resolve_left (by simp))
  obtain ⟨chain, filter, body, rest, -, hfilter, -, -, hopened, -⟩ := HoistPlan.ofSelector_eq_ok hplan
  have started := hroot (hopened ▸ withoutFilter_rowWise hfilter) hset (Runs.expandSource hinner).1
  exact driven_toExpr.1 (hrec.drives started hp (HoistPlan.ofSelector_driven hplan he).1).1

theorem mapM_resolve_driven {f : Expr → Expr} {es es' : List Expr}
    (h : Runs (es.mapM fun e => s.resolve (f e)) M p es' p') (hes : ∀ e ∈ es, (f e).Driven) :
    ∀ e ∈ es', e.Driven := by
  intro e' he'
  obtain ⟨e, he, driven⟩ := exists_of_mem_right ((resolution_driven p.forest).mapM_resolve rfl h).2 he'
  exact driven (hes e he)

theorem driven_key {parts : List Expr} (h : ∀ part ∈ parts, part.Driven) : (Expr.key parts).Driven :=
  Over.driven (.key fun part hpart => .operand (h part hpart))

theorem hoist_driven (h : Runs (hoist outer inner plan) M p m p') (ho : outer.Driven) (hi : inner.Driven)
    (hinner : ∀ part ∈ plan.innerKey, part.Driven) (houter : ∀ part ∈ plan.outerKey, part.Driven) :
    m.Driven ∧ m.outerSelector = outer.selector := by
  obtain ⟨target, innerParts, q, outer', k, q₁, outerParts, q₂, q₃, note, hinnerParts, rfl, hjoin,
    houterParts, -, -, hmerge, -⟩ := Runs.hoist h
  obtain ⟨joined, selector⟩ := joinReferenced_driven hjoin ho
  obtain ⟨hm, hselector⟩ := mergeStreams_keyed_driven hmerge joined hi
    (driven_key (mapM_resolve_driven (f := id) houterParts houter))
    (driven_key (mapM_resolve_driven hinnerParts fun e he => (hinner e he).substitute (driven_rowRef _)))
  exact ⟨hm, hselector.trans selector⟩

theorem correlate_driven (hrec : Drives M recur) (h : Runs (correlate recur outer collection) M p m p')
    (hp : p.forest.Linked M.catalog) (ho : outer.Driven)
    (hc : collection.Drivable true none (p.start M.catalog)) :
    m.Driven ∧ m.outerSelector = outer.selector := by
  obtain ⟨inner, q, outer', k, q₁, rows, q₂, q₃, hinner, hjoin, hrows, hmerge, -⟩ := Runs.correlate h
  have hi := (expandSource_driven hrec hinner hp hc).1
  obtain ⟨joined, selector⟩ := joinReferenced_driven hjoin ho
  obtain ⟨hm, hselector⟩ := mergeStreams_correlated_driven hmerge joined
    ⟨hi.1, Stream.resolve_driven hrows hi.2.1, hi.2.2⟩
  exact ⟨hm, hselector.trans selector⟩

theorem expandSelectMany_driven (hrec : Drives M recur) (hroot : StartsAtRoot M recur)
    {source lambda : Expr} {result : Option Expr} {row? : Option String}
    (h : Runs (expandSelectMany recur source lambda result) M p s p') (hp : p.forest.Linked M.catalog)
    (hsource : source.Drivable true none (p.start M.catalog))
    (hrow : ∀ entity, row? = some entity → source.Yields (p.start M.catalog) (.rows entity))
    (hlambda : lambda.Drivable true row? (p.start M.catalog))
    (hresult : ∀ d, result = some d → d.Drivable true row? (p.start M.catalog)) : s.Driven := by
  obtain ⟨x, body, result', outer, q₁, collection, q₂, q₃, m, q₄, rfl, hresult', houter, hbody, hmerge,
    hselect⟩ := Runs.expandSelectMany h
  obtain ⟨ho, rows⟩ := expandSource_driven hrec houter hp hsource
  obtain ⟨h₁, k₁⟩ := expandSource_onward hrec.links _ houter hp
  have outerRow (entity : String) (heq : row? = some entity) := rows entity (hrow entity heq)
  have composed := (substitute_transfers (q₁.replaces M.catalog x [] outerRow) ho.2.2).drivable
    (hlambda.body.mono ((p.start_le k₁ M.catalog).bind [x] row?))
  have prepared := ((rewriteBody_transferred hbody h₁) fun _ => none).drivable composed
  have hcollection := prepared.restart fun _ => rfl
  obtain ⟨h₂, k₂⟩ := rewriteBody_onward _ hbody h₁
  obtain ⟨h₃, k₃, h₄, k₄⟩ := merged_onward hrec.links h₂ hmerge
  obtain ⟨hm, hselector⟩ : m.Driven ∧ m.outerSelector = outer.selector := by
    rcases hmerge with ⟨hcorrelate, -⟩ | ⟨plan, inner, hplan, hinner, hhoist⟩
    · exact correlate_driven hrec hcorrelate h₃ ho (hcollection.mono (q₂.start_le k₃ M.catalog))
    · have hi := expandHoisted_driven hrec hroot hplan hinner h₂ hcollection inner rfl
      obtain ⟨-, innerKey, outerKey⟩ := HoistPlan.ofSelector_driven hplan hcollection
      exact hoist_driven hhoist ho hi innerKey outerKey
  have keeps := k₂.trans (k₃.trans k₄)
  refine selectResult_driven hrec hselect h₄ hm
    (fun entity heq => hselector ▸ (outerRow entity heq).keeps keeps) ?_
  rintro y z d rfl
  rcases hresult' with ⟨-, ⟨⟩⟩ | ⟨_, _, _, rfl, ⟨⟩⟩
  exact (hresult _ rfl).mono (p.start_le (k₁.trans keeps) M.catalog)

end Hoisting

section Starting

variable {source source' lambda : Expr} {operator : Operator}

/-- The runs of one source are runs of another one that starts earlier. -/
def Precedes (M : Model) (recur : Recur) (p q : Progress) (source source' : Expr) : Prop :=
  ∀ {s q'}, Runs (expandSource recur source') M q s q' → Runs (expandSource recur source) M p s q'

theorem expandFilter_precedes {note : Option CallNote} (hs : Precedes M recur p q source source')
    (h : Runs (expandFilter recur source' lambda note) M q s p') :
    Runs (expandFilter recur source lambda note) M p s p' := by
  simp only [expandFilter, Runs.bind_iff, Prod.exists, Runs.expectUnary_iff] at h ⊢
  obtain ⟨x, body, _, ⟨rfl, rfl⟩, s₁, q₁, hsource, h⟩ := h
  exact ⟨x, body, p, ⟨rfl, rfl⟩, s₁, q₁, hs hsource, h⟩

theorem expandSelect_precedes (hs : Precedes M recur p q source source')
    (h : Runs (expandSelect recur source' lambda) M q s p') :
    Runs (expandSelect recur source lambda) M p s p' := by
  simp only [expandSelect, Runs.bind_iff, Prod.exists, Runs.expectUnary_iff] at h ⊢
  obtain ⟨x, body, _, ⟨rfl, rfl⟩, s₁, q₁, hsource, h⟩ := h
  exact ⟨x, body, p, ⟨rfl, rfl⟩, s₁, q₁, hs hsource, h⟩

theorem expandOrderBy_precedes (hs : Precedes M recur p q source source')
    (h : Runs (expandOrderBy recur operator source' lambda) M q s p') :
    Runs (expandOrderBy recur operator source lambda) M p s p' := by
  simp only [expandOrderBy, Runs.bind_iff, Prod.exists, Runs.expectUnary_iff] at h ⊢
  obtain ⟨x, body, _, ⟨rfl, rfl⟩, s₁, q₁, hsource, h⟩ := h
  exact ⟨x, body, p, ⟨rfl, rfl⟩, s₁, q₁, hs hsource, h⟩

theorem expandThenBy_precedes (hs : Precedes M recur p q source source')
    (h : Runs (expandThenBy recur operator source' lambda) M q s p') :
    Runs (expandThenBy recur operator source lambda) M p s p' := by
  simp only [expandThenBy, Runs.bind_iff, Prod.exists, Runs.expectUnary_iff] at h ⊢
  obtain ⟨x, body, _, ⟨rfl, rfl⟩, s₁, q₁, hsource, h⟩ := h
  exact ⟨x, body, p, ⟨rfl, rfl⟩, s₁, q₁, hs hsource, h⟩

/-- A row-wise operator expands its source before anything else. -/
theorem expandCall_precedes {arguments : List Expr} {note : Option CallNote}
    (hop : operator.isRowWise = true) (hs : Precedes M recur p q source source')
    (h : Runs (expandCall recur operator (source' :: arguments) note) M q e p') :
    Runs (expandCall recur operator (source :: arguments) note) M p e p' := by
  have stream {x y : Expansion Stream} (hx : ∀ {s}, Runs x M q s p' → Runs y M p s p')
      (h : Runs (do return (← x).toExpr) M q e p') : Runs (do return (← y).toExpr) M p e p' := by
    simp only [Runs.bind_iff, Runs.pure_iff] at h ⊢
    obtain ⟨s, _, hrun, rfl, rfl⟩ := h
    exact ⟨s, _, hx hrun, rfl, rfl⟩
  obtain ⟨l, rfl⟩ : ∃ l, arguments = [l] := by
    cases Runs.expandCall h with
    | rowWise | select => exact ⟨_, rfl⟩
    | join | selectMany => cases hop
    | terminal _ registered kind _ => simp [Operator.isRowWise, registered, kind] at hop
  cases operator with
  | filter => exact stream (expandFilter_precedes hs) h
  | select => exact stream (expandSelect_precedes hs) h
  | orderBy | orderByDescending => exact stream (expandOrderBy_precedes hs) h
  | thenBy | thenByDescending => exact stream (expandThenBy_precedes hs) h
  | _ => cases hop

theorem Precedes.of_recur (h : ∀ {d r}, Runs (recur source') M q d r → Runs (recur source) M p d r) :
    Precedes M recur p q source source' := by
  intro s q' hrun
  simp only [expandSource, Runs.bind_iff] at hrun ⊢
  obtain ⟨d, r, hd, hrun⟩ := hrun
  exact ⟨d, r, h hd, hrun⟩

/-- The only thing that a chain of row-wise operators does before the set is there is to set it up. -/
theorem expandWithin_startsAtRoot (n : Nat) : StartsAtRoot M (expandWithin n) := by
  induction n with
  | zero => exact fun _ _ h => (Runs.throw_iff.1 h).elim
  | succ n ih =>
    intro chain target p root q e p' hchain hroot h
    cases hchain with
    | set =>
      obtain ⟨rfl, rfl⟩ := Runs.pure_iff.1 h
      simp only [expandWithin, Runs.bind_iff, Runs.pure_iff]
      exact ⟨root, q, hroot, rfl, rfl⟩
    | operator rowWise hs => exact expandCall_precedes rowWise (Precedes.of_recur (ih hs hroot)) h

end Starting

section Queries

variable {operator : Operator} {source : Expr} {rest : List Expr} {note : Option CallNote}
  {info : OperatorInfo} {v : KnownRows}

theorem Operator.isKnown_of_info? (h : operator.info? = some info) : operator.isKnown = true := by
  cases operator <;> first | rfl | cases h

theorem Operator.isCardinalityReducing_of_keepsRows (h : operator.keepsRows = true) :
    operator.isCardinalityReducing = false := by
  cases operator <;> first | rfl | cases h

theorem Stream.selector_of_toExpr {s t : Stream} (h : s.toExpr = t.toExpr) : s.selector = t.selector :=
  (Expr.stream.inj h).2.1

/-- Once its predicate is a filter of the source, a call is driven. -/
theorem splitPredicate_driven (registered : operator.info? = some info)
    (kind : info.kind = .terminating) (length_le : rest.length ≤ 1)
    (h : (Expr.call operator (source :: rest) note).Drivable true none v) :
    (splitPredicate operator source rest).1.Drivable true none v ∧
      operator.drives (splitPredicate operator source rest).2 = true ∧
      ∀ a ∈ (splitPredicate operator source rest).2, a.Driven := by
  have isKnown := Operator.isKnown_of_info? registered
  cases h with
  | plain kind _ => cases kind
  | call row? _ known hs ha =>
    cases haccepts : operator.acceptsPredicate with
    | false =>
      have closed : operator.opensArguments = false := by
        simp [Operator.opensArguments, haccepts, registered, kind]
      simp only [splitPredicate, haccepts]
      refine ⟨hs, by simp [Operator.drives, isKnown, haccepts], fun a hmem => ?_⟩
      exact (show a.Drivable false row? v by simpa [closed] using ha a hmem).driven
    | true =>
      cases rest with
      | nil =>
        simp only [splitPredicate, haccepts]
        exact ⟨hs, by simp [Operator.drives, isKnown], by simp⟩
      | cons predicate rest =>
        obtain rfl : rest = [] := List.length_eq_zero_iff.1 (by simpa using length_le)
        simp only [splitPredicate, haccepts]
        refine ⟨.call row? (.inl rfl) (fun entity heq => ⟨rfl, (known entity heq).2⟩) hs ?_,
          by simp [Operator.drives, isKnown], by simp⟩
        exact fun a hmem => (ha a hmem).of_and.of_and

theorem expandTerminal_driven (hrec : Drives M recur) (registered : operator.info? = some info)
    (kind : info.kind = .terminating) (length_le : rest.length ≤ 1)
    (h : Runs (expandTerminal recur operator (source :: rest)) M p e' p')
    (hp : p.forest.Linked M.catalog)
    (he : (Expr.call operator (source :: rest) note).Drivable true none (p.start M.catalog)) :
    e'.Driven ∧ ∀ (s : Stream) entity, e' = s.toExpr →
      (Expr.call operator (source :: rest) note).Yields (p.start M.catalog) (.rows entity) →
        p'.forest.RowOf s.selector entity := by
  obtain ⟨s, q, hsource, hresult⟩ := Runs.expandTerminal h
  obtain ⟨hsplit, hdrives, hrest⟩ := splitPredicate_driven registered kind length_le he
  obtain ⟨hs, rows⟩ := expandSource_driven hrec hsource hp hsplit
  -- Only an operator that passes rows on yields some.
  have keeps {entity : String} (hy : (Expr.call operator (source :: rest) note).Yields
      (p.start M.catalog) (.rows entity)) : operator.keepsRows = true ∧
        source.Yields (p.start M.catalog) (.rows entity) := by
    cases hy with
    | kept keeps hs => exact ⟨keeps, hs⟩
    | select =>
      cases registered
      cases kind
  rcases hresult with ⟨-, rfl, rfl⟩ | ⟨hreducing, rfl, rfl⟩ |
    ⟨haccepts, entity?, s', q', hentity, hmaterialize, hforest, rfl⟩
  · refine ⟨driven_call.2 ⟨hdrives, List.forall_mem_cons.2 ⟨driven_toExpr.2 hs, hrest⟩⟩, ?_⟩
    exact fun t entity heq => by cases heq
  · refine ⟨driven_stream.2 ⟨Operator.isKnown_of_info? registered, hs.2⟩, fun t entity _ hy => ?_⟩
    rw [Operator.isCardinalityReducing_of_keepsRows (keeps hy).1] at hreducing
    cases hreducing
  · obtain ⟨hs', made⟩ := materialize_driven hmaterialize hs
    refine ⟨driven_stream.2 ⟨hs'.1, driven_call.2 ⟨hdrives, ?_⟩, hs'.2.2⟩, fun t entity heq hy => ?_⟩
    · exact List.forall_mem_cons.2 ⟨hs'.2.1, hrest⟩
    · obtain ⟨hkeeps, hy⟩ := keeps hy
      have hnone : entity? = none := hentity.resolve_left fun hop => by
        subst hop
        cases hkeeps
      have row := made entity hnone (rows entity (by simpa only [splitPredicate, haccepts] using hy))
      have hq := (expandSource_onward hrec.links _ hsource hp).1
      have linked := (materialize_onward hmaterialize hq).1
      rw [← Stream.selector_of_toExpr heq]
      rcases hforest with hforest | hforest <;> rw [hforest]
      · exact row
      · exact row.keeps (Onward.foldl (fun f m => onward_makeOptional m) _ _ linked).2

theorem Operator.drives_rowWise (h : operator ∈
    [.filter, .orderBy, .orderByDescending, .thenBy, .thenByDescending]) (further : List Expr) :
    operator.drives further = true := by
  cases operator <;> first | rfl | simp at h

/-- Whatever a call over rows is expanded to has no undriven call. -/
theorem Expanded.driven (hrec : Drives M recur) (hroot : StartsAtRoot M recur)
    (h : Expanded recur M p operator (source :: rest) note e' p') (hp : p.forest.Linked M.catalog)
    (he : (Expr.call operator (source :: rest) note).Drivable true none (p.start M.catalog)) :
    e'.Driven ∧ ∀ (s : Stream) entity, e' = s.toExpr →
      (Expr.call operator (source :: rest) note).Yields (p.start M.catalog) (.rows entity) →
        p'.forest.RowOf s.selector entity := by
  obtain ⟨row?, known, hs, ha⟩ := he.of_call
  have hrow (entity : String) (heq : row? = some entity) := (known entity heq).2
  cases h with
  | rowWise operator_mem brought hrows =>
    obtain ⟨hstream, hbody, rows⟩ := brought.driven hrec hp hs hrow (ha _ (.head _))
    refine ⟨driven_stream.2 ⟨hstream.1, driven_call.2 ⟨Operator.drives_rowWise operator_mem _, ?_⟩,
      hstream.2.2⟩, fun t entity heq hy => ?_⟩
    · have ordered : (Expr.call .asOrdered [_] none).Driven := driven_call.2 ⟨rfl, by simpa using hstream.2.1⟩
      rcases hrows with rfl | rfl
      · simpa [JoinedBody.toLambda] using ⟨hstream.2.1, hbody⟩
      · exact List.forall_mem_cons.2 ⟨ordered, by simpa [JoinedBody.toLambda] using hbody⟩
    · rw [← Stream.selector_of_toExpr heq]
      cases hy with
      | kept _ hy => exact rows entity hy
      | select => simp at operator_mem
  | select run =>
    obtain ⟨hstream, rows⟩ := expandSelect_driven hrec run hp hs hrow (ha _ (.head _))
    refine ⟨driven_toExpr.2 hstream, fun t entity heq hy => ?_⟩
    rw [← Stream.selector_of_toExpr heq]
    cases hy with
    | kept keeps _ => cases keeps
    | select hy hsel => exact rows _ entity hy hsel
  | join run =>
    -- Of the lambdas of a join, nothing is known.
    have hnone : row? = none := by
      cases row? with
      | none => rfl
      | some entity => exact absurd (known entity rfl).1 (by simp [Operator.pairsSources])
    subst hnone
    refine ⟨driven_toExpr.2 (expandJoin_driven hrec run hp hs (ha _ (by simp)) (ha _ (by simp))
      (ha _ (by simp)) (ha _ (by simp))), fun t entity _ hy => ?_⟩
    cases hy with
    | kept keeps _ => cases keeps
  | selectMany run =>
    refine ⟨driven_toExpr.2 (expandSelectMany_driven hrec hroot run hp hs hrow (ha _ (.head _))
      fun d hd => ha d (.tail _ (List.mem_of_mem_head? hd))), fun t entity _ hy => ?_⟩
    cases hy with
    | kept keeps _ => cases keeps
  | terminal length_le registered kind run =>
    exact expandTerminal_driven hrec registered kind length_le run hp he

end Queries

namespace Shop

end Shop

namespace Shop

end Shop

end EntityQuery
