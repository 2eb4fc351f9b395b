import EntityQuery.Expansion.Expand
import EntityQuery.Proofs.RowWise

/-!
# What the steps of an expansion have done

One inversion for each step whose text has more than one way through: from a successful run it tells
which way was taken, what ran on it, and what the result is made of. Nothing is assumed of the
expressions, of the forest or of the catalog.
-/

namespace EntityQuery

open EntityQuery.Expr

variable {M : Model} {p p' : Progress} {recur : Recur} {e : Expr} {s s' : Stream}

section Binding

variable {r : RowRef} {name : String}

/-- A member of a row stays a member, if no navigation leads along it, or it becomes the reference to a
field or to the target of a navigation. -/
theorem Runs.bindRowMember_cases (h : Runs (bindRowMember r name) M p e p') :
    e = .member (.rowRef r) name ∧ p = p' ∧ ((p.forest.node r.node).isCollection = true ∨
        ∀ entity, (p.forest.node r.node).entity = some entity → M.catalog.navigation? entity name = none) ∨
      (∃ c, (p.forest.child? r.node name).filter (fun c => (p.forest.node c).field.isSome) = some c ∧
        e = p.forest.ref c ∧ p = p') ∨
      ∃ entity edge child forest tally, (p.forest.node r.node).isCollection = false ∧
        (p.forest.node r.node).entity = some entity ∧ M.catalog.navigation? entity name = some edge ∧
        p.forest.follow r.node edge = (child, forest) ∧ p' = { p with forest, tally } ∧
        e = forest.ref child := by
  simp only [bindRowMember, Runs.bind_iff, Runs.forest_iff] at h
  obtain ⟨_, _, ⟨rfl, rfl⟩, h⟩ := h
  split at h
  · next hcollection =>
    obtain ⟨rfl, rfl⟩ := Runs.pure_iff.1 h
    exact .inl ⟨rfl, rfl, .inl hcollection⟩
  · next hsingle =>
    split at h
    · next c hc =>
      obtain ⟨rfl, rfl⟩ := Runs.pure_iff.1 h
      exact .inr (.inl ⟨c, hc, rfl, rfl⟩)
    · split at h
      · next he =>
        obtain ⟨rfl, rfl⟩ := Runs.pure_iff.1 h
        exact .inl ⟨rfl, rfl, .inr fun entity hentity => by simp [he] at hentity⟩
      · next entity he =>
        have h' := h
        simp only [bindNavigation, Runs.bind_iff, Runs.entityType_iff] at h
        obtain ⟨t, _, ⟨ht, rfl⟩, h⟩ := h
        split at h
        · next hnone =>
          obtain ⟨rfl, rfl⟩ := Runs.pure_iff.1 h
          refine .inl ⟨rfl, rfl, .inr fun entity' hentity => ?_⟩
          obtain rfl := Option.some.inj (he.symm.trans hentity)
          rw [Catalog.navigation?, ht]
          exact hnone
        · next edge hedge =>
          have hnav : M.catalog.navigation? entity name = some edge :=
            Catalog.navigation?_eq_some.2 ⟨t, ht, hedge⟩
          obtain ⟨child, forest, tally, hfollow, hp, he'⟩ := Runs.bindNavigation_edge hnav h'
          exact .inr (.inr ⟨entity, edge, child, forest, tally, Bool.of_not_eq_true hsingle, he, hnav,
            hfollow, hp, he'⟩)

/-- The filter that stands for a collection compares keys of its owner and of the element, which are those of
the navigation. It is noted for the owner's navigation. -/
theorem Runs.collectionFilter_eq (h : Runs (EntityQuery.collectionFilter r) M p e p') :
    ∃ edge owner element ownerKey elementKey, (p.forest.node r.node).edge = some edge ∧
      (p.forest.node r.node).parent = some owner ∧
      e = .call .filter [.entitySet edge.target, .lambda [element]
        (membership (p.forest.ref owner) element ownerKey elementKey)]
        (some (.collection ((p.forest.node owner).entity.getD "") edge.name)) ∧
      p'.forest = p.forest.remove r.node ∧
      (∃ t, M.catalog.type? ((p.forest.node owner).entity.getD "") = some t ∧
        t.propertiesNamed edge.sourceKey = .ok ownerKey) ∧
      ∃ t, M.catalog.type? edge.target = some t ∧ t.propertiesNamed edge.targetKey = .ok elementKey := by
  simp only [EntityQuery.collectionFilter, Runs.bind_iff, Runs.node_iff] at h
  obtain ⟨_, _, ⟨rfl, rfl⟩, h⟩ := h
  split at h
  · next edge owner hedge howner =>
    simp only [Runs.bind_iff, Runs.node_iff, Runs.entityType_iff, Runs.ofCatalog_iff] at h
    obtain ⟨_, _, ⟨rfl, rfl⟩, ownerType, _, ⟨hownerType, rfl⟩, targetType, _, ⟨htargetType, rfl⟩, ownerKey, _,
      ⟨hownerKey, rfl⟩, elementKey, _, ⟨helementKey, rfl⟩, h⟩ := h
    split at h
    · simp only [Runs.bind_iff, Runs.throw_iff, false_and, exists_false] at h
    · simp only [Runs.bind_iff, Runs.freshName_iff, Runs.ref_iff, Runs.modifyForest_iff,
        Runs.pure_iff] at h
      obtain ⟨element, _, ⟨-, rfl⟩, _, _, ⟨rfl, rfl⟩, _, _, rfl, rfl, rfl⟩ := h
      exact ⟨edge, owner, element, ownerKey, elementKey, hedge, howner, rfl, rfl, ⟨ownerType, hownerType, hownerKey⟩,
        targetType, htargetType, helementKey⟩
  · exact (Runs.throw_iff.1 h).elim

theorem Runs.filterCollections_iff : Runs (filterCollections e) M p e' p' ↔
    Runs (e.descend (EntityQuery.collectionAt p.forest)) M p e' p' := Iff.rfl

/-- What takes the place of a collection: its filter, or a count of it. -/
theorem Runs.collectionAt {f : Forest} {x : Expansion Expr} {e' : Expr}
    (hat : EntityQuery.collectionAt f e = some x) (h : Runs x M p e' p') :
    ∃ r, (f.node r.node).isCollection = true ∧
      (e = .rowRef r ∧ Runs (EntityQuery.collectionFilter r) M p e' p' ∨
        ∃ name filter, e = .member (.rowRef r) name ∧
          Runs (EntityQuery.collectionFilter r) M p filter p' ∧ e' = .call .count [filter] none) := by
  unfold EntityQuery.collectionAt at hat
  split at hat
  · next r name =>
    split at hat <;> cases hat
    next hmany =>
    split at h
    · simp only [Runs.bind_iff, Runs.pure_iff] at h
      obtain ⟨filter, _, hfilter, rfl, rfl⟩ := h
      exact ⟨r, hmany, .inr ⟨name, filter, rfl, hfilter, rfl⟩⟩
    · exact (Runs.throw_iff.1 h).elim
  · next r =>
    split at hat <;> cases hat
    next hmany => exact ⟨r, hmany, .inl ⟨rfl, h⟩⟩
  · cases hat

end Binding

section Joining

/-- What every join along a navigation keeps is kept when everything is joined that expressions refer
to. -/
theorem joinReferenced_keeps {P : Progress → Stream → Prop} {es : List Expr} {k : Nat}
    (step : ∀ {p p' s s' n}, P p s → Runs (joinNode s n) M p s' p' → P p' s')
    (project : ∀ {p s}, P p s → P p { s with needsProjection := true })
    (h : Runs (joinReferenced s es) M p (s', k) p') (hs : P p s) : P p' s' := by
  have nodes {needed ns : List NodeId} {p p' s s' k} (h : Runs (joinNodes needed s ns) M p (s', k) p')
      (hs : P p s) : P p' s' := by
    induction ns generalizing p s k with
    | nil =>
      obtain ⟨heq, rfl⟩ := Runs.pure_iff.1 h
      cases heq
      exact hs
    | cons n ns ih =>
      simp only [joinNodes, Runs.bind_iff, Runs.node_iff] at h
      obtain ⟨_, _, ⟨rfl, rfl⟩, h⟩ := h
      split at h
      · simp only [Runs.bind_iff, Runs.pure_iff, Prod.exists] at h
        obtain ⟨s₁, q, hjoin, s₂, l, _, hrest, heq, rfl⟩ := h
        cases heq
        exact ih hrest (step hs hjoin)
      · exact ih h hs
  have sources {needed : List NodeId} {l : List SourceId} {p p' s s' k}
      (h : Runs (joinSources needed s l) M p (s', k) p') (hs : P p s) : P p' s' := by
    induction l generalizing p s k with
    | nil =>
      obtain ⟨heq, rfl⟩ := Runs.pure_iff.1 h
      cases heq
      exact hs
    | cons source l ih =>
      simp only [joinSources, Runs.bind_iff, Runs.forest_iff, Runs.pure_iff, Prod.exists] at h
      obtain ⟨_, _, ⟨rfl, rfl⟩, s₁, k₁, q, hnodes, s₂, k₂, _, hrest, heq, rfl⟩ := h
      cases heq
      exact ih hrest (nodes hnodes hs)
  simp only [EntityQuery.joinReferenced, Runs.bind_iff, Runs.forest_iff, Runs.pure_iff, Prod.exists] at h
  obtain ⟨_, _, ⟨rfl, rfl⟩, s₁, k₁, _, hrun, heq, rfl⟩ := h
  have joined := sources hrun hs
  cases heq
  split
  · exact joined
  · exact project joined

/-- A join along keys is a call of `Join`, or a `GroupJoin` with its groups flattened. -/
theorem Runs.keyedJoin_cases {outer inner : Expr} {outerKey innerKey : JoinKey} {note : JoinNote}
    (h : Runs (EntityQuery.keyedJoin outer inner outerKey innerKey note) M p e p') :
    p'.forest = p.forest ∧ (note.kind = .inner ∧ e = innerJoin outer inner outerKey innerKey note ∨
      note.kind = .leftOuter ∧ ∃ group row, e = flattenedJoin outer inner outerKey innerKey note group row) := by
  rw [EntityQuery.keyedJoin] at h
  split at h
  · next hkind =>
    obtain ⟨rfl, rfl⟩ := Runs.pure_iff.1 h
    exact ⟨rfl, .inl ⟨hkind, rfl⟩⟩
  · next hkind =>
    obtain ⟨rfl, rfl⟩ := Runs.leftOuterJoin h
    exact ⟨rfl, .inr ⟨hkind, _, _, rfl⟩⟩

/-- The forest after a merge: joins have wrapped the rows of both streams, and the inner ones can be
missing if the join says so. -/
def Forest.merged (f : Forest) (outer inner : List SourceId) (kind : JoinKind) : Forest :=
  inner.foldl (fun f s =>
    let f := f.wrap [innerField] s
    if kind = .leftOuter then f.makeOptional s else f) (outer.foldl (·.wrap kind.wrapPath) f)

/-- The merged streams over given rows. -/
def mergedOver (outer inner : Stream) (parameter : String) (rows : Expr) : MergedStreams where
  stream := {
    parameter, sources := outer.sources ++ inner.sources, needsProjection := true, ordered := false
    cardinality := none, rows, selector := .null }
  outerSelector := outer.selector
  innerSelector := inner.selector

/-- What a merge calls the inner rows: if the two streams name their rows alike, the inner ones get another
name. -/
def mergedName (outer inner : Stream) (names : Nat) : String :=
  if inner.parameter = outer.parameter then inner.parameter ++ toString (names + 1) else inner.parameter

/-- The names that a merge generates so that the streams name their rows differently. -/
def renamedRows (outer inner : Stream) (names : Nat) : List String :=
  if inner.parameter = outer.parameter then [mergedName outer inner names] else []

/-- The key of the inner rows by their name in the merge. -/
def mergedKey (outer inner : Stream) (names : Nat) (key : Expr) : Expr :=
  if inner.parameter = outer.parameter then
    key.substitute inner.parameter (.param (mergedName outer inner names))
  else key

/-- A merge by keys. -/
theorem Runs.mergeStreams_keyed {outer inner : Stream} {outerKey innerKey : Expr} {note : JoinNote}
    {m : MergedStreams}
    (h : Runs (mergeStreams outer inner (.keyed outerKey innerKey note)) M p m p') :
    ∃ rows q q',
      q.forest = p.forest ∧
      q.names = p.names + (renamedRows outer inner p.names).length ∧
      Runs (EntityQuery.keyedJoin outer.rows inner.rows ⟨outer.parameter, outerKey⟩
        ⟨mergedName outer inner p.names, mergedKey outer inner p.names innerKey⟩ note) M q rows q' ∧
      m = mergedOver outer inner (generatedName 't' (q'.names + 1)) rows ∧
      p'.forest = q'.forest.merged outer.sources inner.sources note.kind ∧ p'.names = q'.names + 1 := by
  rw [mergeStreams] at h
  split at h
  · next hclash =>
    simp only [Runs.bind_iff, Runs.freshName_iff, Runs.modifyTally_iff, Runs.pure_iff,
      Runs.modifyForest_iff] at h
    obtain ⟨_, _, ⟨rfl, rfl⟩, rows, q', hjoin, _, _, rfl, _, _, ⟨rfl, rfl⟩, _, _, rfl, _, _, ⟨rfl, rfl⟩,
      rfl, rfl⟩ := h
    rw [mergedKey, mergedName, renamedRows, if_pos hclash, if_pos hclash, if_pos hclash]
    exact ⟨rows, { p with names := p.names + 1 }, q', rfl, rfl, hjoin, rfl, rfl, rfl⟩
  · next hclash =>
    simp only [Runs.bind_iff, Runs.freshName_iff, Runs.modifyTally_iff, Runs.pure_iff,
      Runs.modifyForest_iff] at h
    obtain ⟨_, _, ⟨rfl, rfl⟩, rows, q', hjoin, _, _, rfl, _, _, ⟨rfl, rfl⟩, _, _, rfl, _, _, ⟨rfl, rfl⟩,
      rfl, rfl⟩ := h
    rw [mergedKey, mergedName, renamedRows, if_neg hclash, if_neg hclash, if_neg hclash]
    exact ⟨rows, _, q', rfl, rfl, hjoin, rfl, rfl, rfl⟩

/-- A merge of correlated rows. -/
theorem Runs.mergeStreams_correlated {outer inner : Stream} {m : MergedStreams}
    (h : Runs (mergeStreams outer inner .correlated) M p m p') :
    ∃ names, names = p.names + (renamedRows outer inner p.names).length ∧
      m = mergedOver outer inner (generatedName 't' (names + 1)) (.call .selectMany
        [outer.rows, .lambda [outer.parameter] inner.rows,
          pairing outer.parameter (mergedName outer inner p.names)] none) ∧
      p'.forest = p.forest.merged outer.sources inner.sources .inner ∧ p'.names = names + 1 := by
  rw [mergeStreams] at h
  split at h
  · next hclash =>
    simp only [Runs.bind_iff, Runs.freshName_iff, Runs.pure_iff, Runs.modifyForest_iff] at h
    obtain ⟨_, _, ⟨rfl, rfl⟩, _, _, ⟨rfl, rfl⟩, _, _, rfl, _, _, ⟨rfl, rfl⟩, rfl, rfl⟩ := h
    rw [mergedName, renamedRows, if_pos hclash, if_pos hclash]
    exact ⟨p.names + 1, rfl, rfl, rfl, rfl⟩
  · next hclash =>
    simp only [Runs.bind_iff, Runs.freshName_iff, Runs.pure_iff, Runs.modifyForest_iff] at h
    obtain ⟨_, _, ⟨rfl, rfl⟩, _, _, ⟨rfl, rfl⟩, _, _, rfl, _, _, ⟨rfl, rfl⟩, rfl, rfl⟩ := h
    rw [mergedName, renamedRows, if_neg hclash, if_neg hclash]
    exact ⟨_, rfl, rfl, rfl, rfl⟩

/-- A stream is materialized by applying its selector; its new selector is the reference to the root
of a new source. -/
theorem Runs.materialize {entity? : Option String}
    (h : Runs (EntityQuery.materialize s entity?) M p s' p') : s' = s ∧ p = p' ∨
      ∃ body q source q',
        Runs (s.resolve s.selector) M p body q ∧
        Runs (projectedSource s.selector entity?) M q source q' ∧
        p'.forest = q'.forest ∧
        s' = { s with
          rows := .call .select [s.rows, .lambda [s.parameter] body] none, sources := [source]
          selector := q'.forest.ref (q'.forest.root source), needsProjection := false } := by
  simp only [EntityQuery.materialize, Runs.bind_iff, Runs.forest_iff] at h
  obtain ⟨_, _, ⟨rfl, rfl⟩, h⟩ := h
  split at h
  · exact .inl (Runs.pure_iff.1 h)
  · simp only [Runs.bind_iff, Runs.modifyTally_iff, Runs.forest_iff, Runs.ref_iff, Runs.pure_iff] at h
    obtain ⟨body, q, hbody, source, q', hsource, _, _, rfl, _, _, ⟨rfl, rfl⟩, _, _, ⟨rfl, rfl⟩, rfl,
      rfl⟩ := h
    exact .inr ⟨body, q, source, q', hbody, hsource, rfl, rfl⟩

end Joining

section Lambdas

variable {operator : Operator} {source lambda body : Expr} {x y : String} {b : JoinedBody}

theorem Runs.expectUnary_iff : Runs (expectUnary operator e) M p (x, body) p' ↔
    e = .lambda [x] body ∧ p = p' := by
  unfold expectUnary
  split
  · simp only [Runs.pure_iff, Prod.mk.injEq, Expr.lambda.injEq, List.cons.injEq, and_true]
    simp only [eq_comm]
  · next hne =>
    rw [Runs.throw_iff, false_iff]
    rintro ⟨rfl, -⟩
    exact hne _ _ rfl

theorem Runs.expectBinary_iff : Runs (expectBinary operator e) M p (x, y, body) p' ↔
    e = .lambda [x, y] body ∧ p = p' := by
  unfold expectBinary
  split
  · simp only [Runs.pure_iff, Prod.mk.injEq, Expr.lambda.injEq, List.cons.injEq, and_true]
    simp only [eq_comm, and_assoc]
  · next hne =>
    rw [Runs.throw_iff, false_iff]
    rintro ⟨rfl, -⟩
    exact hne _ _ _ rfl

theorem Runs.joinBody (h : Runs (EntityQuery.joinBody recur s x body) M p b p') : ∃ q s' k,
    Runs (prepareBody recur (body.substitute x s.selector)) M p b.body q ∧
    Runs (EntityQuery.joinReferenced s [b.body]) M q (s', k) p' ∧
    (b.stream = s' ∨ b.stream = { s' with parameter := x }) := by
  simp only [EntityQuery.joinBody, Runs.bind_iff, Runs.pure_iff, Prod.exists] at h
  obtain ⟨body, q, hbody, s', k, _, hjoin, rfl, rfl⟩ := h
  refine ⟨q, s', k, hbody, hjoin, ?_⟩
  dsimp only
  split
  · exact .inl rfl
  · exact .inr rfl

theorem Runs.resolvedBody (h : Runs (EntityQuery.resolvedBody recur s x body) M p b p') : ∃ b₀ q,
    Runs (EntityQuery.joinBody recur s x body) M p b₀ q ∧
    Runs (b₀.stream.resolve b₀.body) M q b.body p' ∧ b.stream = b₀.stream ∧ b.joins = b₀.joins := by
  simp only [EntityQuery.resolvedBody, Runs.bind_iff, Runs.pure_iff] at h
  obtain ⟨b₀, q, hjoin, body, _, hbody, rfl, rfl⟩ := h
  exact ⟨b₀, q, hjoin, hbody, rfl, rfl⟩

theorem Runs.expandSelect_cases (h : Runs (EntityQuery.expandSelect recur source lambda) M p s p') :
    ∃ x body s₀ q b q', lambda = .lambda [x] body ∧
      Runs (EntityQuery.expandSource recur source) M p s₀ q ∧
      Runs (EntityQuery.joinBody recur s₀ x body) M q b q' ∧ Runs (aliasFields b.body) M q' () p' ∧
      ∃ needsProjection,
        s = { b.stream with selector := b.body, ordered := false, needsProjection } := by
  simp only [EntityQuery.expandSelect, Runs.bind_iff, Prod.exists, Runs.expectUnary_iff, Runs.pure_iff,
    Runs.forest_iff] at h
  obtain ⟨x, body, _, ⟨rfl, rfl⟩, s₀, q, hsource, b, q', hbody, _, _, halias, _, _, ⟨rfl, rfl⟩, rfl,
    rfl⟩ := h
  exact ⟨x, body, s₀, q, b, q', rfl, hsource, hbody, halias, _, rfl⟩

/-- One lambda of an operator, brought over the rows of the operator's source and resolved there. -/
def Brought (recur : Recur) (M : Model) (p : Progress) (source lambda : Expr) (b : JoinedBody)
    (p' : Progress) : Prop :=
  ∃ x body s q, lambda = .lambda [x] body ∧ Runs (expandSource recur source) M p s q ∧
    Runs (EntityQuery.resolvedBody recur s x body) M q b p'

/-- What a call of an operator has been expanded to. -/
inductive Expanded (recur : Recur) (M : Model) (p : Progress) :
    Operator → List Expr → Option CallNote → Expr → Progress → Prop where
  /-- The operator is applied to the rows, with its lambda resolved over them. A filter keeps its note. -/
  | rowWise {operator : Operator} {source lambda rows : Expr} {note note' : Option CallNote}
    {b : JoinedBody} {ordered : Bool} {p' : Progress}
    (operator_mem : operator ∈
      [.filter, .orderBy, .orderByDescending, .thenBy, .thenByDescending])
    (brought : Brought recur M p source lambda b p')
    (rows_eq : rows = b.stream.rows ∨ rows = .call .asOrdered [b.stream.rows] none)
    (note_eq : note' = if operator = .filter then note else none) :
    Expanded recur M p operator [source, lambda] note
      { b.stream with rows := .call operator [rows, b.toLambda] note', ordered : Stream }.toExpr p'
  | select {source lambda : Expr} {note : Option CallNote} {s : Stream} {p' : Progress}
    (run : Runs (expandSelect recur source lambda) M p s p') :
    Expanded recur M p .select [source, lambda] note s.toExpr p'
  | join {outer inner outerKey innerKey result : Expr} {note : Option CallNote} {s : Stream}
    {p' : Progress} (run : Runs (expandJoin recur outer inner outerKey innerKey result) M p s p') :
    Expanded recur M p .join [outer, inner, outerKey, innerKey, result] note s.toExpr p'
  | selectMany {source lambda : Expr} {rest : List Expr} {note : Option CallNote} {s : Stream}
    {p' : Progress} (run : Runs (expandSelectMany recur source lambda rest.head?) M p s p') :
    Expanded recur M p .selectMany (source :: lambda :: rest) note s.toExpr p'
  | terminal {operator : Operator} {source : Expr} {rest : List Expr} {note : Option CallNote} {e : Expr}
    {info : OperatorInfo} {p' : Progress} (length_le : rest.length ≤ 1)
    (registered : operator.info? = some info) (kind : info.kind = .terminating)
    (run : Runs (expandTerminal recur operator (source :: rest)) M p e p') :
    Expanded recur M p operator (source :: rest) note e p'

theorem Operator.info?_eq_some {info : OperatorInfo} (h : operator.info? = some info) :
    info.operator = operator ∧
      (info.kind = .terminating → 1 ≤ info.minArguments ∧ info.maxArguments ≤ 2) := by
  cases operator <;> cases h <;> decide

theorem Runs.expandFilter_brought {note : Option CallNote}
    (h : Runs (EntityQuery.expandFilter recur source lambda note) M p s p') : ∃ b,
      Brought recur M p source lambda b p' ∧
      s = { b.stream with
        rows := .call .filter [b.stream.rows, b.toLambda] note, ordered := false } := by
  simp only [EntityQuery.expandFilter, Runs.bind_iff, Prod.exists, Runs.expectUnary_iff,
    Runs.pure_iff] at h
  obtain ⟨x, body, _, ⟨rfl, rfl⟩, s₀, q, hsource, b, _, hbody, rfl, rfl⟩ := h
  exact ⟨b, ⟨x, body, s₀, q, rfl, hsource, hbody⟩, rfl⟩

theorem Runs.expandOrderBy_brought
    (h : Runs (EntityQuery.expandOrderBy recur operator source lambda) M p s p') : ∃ b,
      Brought recur M p source lambda b p' ∧
      s = { b.stream with
        rows := .call operator [b.stream.rows, b.toLambda] none, ordered := true } := by
  simp only [EntityQuery.expandOrderBy, Runs.bind_iff, Prod.exists, Runs.expectUnary_iff,
    Runs.pure_iff] at h
  obtain ⟨x, body, _, ⟨rfl, rfl⟩, s₀, q, hsource, b, _, hbody, rfl, rfl⟩ := h
  exact ⟨b, ⟨x, body, s₀, q, rfl, hsource, hbody⟩, rfl⟩

theorem Runs.expandThenBy_brought
    (h : Runs (expandThenBy recur operator source lambda) M p s p') : ∃ b rows,
      Brought recur M p source lambda b p' ∧
      (rows = b.stream.rows ∨ rows = .call .asOrdered [b.stream.rows] none) ∧
      s = { b.stream with rows := .call operator [rows, b.toLambda] none, ordered := true } := by
  simp only [expandThenBy, Runs.bind_iff, Prod.exists, Runs.expectUnary_iff] at h
  obtain ⟨x, body, _, ⟨rfl, rfl⟩, s₀, q, hsource, h⟩ := h
  split at h
  · simp only [Runs.bind_iff, Runs.throw_iff, false_and, exists_false] at h
  · simp only [Runs.bind_iff, Runs.pure_iff] at h
    obtain ⟨b, _, hbody, rfl, rfl⟩ := h
    refine ⟨b, _, ⟨x, body, s₀, q, rfl, hsource, hbody⟩, ?_, rfl⟩
    split
    · exact .inl rfl
    · exact .inr rfl

theorem Runs.expandCall {arguments : List Expr} {note : Option CallNote}
    (h : Runs (EntityQuery.expandCall recur operator arguments note) M p e p') :
    Expanded recur M p operator arguments note e p' := by
  have stream {x : Expansion Stream} (h : Runs (do return (← x).toExpr) M p e p') :
      ∃ s, Runs x M p s p' ∧ e = s.toExpr := by
    simp only [Runs.bind_iff, Runs.pure_iff] at h
    obtain ⟨s, _, hrun, rfl, rfl⟩ := h
    exact ⟨s, hrun, rfl⟩
  unfold EntityQuery.expandCall at h
  split at h
  · next info hinfo =>
    obtain ⟨hoperator, hterminating⟩ := Operator.info?_eq_some hinfo
    dsimp only at h
    split at h
    · simp only [Runs.bind_iff, Runs.throw_iff, false_and, exists_false] at h
    · next hcount =>
      simp only [expandOperator, hoperator] at h
      split at h
      · obtain ⟨s, hrun, rfl⟩ := stream h
        obtain ⟨b, brought, rfl⟩ := Runs.expandFilter_brought hrun
        exact .rowWise (by decide) brought (.inl rfl) rfl
      · obtain ⟨s, hrun, rfl⟩ := stream h
        exact .select hrun
      · obtain ⟨s, hrun, rfl⟩ := stream h
        obtain ⟨b, brought, rfl⟩ := Runs.expandOrderBy_brought hrun
        exact .rowWise (by decide) brought (.inl rfl) rfl
      · obtain ⟨s, hrun, rfl⟩ := stream h
        obtain ⟨b, brought, rfl⟩ := Runs.expandOrderBy_brought hrun
        exact .rowWise (by decide) brought (.inl rfl) rfl
      · obtain ⟨s, hrun, rfl⟩ := stream h
        obtain ⟨b, rows, brought, hrows, rfl⟩ := Runs.expandThenBy_brought hrun
        exact .rowWise (by decide) brought hrows rfl
      · obtain ⟨s, hrun, rfl⟩ := stream h
        obtain ⟨b, rows, brought, hrows, rfl⟩ := Runs.expandThenBy_brought hrun
        exact .rowWise (by decide) brought hrows rfl
      · obtain ⟨s, hrun, rfl⟩ := stream h
        exact .join hrun
      · obtain ⟨s, hrun, rfl⟩ := stream h
        exact .selectMany hrun
      · split at h
        · next hkind =>
          obtain ⟨hmin, hmax⟩ := hterminating hkind
          cases arguments with
          | nil =>
            simp only [List.length_nil, Bool.or_eq_true, decide_eq_true_eq] at hcount
            omega
          | cons source rest =>
            refine .terminal ?_ hinfo hkind h
            simp only [List.length_cons, Bool.or_eq_true, decide_eq_true_eq] at hcount
            omega
        · exact (Runs.throw_iff.1 h).elim
  · exact (Runs.throw_iff.1 h).elim

end Lambdas

section Hoisting

variable {plan : HoistPlan}

/-- What a selector is that can be hoisted: a row-wise chain over a navigation filter, possibly under a
`DefaultIfEmpty`. -/
theorem HoistPlan.ofSelector_eq_ok (h : HoistPlan.ofSelector e = .ok plan) :
    ∃ chain filter body rest,
      (e = chain ∨ ∃ further note, e = .call .defaultIfEmpty (chain :: further) note) ∧
      chain.navigationFilter? = some (filter, true) ∧
      filter.arguments = .entitySet plan.target :: .lambda [plan.parameter] body :: rest ∧
      body.keyPair? plan.parameter = some (plan.innerKey, plan.outerKey) ∧
      plan.chain = chain.withoutFilter plan.target ∧ plan.chain.rowRefs = [] := by
  unfold HoistPlan.ofSelector at h
  obtain ⟨⟨chain, leftOuter⟩, hsplit, h⟩ := Except.bind_eq_ok.1 h
  have hchain : e = chain ∨ ∃ further note, e = .call .defaultIfEmpty (chain :: further) note := by
    unfold splitDefault at hsplit
    split at hsplit <;> cases hsplit
    · exact .inr ⟨_, _, rfl⟩
    · exact .inl rfl
  dsimp only at h
  split at h
  · next filter rowWise hfilter =>
    split at h
    · cases h
    · next hrowWise =>
      split at h
      · next target _ htarget =>
        split at h
        · next params body rest hbody =>
          replace h := Except.bind_eq_ok.1 h
          obtain ⟨_, ⟨⟩, h⟩ := h
          replace h := Except.bind_eq_ok.1 h
          obtain ⟨_, ⟨⟩, h⟩ := h
          dsimp only at h
          split at h
          · next parameter =>
            replace h := Except.bind_eq_ok.1 h
            obtain ⟨_, ⟨⟩, h⟩ := h
            split at h
            · next innerKey outerKey hkeys =>
              split at h
              · cases h
              · next hrefs =>
                cases h
                have harguments : filter.arguments =
                    .entitySet target :: .lambda [parameter] body :: rest := by
                  rw [htarget] at hbody
                  cases hbody
                  exact htarget
                refine ⟨chain, filter, body, rest, hchain, ?_, harguments, hkeys, rfl, by simpa using hrefs⟩
                simpa [hfilter] using hrowWise
            · cases h
          · cases h
        · cases h
      · cases h
  · cases h

/-- The keys of a hoisted filter are parts of the two sides of one equality, and only the inner ones
mention the filter's parameter. -/
theorem Expr.keyPair?_eq_some {x : String} {innerKey outerKey : List Expr}
    (h : e.keyPair? x = some (innerKey, outerKey)) :
    ∃ guard a b, e = .binary .and guard (.binary .equal a b) ∧
      ((innerKey = a.tupleParts ∧ outerKey = b.tupleParts ∧ b.mentions x = false ∧ a.mentions x = true) ∨
        (innerKey = b.tupleParts ∧ outerKey = a.tupleParts ∧ a.mentions x = false ∧ b.mentions x = true)) := by
  unfold keyPair? at h
  split at h
  · next a b =>
    split at h
    · cases h
    · obtain ⟨⟨inner, outer⟩, hsides, h⟩ := Option.bind_eq_some_iff.1 h
      have hkeys : innerKey = inner.tupleParts ∧ outerKey = outer.tupleParts := by
        dsimp only at h
        split at h <;> cases h
        exact ⟨rfl, rfl⟩
      clear h
      obtain ⟨rfl, rfl⟩ := hkeys
      split at hsides <;> cases hsides
      · next ha hb => exact ⟨_, _, _, rfl, .inl ⟨rfl, rfl, hb, ha⟩⟩
      · next ha hb => exact ⟨_, _, _, rfl, .inr ⟨rfl, rfl, ha, hb⟩⟩
  · cases h

end Hoisting

section TwoStreams

variable {outer inner : Stream} {m : MergedStreams} {plan : HoistPlan} {collection : Expr}

/-- A result selector is brought over the merged rows; without one the inner rows are the result. -/
theorem Runs.selectResult {result : Option ResultSelector}
    (h : Runs (EntityQuery.selectResult recur m result) M p s p') :
    (result = none ∧ s = { m.stream with selector := m.innerSelector, needsProjection := true } ∧
      p = p') ∨
    ∃ x y body body' q s' k, result = some (x, y, body) ∧
      Runs (prepareBody recur ((body.substitute x m.outerSelector).substitute y m.innerSelector))
        M p body' q ∧
      Runs (EntityQuery.joinReferenced m.stream [body']) M q (s', k) p' ∧
      s = { s' with selector := body', needsProjection := true } := by
  unfold EntityQuery.selectResult at h
  split at h
  · obtain ⟨rfl, rfl⟩ := Runs.pure_iff.1 h
    exact .inl ⟨rfl, rfl, rfl⟩
  · next x y body =>
    simp only [Runs.bind_iff, Runs.pure_iff, Prod.exists] at h
    obtain ⟨body', q, hbody, s', k, _, hjoin, rfl, rfl⟩ := h
    exact .inr ⟨x, y, body, body', q, s', k, rfl, hbody, hjoin, rfl⟩

theorem Runs.expandJoin {outer inner outerKey innerKey result : Expr}
    (h : Runs (EntityQuery.expandJoin recur outer inner outerKey innerKey result) M p s p') :
    ∃ x y z w outerKey' innerKey' result' outer' inner' b c q₁ q₂ q₃ q₄ q₅ m note,
      outerKey = .lambda [x] outerKey' ∧ innerKey = .lambda [y] innerKey' ∧
      result = .lambda [z, w] result' ∧
      Runs (EntityQuery.expandSource recur outer) M p outer' q₁ ∧
      Runs (EntityQuery.expandSource recur inner) M q₁ inner' q₂ ∧
      Runs (EntityQuery.resolvedBody recur outer' x outerKey') M q₂ b q₃ ∧
      Runs (EntityQuery.resolvedBody recur inner' y innerKey') M q₃ c q₄ ∧
      note.kind = .inner ∧ note.navigation = none ∧
      Runs (mergeStreams b.stream c.stream (.keyed b.body c.body note)) M q₄ m q₅ ∧
      Runs (EntityQuery.selectResult recur m (some (z, w, result'))) M q₅ s p' := by
  simp only [EntityQuery.expandJoin, Runs.bind_iff, Prod.exists, Runs.expectUnary_iff,
    Runs.expectBinary_iff] at h
  obtain ⟨x, outerKey', _, ⟨rfl, rfl⟩, y, innerKey', _, ⟨rfl, rfl⟩, z, w, result', _, ⟨rfl, rfl⟩,
    outer', q₁, houter, inner', q₂, hinner, b, q₃, hb, c, q₄, hc, h⟩ := h
  split at h
  · simp only [Runs.bind_iff, Runs.throw_iff, false_and, exists_false] at h
  · simp only [Runs.bind_iff, Runs.forest_iff] at h
    obtain ⟨_, _, ⟨rfl, rfl⟩, m, q₅, hmerge, hresult⟩ := h
    exact ⟨x, y, z, w, outerKey', innerKey', result', outer', inner', b, c, q₁, q₂, q₃, q₄, q₅, m, _,
      rfl, rfl, rfl, houter, hinner, hb, hc, rfl, rfl, hmerge, hresult⟩

/-- The chain of a hoisted selector is expanded over all rows of its target. -/
theorem Runs.expandHoisted {found : Option Stream}
    (h : Runs (EntityQuery.expandHoisted recur plan) M p found p') : ∃ root q inner q',
      Runs (rootStream plan.target) M p root q ∧
      Runs (EntityQuery.expandSource recur (plan.chain.withChainRoot root.toExpr)) M q inner q' ∧
      p'.forest = q'.forest ∧ (found = none ∨ found = some inner) := by
  simp only [EntityQuery.expandHoisted, Runs.bind_iff, Runs.get_iff, Runs.forest_iff] at h
  obtain ⟨_, _, ⟨rfl, rfl⟩, root, q, hroot, inner, q', hinner, _, _, ⟨rfl, rfl⟩, h⟩ := h
  split at h
  · obtain ⟨rfl, rfl⟩ := Runs.pure_iff.1 h
    exact ⟨root, q, inner, _, hroot, hinner, rfl, .inr rfl⟩
  · simp only [Runs.bind_iff, Runs.modifyTally_iff, Runs.pure_iff] at h
    obtain ⟨_, _, rfl, rfl, rfl⟩ := h
    exact ⟨root, q, inner, q', hroot, hinner, rfl, .inl rfl⟩

/-- A hoisted chain is merged by keys that are resolved over the two streams. -/
theorem Runs.hoist (h : Runs (EntityQuery.hoist outer inner plan) M p m p') :
    ∃ target innerParts q outer' k q₁ outerParts q₂ q₃ note,
      Runs (plan.innerKey.mapM fun part => inner.resolve (part.substitute plan.parameter target))
        M p innerParts q ∧
      target = p.forest.ref (p.forest.root (inner.sources.headD default)) ∧
      Runs (EntityQuery.joinReferenced outer plan.outerKey) M q (outer', k) q₁ ∧
      Runs (plan.outerKey.mapM outer'.resolve) M q₁ outerParts q₂ ∧
      note.outerKey = keyNames (.key outerParts) ∧ note.innerKey = keyNames (.key innerParts) ∧
      Runs (mergeStreams outer' inner (.keyed (.key outerParts) (.key innerParts) note)) M q₃ m p' ∧
      q₃.forest = q₂.forest := by
  simp only [EntityQuery.hoist, Runs.bind_iff, Runs.forest_iff, Runs.ref_iff, Runs.modifyTally_iff,
    Prod.exists] at h
  obtain ⟨_, _, ⟨rfl, rfl⟩, target, _, ⟨rfl, rfl⟩, innerParts, q, hinner, outer', k, q₁, hjoin, _, _,
    ⟨rfl, rfl⟩, outerParts, q₂, houter, _, _, rfl, hmerge⟩ := h
  exact ⟨_, innerParts, q, outer', k, _, outerParts, q₂, _, _, hinner, rfl, hjoin, houter, rfl, rfl,
    hmerge, rfl⟩

/-- A correlated collection is resolved over the rows of its owners. -/
theorem Runs.correlate (h : Runs (EntityQuery.correlate recur outer collection) M p m p') :
    ∃ inner q outer' k q₁ rows q₂ q₃,
      Runs (EntityQuery.expandSource recur collection) M p inner q ∧
      Runs (EntityQuery.joinReferenced outer [inner.rows, inner.selector]) M q (outer', k) q₁ ∧
      Runs (outer'.resolve inner.rows) M q₁ rows q₂ ∧
      Runs (mergeStreams outer' { inner with rows } .correlated) M q₃ m p' ∧
      q₃.forest = q₂.forest := by
  simp only [EntityQuery.correlate, Runs.bind_iff, Runs.modifyTally_iff, Prod.exists] at h
  obtain ⟨inner, q, hinner, outer', k, q₁, hjoin, rows, q₂, hrows, _, _, rfl, hmerge⟩ := h
  exact ⟨inner, q, outer', k, q₁, rows, q₂, _, hinner, hjoin, hrows, hmerge, rfl⟩

theorem Runs.hoistPlan {found : Except CorrelationReason HoistPlan}
    (h : Runs (EntityQuery.hoistPlan collection) M p found p') :
    p = p' ∧ ∀ plan, found = .ok plan → HoistPlan.ofSelector collection = .ok plan := by
  simp only [EntityQuery.hoistPlan, Runs.bind_iff, Runs.settings_iff] at h
  obtain ⟨_, _, ⟨rfl, rfl⟩, h⟩ := h
  split at h <;> obtain ⟨rfl, rfl⟩ := Runs.pure_iff.1 h
  · exact ⟨rfl, fun _ h => h⟩
  · exact ⟨rfl, fun _ h => absurd h (by simp)⟩

/-- A collection selector is attached as a join, if there is a plan for it, or as a subquery. -/
theorem Runs.expandSelectMany {source lambda : Expr} {result : Option Expr}
    (h : Runs (EntityQuery.expandSelectMany recur source lambda result) M p s p') :
    ∃ x body result' outer q₁ collection q₂ q₃ m q₄,
      lambda = .lambda [x] body ∧
      (result = none ∧ result' = none ∨
        ∃ y z d, result = some (.lambda [y, z] d) ∧ result' = some (y, z, d)) ∧
      Runs (EntityQuery.expandSource recur source) M p outer q₁ ∧
      Runs (rewriteBody (body.substitute x outer.selector)) M q₁ collection q₂ ∧
      (Runs (EntityQuery.correlate recur outer collection) M q₃ m q₄ ∧
          (q₃ = q₂ ∨ ∃ plan, HoistPlan.ofSelector collection = .ok plan ∧
            Runs (EntityQuery.expandHoisted recur plan) M q₂ none q₃) ∨
        ∃ plan inner, HoistPlan.ofSelector collection = .ok plan ∧
          Runs (EntityQuery.expandHoisted recur plan) M q₂ (some inner) q₃ ∧
          Runs (EntityQuery.hoist outer inner plan) M q₃ m q₄) ∧
      Runs (EntityQuery.selectResult recur m result') M q₄ s p' := by
  simp only [EntityQuery.expandSelectMany, Runs.bind_iff, Prod.exists, Runs.expectUnary_iff] at h
  obtain ⟨x, body, _, ⟨rfl, rfl⟩, result', q₀, hrun, outer, q₁, houter, collection, q₂, hbody,
    found, _, hfound, h⟩ := h
  obtain ⟨rfl, hplan⟩ := Runs.hoistPlan hfound
  have hresult : p = q₀ ∧ (result = none ∧ result' = none ∨
      ∃ y z d, result = some (.lambda [y, z] d) ∧ result' = some (y, z, d)) := by
    cases result with
    | none =>
      obtain ⟨rfl, rfl⟩ := Runs.pure_iff.1 hrun
      exact ⟨rfl, .inl ⟨rfl, rfl⟩⟩
    | some d =>
      simp only [Option.mapM_some, Runs.map_iff, Prod.exists, Runs.expectBinary_iff] at hrun
      obtain ⟨y, z, d, ⟨rfl, rfl⟩, rfl⟩ := hrun
      exact ⟨rfl, .inr ⟨y, z, d, rfl, rfl⟩⟩
  obtain ⟨rfl, hresult⟩ := hresult
  split at h
  · obtain ⟨m, q₄, hmerge, h⟩ := Runs.bind_iff.1 h
    exact ⟨x, body, result', outer, q₁, collection, _, _, m, q₄, rfl, hresult, houter, hbody,
      .inl ⟨hmerge, .inl rfl⟩, h⟩
  · next plan =>
    have hplan := hplan plan rfl
    obtain ⟨found, q₃, hfound, h⟩ := Runs.bind_iff.1 h
    cases found with
    | some inner =>
      obtain ⟨m, q₄, hmerge, h⟩ := Runs.bind_iff.1 h
      exact ⟨x, body, result', outer, q₁, collection, _, q₃, m, q₄, rfl, hresult, houter, hbody,
        .inr ⟨plan, inner, hplan, hfound, hmerge⟩, h⟩
    | none =>
      obtain ⟨m, q₄, hmerge, h⟩ := Runs.bind_iff.1 h
      exact ⟨x, body, result', outer, q₁, collection, _, q₃, m, q₄, rfl, hresult, houter, hbody,
        .inl ⟨hmerge, .inr ⟨plan, hplan, hfound⟩⟩, h⟩

theorem Runs.entityArgument {found : Option Expr} {entity : String}
    (h : Runs (EntityQuery.entityArgument found) M p entity p') : p = p' := by
  unfold EntityQuery.entityArgument at h
  split at h
  · exact (Runs.pure_iff.1 h).2
  · exact (Runs.pure_iff.1 h).2
  · exact (Runs.throw_iff.1 h).elim

/-- The source of an operator without a lambda, and what is left of its further arguments. -/
theorem Runs.expandTerminal {operator : Operator} {source : Expr} {rest : List Expr}
    (h : Runs (EntityQuery.expandTerminal recur operator (source :: rest)) M p e p') : ∃ s q,
      Runs (EntityQuery.expandSource recur (splitPredicate operator source rest).1) M p s q ∧
      (operator.isScalarResult = true ∧ q = p' ∧
          e = .call operator (s.toExpr :: (splitPredicate operator source rest).2) none ∨
        operator.isCardinalityReducing = true ∧ q = p' ∧
          e = { s with cardinality := some operator : Stream }.toExpr ∨
        operator.acceptsPredicate = false ∧ ∃ entity? s' q',
          (operator = .ofType ∨ entity? = none) ∧
          Runs (EntityQuery.materialize s entity?) M q s' q' ∧
          (p'.forest = q'.forest ∨
            p'.forest = s'.sources.foldl (·.makeOptional ·) q'.forest) ∧
          e = (s'.applyOperator operator (splitPredicate operator source rest).2).toExpr) := by
  simp only [EntityQuery.expandTerminal, Runs.bind_iff] at h
  obtain ⟨s, q, hsource, h⟩ := h
  refine ⟨s, q, hsource, ?_⟩
  split at h
  · next hscalar =>
    obtain ⟨rfl, rfl⟩ := Runs.pure_iff.1 h
    exact .inl ⟨hscalar, rfl, rfl⟩
  · split at h
    · next hreducing =>
      obtain ⟨rfl, rfl⟩ := Runs.pure_iff.1 h
      exact .inr (.inl ⟨hreducing, rfl, rfl⟩)
    · refine .inr (.inr ?_)
      split at h
      case h_7 => exact (Runs.throw_iff.1 h).elim
      all_goals simp only [Runs.bind_iff, Runs.pure_iff, Runs.entityType_iff, Runs.modifyForest_iff] at h
      · obtain ⟨s', q', hs', rfl, rfl⟩ := h
        exact ⟨rfl, none, s', _, .inr rfl, hs', .inl rfl, rfl⟩
      · obtain ⟨s', q', hs', rfl, rfl⟩ := h
        exact ⟨rfl, none, s', _, .inr rfl, hs', .inl rfl, rfl⟩
      · obtain ⟨s', q', hs', rfl, rfl⟩ := h
        exact ⟨rfl, none, s', _, .inr rfl, hs', .inl rfl, rfl⟩
      · obtain ⟨s', q', hs', rfl, rfl⟩ := h
        exact ⟨rfl, none, s', _, .inr rfl, hs', .inl rfl, rfl⟩
      · obtain ⟨entity, _, hentity, _, _, ⟨-, rfl⟩, s', q', hs', rfl, rfl⟩ := h
        have hq := Runs.entityArgument hentity
        subst hq
        exact ⟨rfl, some entity, s', _, .inl rfl, hs', .inl rfl, rfl⟩
      · obtain ⟨s', q', hs', _, _, rfl, rfl, rfl⟩ := h
        exact ⟨rfl, none, s', q', .inr rfl, hs', .inr rfl, rfl⟩

end TwoStreams

end EntityQuery
