import EntityQuery.Proofs.Scoping

/-!
# How the forest of an expansion develops

An expansion changes its forest in a few ways only: it follows navigations, adds sources and records, gives
rows further names, removes collections, joins rows and makes them optional. A relation between forests that
holds of these changes one by one (`Development`) holds between the forests before and after an expansion,
whatever the query (`Development.expandWithin`).
-/

namespace EntityQuery

open EntityQuery.Expr

namespace Forest

/-- The forest with fields below a record. -/
def withFields (f : Forest) (record : NodeId) (fields : List EntityField) : Forest :=
  fields.foldl (fun g field => (g.addField record field.name (some field.entity) field.isOptional).2) f

/-- The forest with a source of records whose entities are known. -/
def withRecord (f : Forest) (fields : List EntityField) : Forest :=
  let added := f.addSource none false
  added.2.withFields (added.2.root added.1) fields

end Forest

/-- What makes `R` a relation between a forest and what an expansion makes of it. -/
structure Development (c : Catalog) (R : Forest → Forest → Prop) : Prop where
  refl (f : Forest) : R f f
  trans {f g h : Forest} (hfg : R f g) (hgh : R g h) : R f h
  /-- The navigation is one that the entity of the row declares. -/
  follow {f : Forest} {q : NodeId} {entity : String} {edge : NavigationEdge}
    (hq : (f.node q).entity = some entity) (single : (f.node q).isCollection = false)
    (declared : c.navigation? entity edge.name = some edge) : R f (f.follow q edge).2
  addSource (f : Forest) (entity? : Option String) (isOptional : Bool) : R f (f.addSource entity? isOptional).2
  withRecord (f : Forest) (fields : List EntityField) : R f (f.withRecord fields)
  addAlias (f : Forest) (n : NodeId) (path : List String) : R f (f.addAlias n path)
  remove (f : Forest) (n : NodeId) : R f (f.remove n)
  wrap (f : Forest) (path : List String) (m : SourceId) : R f (f.wrap path m)
  makePresent (f : Forest) (n : NodeId) (place : List String) : R f (f.makePresent n place)
  makeOptional (f : Forest) (m : SourceId) : R f (f.makeOptional m)

/-- The step develops the forest that it finds. -/
def Develops {α : Type} (R : Forest → Forest → Prop) (M : Model) (x : Expansion α) : Prop :=
  ∀ {p a p'}, Runs x M p a p' → R p.forest p'.forest

section Steps

variable {M : Model} {p p' : Progress} {e e' : Expr} {s : Stream}

theorem Stream.resolve_forest (h : Runs (s.resolve e) M p e' p') : p'.forest = p.forest :=
  ((resolution_scoped p.forest).resolve rfl h).1

theorem mapM_resolve_forest {f : Expr → Expr} {es es' : List Expr}
    (h : Runs (es.mapM fun e => s.resolve (f e)) M p es' p') : p'.forest = p.forest :=
  ((resolution_scoped p.forest).mapM_resolve rfl h).1

/-- What each step of a loop keeps is kept by the loop. -/
theorem Runs.forM_keeps {α : Type} {P : Progress → Prop} {f : α → Expansion Unit} {l : List α}
    (step : ∀ a {q u q'}, P q → Runs (f a) M q u q' → P q') {u : Unit}
    (h : Runs (l.forM f) M p u p') (hp : P p) : P p' := by
  induction l generalizing p with
  | nil =>
    obtain ⟨-, rfl⟩ := Runs.pure_iff.1 h
    exact hp
  | cons a l ih =>
    obtain ⟨_, q, ha, h⟩ := Runs.bind_iff.1 (show Runs (f a >>= fun _ => l.forM f) M p u p' from h)
    exact ih h (step a hp ha)

/-- A source for projected rows has rows of an entity, or it is a source of records. -/
theorem Runs.projectedSource_forest {selector : Expr} {entity? : Option String} {m : SourceId}
    (h : Runs (projectedSource selector entity?) M p m p') :
    (∃ entity isOptional, p'.forest = (p.forest.addSource (some entity) isOptional).2) ∨
      ∃ fields, p'.forest = p.forest.withRecord fields := by
  have added {record : NodeId} (fields : List EntityField) {q : Progress} {u : Unit} {q' : Progress}
      (h : Runs (fields.forM fun field => do
        let _ ← Expansion.growForest (·.addField record field.name (some field.entity) field.isOptional)) M q u q') :
      q'.forest = q.forest.withFields record fields := by
    induction fields generalizing q with
    | nil => exact congrArg Progress.forest (Runs.pure_iff.1 h).2.symm
    | cons field fields ih =>
      obtain ⟨_, q₁, hadd, h⟩ := Runs.bind_iff.1
        (show Runs ((do let _ ← Expansion.growForest (·.addField record field.name (some field.entity)
          field.isOptional)) >>= fun _ => fields.forM _) M q u q' from h)
      simp only [Runs.bind_iff, Runs.growForest_iff, Runs.pure_iff] at hadd
      obtain ⟨_, _, ⟨rfl, rfl⟩, -, rfl⟩ := hadd
      exact ih h
  simp only [EntityQuery.projectedSource, Runs.bind_iff, Runs.forest_iff] at h
  obtain ⟨_, _, ⟨rfl, rfl⟩, h⟩ := h
  split at h
  · obtain ⟨rfl, rfl⟩ := Runs.growForest_iff.1 h
    exact .inl ⟨_, _, rfl⟩
  · obtain ⟨rfl, rfl⟩ := Runs.growForest_iff.1 h
    exact .inl ⟨_, _, rfl⟩
  · simp only [Runs.bind_iff, Runs.growForest_iff, Runs.forest_iff, Runs.pure_iff] at h
    obtain ⟨m, _, ⟨rfl, rfl⟩, _, _, ⟨rfl, rfl⟩, _, q, hfields, rfl, rfl⟩ := h
    exact .inr ⟨_, added _ hfields⟩

end Steps

namespace Development

variable {M : Model} {R : Forest → Forest → Prop} {p p' : Progress} {recur : Recur} {e e' : Expr}
  {s s' : Stream} (hR : Development M.catalog R)

include hR

theorem of_eq {f g : Forest} (h : g = f) : R f g := h ▸ hR.refl f

theorem foldl {α : Type} {change : Forest → α → Forest} (h : ∀ (f : Forest) (a : α), R f (change f a))
    (l : List α) (f : Forest) : R f (l.foldl change f) := by
  induction l generalizing f with
  | nil => exact hR.refl f
  | cons a l ih => exact hR.trans (h f a) (ih (change f a))

theorem merged (f : Forest) (outer inner : List SourceId) (kind : JoinKind) :
    R f (f.merged outer inner kind) := by
  refine hR.trans (hR.foldl (fun f m => hR.wrap f kind.wrapPath m) outer f) (hR.foldl (fun f m => ?_) inner _)
  dsimp only
  split
  · exact hR.trans (hR.wrap f _ m) (hR.makeOptional _ m)
  · exact hR.wrap f _ m

section Walks

theorem mapChildren {f : Expr → Expansion Expr} (step : ∀ c ∈ e.children, Develops R M (f c))
    (h : Runs (e.mapChildren f) M p e' p') : R p.forest p'.forest :=
  (Runs.mapChildren_within (fun p q => R p.forest q.forest) (fun p => hR.refl p.forest) hR.trans
    (fun c hc _ _ _ _ hrun => step c hc hrun) h).1

theorem rewrite {act : Expr → Expansion Expr} (hact : ∀ e, Develops R M (act e)) (e : Expr) :
    Develops R M (e.rewrite act) := by
  induction e using children_induction with
  | step e ih =>
    intro p e' p' h
    rw [rewrite_eq, Runs.bind_iff] at h
    obtain ⟨e₁, q, hparts, h⟩ := h
    exact hR.trans (hR.mapChildren ih hparts) (hact e₁ h)

theorem descend {act? : Expr → Option (Expansion Expr)} (hact : ∀ e x, act? e = some x → Develops R M x)
    (e : Expr) : Develops R M (e.descend act?) := by
  induction e using children_induction with
  | step e ih =>
    intro p e' p' h
    rw [descend_eq] at h
    cases hat : act? e with
    | some x =>
      rw [hat] at h
      exact hact e x hat h
    | none =>
      rw [hat] at h
      exact hR.mapChildren ih h

end Walks

section Rewriting

theorem bindMember (target : Expr) (name : String) : Develops R M (bindMember target name) := by
  intro p e p' h
  unfold EntityQuery.bindMember at h
  split at h
  · obtain ⟨-, rfl⟩ := Runs.pure_iff.1 h
    exact hR.refl _
  · rcases Runs.bindRowMember_cases h with ⟨-, rfl, -⟩ | ⟨c, -, -, rfl⟩ |
      ⟨entity, edge, child, forest, tally, single, hentity, hedge, hfollow, rfl, -⟩
    · exact hR.refl _
    · exact hR.refl _
    · have := hR.follow hentity single (Catalog.navigation?_name hedge ▸ hedge)
      rwa [hfollow] at this
  · obtain ⟨-, rfl⟩ := Runs.pure_iff.1 h
    exact hR.refl _

theorem bind (e : Expr) : Develops R M (bind e) := by
  refine hR.rewrite (fun e {p e' p'} h => ?_) e
  split at h
  · exact hR.bindMember _ _ h
  · exact hR.of_eq (congrArg Progress.forest (Runs.pure_iff.1 h).2).symm

theorem compareSides (op : BinaryOp) (a b : Expr) : Develops R M (compareSides op a b) := by
  intro p e p' h
  have built : e.Over (fun _ => True) ∧ _ := compareSides_over h (.operand trivial) (.operand trivial)
    (fun _ _ _ _ => trivial) fun _ _ => trivial
  rcases built.2 with hforest | ⟨n, hforest | ⟨k, hforest⟩⟩ <;> rw [hforest]
  · exact hR.refl _
  · exact hR.remove _ n
  · exact hR.trans (hR.remove _ n) (hR.remove _ k)

theorem compareByKeys (e : Expr) : Develops R M (compareByKeys e) := by
  refine hR.rewrite (fun e {p e' p'} h => ?_) e
  split at h
  · split at h
    · exact hR.compareSides _ _ _ h
    · exact hR.of_eq (congrArg Progress.forest (Runs.pure_iff.1 h).2).symm
  · exact hR.compareSides _ _ _ h
  · exact hR.of_eq (congrArg Progress.forest (Runs.pure_iff.1 h).2).symm

theorem collectionFilter (r : RowRef) : Develops R M (collectionFilter r) := by
  intro p e p' h
  obtain ⟨_, _, _, _, _, -, -, -, hforest, -⟩ := Runs.collectionFilter_eq h
  exact hforest ▸ hR.remove _ _

theorem collectionAt {f : Forest} {x : Expansion Expr} (hat : collectionAt f e = some x) : Develops R M x := by
  intro p e' p' h
  obtain ⟨r, -, ⟨-, hfilter⟩ | ⟨_, _, -, hfilter, -⟩⟩ := Runs.collectionAt hat h
  · exact hR.collectionFilter r hfilter
  · exact hR.collectionFilter r hfilter

theorem filterCollections (e : Expr) : Develops R M (filterCollections e) := by
  intro p e' p' h
  rw [Runs.filterCollections_iff] at h
  exact hR.descend (fun _ _ hat => hR.collectionAt hat) e h

theorem rewriteBody (e : Expr) : Develops R M (rewriteBody e) := by
  intro p e' p' h
  simp only [EntityQuery.rewriteBody, Runs.bind_iff] at h
  obtain ⟨e₁, q, hbind, e₂, q', hcompare, hfilter⟩ := h
  exact hR.trans (hR.bind e hbind) (hR.trans (hR.compareByKeys e₁ hcompare) (hR.filterCollections e₂ hfilter))

theorem subqueryAt (hrec : ∀ e, Develops R M (recur e)) {x : Expansion Expr}
    (hat : subqueryAt recur e = some x) : Develops R M x := by
  unfold EntityQuery.subqueryAt at hat
  split at hat
  · cases hat
    exact fun h => hR.of_eq (congrArg Progress.forest (Runs.pure_iff.1 h).2).symm
  · split at hat <;> cases hat
    exact hrec _
  · cases hat

theorem expandSubqueries (hrec : ∀ e, Develops R M (recur e)) (e : Expr) :
    Develops R M (expandSubqueries recur e) :=
  hR.descend (fun _ _ hat => hR.subqueryAt hrec hat) e

theorem prepareBody (hrec : ∀ e, Develops R M (recur e)) (e : Expr) :
    Develops R M (prepareBody recur e) := by
  intro p e' p' h
  simp only [EntityQuery.prepareBody, Runs.bind_iff] at h
  obtain ⟨e₁, q, hrewrite, hexpand⟩ := h
  exact hR.trans (hR.rewriteBody e hrewrite) (hR.expandSubqueries hrec e₁ hexpand)

end Rewriting

section Streams

variable {x : String} {body : Expr} {b : JoinedBody} {es : List Expr} {k : Nat}

theorem joinNode {n : NodeId} (h : Runs (joinNode s n) M p s' p') : R p.forest p'.forest := by
  obtain ⟨_, _, _, _, _, _, note, _, q, found, -, hforest, -⟩ := Runs.joinNode h
  have hq : q.forest = p.forest := (Runs.keyedJoin_cases found.joined).1
  rw [hforest, hq]
  exact hR.trans (hR.foldl (fun f m => hR.wrap f note.kind.wrapPath m) s.sources _) (hR.makePresent _ n _)

theorem joinReferenced (h : Runs (joinReferenced s es) M p (s', k) p') : R p.forest p'.forest :=
  joinReferenced_keeps (P := fun q _ => R p.forest q.forest)
    (fun hq hrun => hR.trans hq (hR.joinNode hrun)) id h (hR.refl _)

theorem joinBody (hrec : ∀ e, Develops R M (recur e)) (h : Runs (joinBody recur s x body) M p b p') :
    R p.forest p'.forest := by
  obtain ⟨q, s', k, hprepare, hjoin, -⟩ := Runs.joinBody h
  exact hR.trans (hR.prepareBody hrec _ hprepare) (hR.joinReferenced hjoin)

theorem resolvedBody (hrec : ∀ e, Develops R M (recur e)) (h : Runs (resolvedBody recur s x body) M p b p') :
    R p.forest p'.forest := by
  obtain ⟨b₀, q, hjoin, hresolve, -⟩ := Runs.resolvedBody h
  exact hR.trans (hR.joinBody hrec hjoin) (hR.of_eq (Stream.resolve_forest hresolve))

omit hR in
theorem expandSource (hrec : ∀ e, Develops R M (recur e)) (e : Expr) : Develops R M (expandSource recur e) :=
  fun h => hrec e (Runs.expandSource h).1

theorem brought (hrec : ∀ e, Develops R M (recur e)) {source lambda : Expr}
    (h : Brought recur M p source lambda b p') : R p.forest p'.forest := by
  obtain ⟨x, body, s, q, -, hrun, hbody⟩ := h
  exact hR.trans (expandSource hrec _ hrun) (hR.resolvedBody hrec hbody)

theorem aliasFields (e : Expr) : Develops R M (aliasFields e) := by
  intro p _ p' h
  unfold EntityQuery.aliasFields at h
  split at h
  · refine Runs.forM_keeps (P := fun q => R p.forest q.forest) (fun field {q u q'} hq hrun => hR.trans hq ?_) h (hR.refl _)
    dsimp only at hrun
    split at hrun
    · obtain rfl := Runs.modifyForest_iff.1 hrun
      exact hR.addAlias _ _ _
    · obtain ⟨-, rfl⟩ := Runs.pure_iff.1 hrun
      exact hR.refl _
  · obtain ⟨-, rfl⟩ := Runs.pure_iff.1 h
    exact hR.refl _

theorem rootStream (entity : String) : Develops R M (rootStream entity) := by
  intro p s p' h
  simp only [EntityQuery.rootStream, Runs.bind_iff, Runs.entityType_iff, Runs.growForest_iff, Runs.forest_iff,
    Runs.ref_iff, Runs.pure_iff] at h
  obtain ⟨t, _, ⟨-, rfl⟩, m, q, ⟨rfl, rfl⟩, f, _, ⟨rfl, rfl⟩, d, _, ⟨rfl, rfl⟩, rfl, rfl⟩ := h
  exact hR.addSource _ _ _

theorem projectedSource (selector : Expr) (entity? : Option String) :
    Develops R M (projectedSource selector entity?) := by
  intro p m p' h
  rcases Runs.projectedSource_forest h with ⟨entity, isOptional, hforest⟩ | ⟨fields, hforest⟩ <;> rw [hforest]
  · exact hR.addSource _ _ _
  · exact hR.withRecord _ _

theorem materialize {entity? : Option String} (h : Runs (materialize s entity?) M p s' p') :
    R p.forest p'.forest := by
  rcases Runs.materialize h with ⟨-, rfl⟩ | ⟨body, q, source, q', hbody, hsource, hforest, -⟩
  · exact hR.refl _
  · rw [hforest, ← Stream.resolve_forest hbody]
    exact hR.projectedSource _ _ hsource

end Streams

section Operators

variable {outer inner : Stream} {m : MergedStreams} {plan : HoistPlan} {collection : Expr}

theorem mergeStreams_keyed {outerKey innerKey : Expr} {note : JoinNote}
    (h : Runs (mergeStreams outer inner (.keyed outerKey innerKey note)) M p m p') : R p.forest p'.forest := by
  obtain ⟨_, q, q', hq, -, hjoin, -, hforest, -⟩ := Runs.mergeStreams_keyed h
  rw [hforest, (Runs.keyedJoin_cases hjoin).1, hq]
  exact hR.merged _ _ _ _

theorem mergeStreams_correlated (h : Runs (mergeStreams outer inner .correlated) M p m p') :
    R p.forest p'.forest := by
  obtain ⟨_, -, -, hforest, -⟩ := Runs.mergeStreams_correlated h
  exact hforest ▸ hR.merged _ _ _ _

theorem selectResult (hrec : ∀ e, Develops R M (recur e)) (result : Option ResultSelector) :
    Develops R M (selectResult recur m result) := by
  intro p s p' h
  rcases Runs.selectResult h with ⟨-, -, rfl⟩ | ⟨_, _, _, _, q, _, _, -, hprepare, hjoin, -⟩
  · exact hR.refl _
  · exact hR.trans (hR.prepareBody hrec _ hprepare) (hR.joinReferenced hjoin)

theorem expandSelect (hrec : ∀ e, Develops R M (recur e)) (source lambda : Expr) :
    Develops R M (expandSelect recur source lambda) := by
  intro p s p' h
  obtain ⟨_, _, _, q, b, q', -, hrun, hbody, halias, -⟩ := Runs.expandSelect_cases h
  exact hR.trans (expandSource hrec _ hrun) (hR.trans (hR.joinBody hrec hbody) (hR.aliasFields _ halias))

theorem expandJoin (hrec : ∀ e, Develops R M (recur e)) (outer inner outerKey innerKey result : Expr) :
    Develops R M (expandJoin recur outer inner outerKey innerKey result) := by
  intro p s p' h
  obtain ⟨_, _, _, _, _, _, _, _, _, _, _, _, _, _, _, _, _, _, -, -, -, houter, hinner, hb, hc, -, -,
    hmerge, hselect⟩ := Runs.expandJoin h
  exact hR.trans (expandSource hrec _ houter) (hR.trans (expandSource hrec _ hinner)
    (hR.trans (hR.resolvedBody hrec hb) (hR.trans (hR.resolvedBody hrec hc)
      (hR.trans (hR.mergeStreams_keyed hmerge) (hR.selectResult hrec _ hselect)))))

theorem expandHoisted (hrec : ∀ e, Develops R M (recur e)) (plan : HoistPlan) :
    Develops R M (expandHoisted recur plan) := by
  intro p found p' h
  obtain ⟨_, q, _, q', hroot, hinner, hforest, -⟩ := Runs.expandHoisted h
  rw [hforest]
  exact hR.trans (hR.rootStream _ hroot) (expandSource hrec _ hinner)

theorem hoist (h : Runs (hoist outer inner plan) M p m p') : R p.forest p'.forest := by
  obtain ⟨_, _, q, _, _, q₁, _, q₂, q₃, _, hinner, -, hjoin, houter, -, -, hmerge, hq⟩ := Runs.hoist h
  have hmerge := hR.mergeStreams_keyed hmerge
  rw [hq, mapM_resolve_forest (f := id) houter] at hmerge
  have hjoin := hR.joinReferenced hjoin
  rw [mapM_resolve_forest hinner] at hjoin
  exact hR.trans hjoin hmerge

theorem correlate (hrec : ∀ e, Develops R M (recur e)) (h : Runs (correlate recur outer collection) M p m p') :
    R p.forest p'.forest := by
  obtain ⟨_, q, _, _, q₁, _, q₂, q₃, hinner, hjoin, hrows, hmerge, hq⟩ := Runs.correlate h
  have hmerge := hR.mergeStreams_correlated hmerge
  rw [hq, Stream.resolve_forest hrows] at hmerge
  exact hR.trans (expandSource hrec _ hinner) (hR.trans (hR.joinReferenced hjoin) hmerge)

theorem expandSelectMany (hrec : ∀ e, Develops R M (recur e)) (source lambda : Expr) (result : Option Expr) :
    Develops R M (expandSelectMany recur source lambda result) := by
  intro p s p' h
  obtain ⟨_, _, _, _, q₁, _, q₂, q₃, _, q₄, -, -, houter, hbody, hmerge, hselect⟩ := Runs.expandSelectMany h
  refine hR.trans (expandSource hrec _ houter) (hR.trans (hR.rewriteBody _ hbody)
    (hR.trans ?_ (hR.selectResult hrec _ hselect)))
  rcases hmerge with ⟨hcorrelate, hq⟩ | ⟨plan, _, -, hinner, hhoist⟩
  · refine hR.trans ?_ (hR.correlate hrec hcorrelate)
    rcases hq with rfl | ⟨plan, -, hhoisted⟩
    · exact hR.refl _
    · exact hR.expandHoisted hrec plan hhoisted
  · exact hR.trans (hR.expandHoisted hrec plan hinner) (hR.hoist hhoist)

theorem expandTerminal (hrec : ∀ e, Develops R M (recur e)) (operator : Operator) (source : Expr)
    (rest : List Expr) : Develops R M (expandTerminal recur operator (source :: rest)) := by
  intro p e p' h
  obtain ⟨s, q, hsource, h⟩ := Runs.expandTerminal h
  have hsource := expandSource hrec _ hsource
  rcases h with ⟨-, rfl, -⟩ | ⟨-, rfl, -⟩ | ⟨-, _, s', q', -, hmaterialize, hforest, -⟩
  · exact hsource
  · exact hsource
  · refine hR.trans hsource (hR.trans (hR.materialize hmaterialize) ?_)
    rcases hforest with hforest | hforest <;> rw [hforest]
    · exact hR.refl _
    · exact hR.foldl (fun f m => hR.makeOptional f m) _ _

/-- Whatever the query, expanding it develops the forest. -/
theorem expandWithin (n : Nat) (e : Expr) : Develops R M (expandWithin n e) := by
  induction n generalizing e with
  | zero => exact fun h => (Runs.throw_iff.1 h).elim
  | succ n ih =>
    intro p e' p' h
    unfold EntityQuery.expandWithin at h
    split at h
    · simp only [Runs.bind_iff, Runs.pure_iff] at h
      obtain ⟨s, _, hroot, -, rfl⟩ := h
      exact hR.rootStream _ hroot
    · exact hR.of_eq (congrArg Progress.forest (Runs.pure_iff.1 h).2).symm
    · cases Runs.expandCall h with
      | rowWise _ brought _ => exact hR.brought ih brought
      | select run => exact hR.expandSelect ih _ _ run
      | join run => exact hR.expandJoin ih _ _ _ _ _ run
      | selectMany run => exact hR.expandSelectMany ih _ _ _ run
      | terminal _ _ _ run => exact hR.expandTerminal ih _ _ _ run
    · exact (Runs.throw_iff.1 h).elim

end Operators

end Development

end EntityQuery
