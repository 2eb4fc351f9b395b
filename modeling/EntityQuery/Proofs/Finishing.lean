import EntityQuery.Expansion.Expand
import EntityQuery.Proofs.Reading

/-!
# Steps that finish

Only the expansion of nested queries counts how deep it is. A step finishes if it never says that the
bound on that depth is used up, whatever its progress is. All steps that expand no query finish.
-/

namespace EntityQuery

open EntityQuery.Expr

/-- The error says something of the query, and not only that a bound is used up. -/
def ExpansionError.Final (cause : ExpansionError) : Prop := cause ≠ .exhausted

/-- The step never stops because a bound is used up. -/
def Finishes {α : Type} (x : Expansion α) : Prop :=
  ∀ M p, Ends ExpansionError.Final x M p fun _ _ => True

variable {α β : Type} {M : Model} {p : Progress}

namespace Finishes

theorem pure (a : α) : Finishes (Pure.pure a : Expansion α) := fun _ _ => trivial

theorem throw {cause : ExpansionError} (h : cause.Final) : Finishes (MonadExcept.throw cause : Expansion α) :=
  fun _ _ => h

theorem bind {x : Expansion α} {f : α → Expansion β} (hx : Finishes x) (hf : ∀ a, Finishes (f a)) :
    Finishes (x >>= f) :=
  fun M p => Ends.bind_iff.2 ((hx M p).mono fun a q _ => hf a M q)

theorem throw_bind {cause : ExpansionError} {f : α → Expansion β} (h : cause.Final) :
    Finishes ((MonadExcept.throw cause : Expansion α) >>= f) :=
  fun _ _ => h

theorem map {x : Expansion α} (f : α → β) (hx : Finishes x) : Finishes (f <$> x) :=
  fun M p => Ends.map_iff.2 (hx M p)

theorem node (n : NodeId) : Finishes (Expansion.node n) := fun _ _ => trivial

theorem forest : Finishes Expansion.forest := fun _ _ => trivial

theorem settings : Finishes Expansion.settings := fun _ _ => trivial

theorem ref (n : NodeId) : Finishes (Expansion.ref n) := fun _ _ => trivial

theorem freshName (base : String) : Finishes (Expansion.freshName base) := fun _ _ => trivial

theorem setForest (f : Forest) : Finishes (Expansion.setForest f) := fun _ _ => trivial

theorem modifyForest (change : Forest → Forest) : Finishes (Expansion.modifyForest change) :=
  fun _ _ => trivial

theorem modifyTally (change : Tally → Tally) : Finishes (Expansion.modifyTally change) :=
  fun _ _ => trivial

theorem growForest (grow : Forest → α × Forest) : Finishes (Expansion.growForest grow) :=
  fun _ _ => trivial

theorem ofCatalog (stage : Stage) (result : Except CatalogError α) :
    Finishes (Expansion.ofCatalog stage result) :=
  fun _ _ => .ofCatalog_of (fun _ _ => trivial) nofun

theorem entityType (stage : Stage) (name : String) : Finishes (Expansion.entityType stage name) :=
  fun _ _ => .entityType_of (fun _ _ => trivial) nofun

theorem mapM {f : α → Expansion β} (l : List α) (hf : ∀ a, Finishes (f a)) : Finishes (l.mapM f) :=
  fun M _ => (Ends.mapM (I := fun _ => True) trivial fun a q _ => hf a M q)

theorem forM {f : α → Expansion Unit} (l : List α) (hf : ∀ a, Finishes (f a)) : Finishes (l.forM f) :=
  fun M _ => Ends.forM (I := fun _ => True) trivial fun a _ q _ => hf a M q

theorem rewrite {act : Expr → Expansion Expr} (hact : ∀ e, Finishes (act e)) (e : Expr) :
    Finishes (e.rewrite act) :=
  fun M _ => (Ends.rewrite (I := fun _ => True) (S := fun _ _ => True) trivial fun _ d q _ _ =>
    (hact d M q).mono fun _ _ _ => ⟨trivial, trivial⟩).mono fun _ _ _ => trivial

theorem descend {act? : Expr → Option (Expansion Expr)} (hact : ∀ e x, act? e = some x → Finishes x)
    (e : Expr) : Finishes (e.descend act?) :=
  fun M _ => (Ends.descend (I := fun _ => True) (S := fun _ _ => True) (P := fun _ => True) trivial trivial
    (fun _ _ _ _ _ => trivial) (fun e x q _ hx _ => (hact e x hx M q).mono fun _ _ _ => ⟨trivial, trivial⟩)
    fun _ _ _ _ => trivial).mono fun _ _ _ => trivial

end Finishes

section Bodies

theorem bindNavigation_finishes (r : RowRef) (entity name : String) :
    Finishes (bindNavigation r entity name) := by
  refine .bind (.entityType _ _) fun t => ?_
  split
  · exact .pure _
  · refine .bind .settings fun _ => .bind .forest fun _ => ?_
    dsimp only
    split
    · exact .throw_bind nofun
    · refine .bind (.growForest _) fun _ => .bind .forest fun _ => ?_
      split
      · exact .bind (.modifyTally _) fun _ => .ref _
      · exact .ref _

theorem bindMember_finishes (target : Expr) (name : String) : Finishes (bindMember target name) := by
  unfold bindMember
  split
  · exact .pure _
  · refine .bind .forest fun _ => ?_
    dsimp only
    split
    · exact .pure _
    · split
      · exact .pure _
      · split
        · exact .pure _
        · exact bindNavigation_finishes _ _ _
  · exact .pure _

theorem bind_finishes (e : Expr) : Finishes (EntityQuery.bind e) := by
  refine .rewrite (fun e => ?_) e
  split
  · exact bindMember_finishes _ _
  · exact .pure _

theorem keyReads_finishes (n : NodeId) : Finishes (keyReads n) :=
  .bind (.node n) fun _ => .bind (.entityType _ _) fun _ => .bind (.ofCatalog _ _) fun _ =>
    .bind (.ref n) fun _ => .pure _

theorem equality_finishes (op : BinaryOp) (a b : Expr) : Finishes (equality op a b) := by
  refine .bind .settings fun _ => ?_
  split
  · exact .bind .forest fun _ => .pure _
  · exact .pure _

theorem compareEntities_finishes (op : BinaryOp) (a b : NodeId) : Finishes (compareEntities op a b) := by
  refine .bind (.node a) fun _ => .bind (.node b) fun _ => ?_
  split
  · exact .pure _
  · exact .bind (keyReads_finishes a) fun _ => .bind (keyReads_finishes b) fun _ => equality_finishes _ _ _

theorem compareWithNull_finishes (op : BinaryOp) (n : NodeId) : Finishes (compareWithNull op n) :=
  .bind (keyReads_finishes n) fun _ => .pure _

theorem compareCollectionWithNull_finishes (op : BinaryOp) (n : NodeId) :
    Finishes (compareCollectionWithNull op n) := by
  refine .bind (.node n) fun _ => .bind (.modifyForest _) fun _ => ?_
  split
  · exact compareWithNull_finishes _ _
  · exact .pure _

theorem compareSides_finishes (op : BinaryOp) (a b : Expr) : Finishes (compareSides op a b) := by
  refine .bind .forest fun f => ?_
  split
  · refine .bind .forest fun f => .bind (.setForest _) fun _ => ?_
    split
    · split
      · exact compareEntities_finishes _ _ _
      · exact .pure _
    · exact .pure _
  · exact compareCollectionWithNull_finishes _ _
  · exact compareCollectionWithNull_finishes _ _
  · exact .throw nofun
  · exact .throw nofun
  · exact compareEntities_finishes _ _ _
  · exact compareWithNull_finishes _ _
  · exact compareWithNull_finishes _ _
  · exact equality_finishes _ _ _

theorem compareByKeys_finishes (e : Expr) : Finishes (compareByKeys e) := by
  refine .rewrite (fun e => ?_) e
  split
  · split
    · exact compareSides_finishes _ _ _
    · exact .pure _
  · exact compareSides_finishes _ _ _
  · exact .pure _

theorem collectionFilter_finishes (r : RowRef) : Finishes (collectionFilter r) := by
  refine .bind (.node _) fun n => ?_
  dsimp only
  split
  · refine .bind (.node _) fun _ => .bind (.entityType _ _) fun _ => .bind (.entityType _ _) fun _ =>
      .bind (.ofCatalog _ _) fun _ => .bind (.ofCatalog _ _) fun _ => ?_
    split
    · exact .throw_bind nofun
    · exact .bind (.freshName _) fun _ => .bind (.ref _) fun _ => .bind (.modifyForest _) fun _ => .pure _
  · exact .throw nofun

theorem filterCollections_finishes (e : Expr) : Finishes (filterCollections e) := by
  refine .bind .forest fun f => .descend (fun e x hx => ?_) e
  unfold collectionAt at hx
  split at hx
  · split at hx <;> cases hx
    split
    · exact .bind (collectionFilter_finishes _) fun _ => .pure _
    · exact .throw nofun
  · split at hx <;> cases hx
    exact collectionFilter_finishes _
  · cases hx

theorem rewriteBody_finishes (e : Expr) : Finishes (rewriteBody e) :=
  .bind (bind_finishes e) fun _ => .bind (compareByKeys_finishes _) fun _ => filterCollections_finishes _

end Bodies

section Rows

theorem path_finishes (scope : RowScope) (r : RowRef) : Finishes (scope.path r) := by
  refine .bind .forest fun _ => ?_
  split
  · exact .pure _
  · exact .throw nofun

theorem readsRows_final (M : Model) : ReadsRows ExpansionError.Final M fun _ => True where
  name _ := trivial
  path scope r p _ := path_finishes scope r M p
  row scope r p _ := by
    refine Finishes.bind (path_finishes scope r) (fun _ => .bind (.node _) fun _ => ?_) M p
    split <;> exact .pure _
  property scope r name p _ := by
    refine Finishes.bind (path_finishes scope r) (fun _ => .bind (.node _) fun _ => ?_) M p
    dsimp only
    split
    · refine .bind (.entityType _ _) fun _ => ?_
      split
      · exact .throw_bind nofun
      · exact .pure _
    · exact .pure _
  leftover _ := nofun

theorem resolve_finishes (scope : RowScope) (e : Expr) : Finishes (resolve scope e) :=
  fun M _ => (readsRows_final M).resolve scope e trivial

theorem reduce_finishes (e : Expr) : Finishes (reduce e) :=
  fun M _ => (readsRows_final M).reduce e trivial

theorem keyedJoin_finishes (outer inner : Expr) (outerKey innerKey : JoinKey) (note : JoinNote) :
    Finishes (keyedJoin outer inner outerKey innerKey note) := by
  unfold keyedJoin
  split
  · exact .pure _
  · exact .bind (.freshName _) fun _ => .bind (.freshName _) fun _ => .pure _

theorem joinNode_finishes (s : Stream) (n : NodeId) : Finishes (joinNode s n) := by
  refine .bind .forest fun f => ?_
  dsimp only
  split
  · refine .bind (.entityType _ _) fun _ => .bind (.entityType _ _) fun _ => .bind (.ofCatalog _ _) fun _ =>
      .bind (.ofCatalog _ _) fun _ => ?_
    split
    · exact .throw_bind nofun
    · refine .bind (.freshName _) fun _ => ?_
      split
      · exact .bind (.pure _) fun _ => .bind (keyedJoin_finishes _ _ _ _ _) fun _ =>
          .bind (.modifyForest _) fun _ => .bind (.modifyTally _) fun _ => .bind (.freshName _) fun _ => .pure _
      · exact .throw_bind nofun
  · exact .throw nofun

theorem joinNodes_finishes (needed : List NodeId) (s : Stream) (ns : List NodeId) :
    Finishes (joinNodes needed s ns) := by
  induction ns generalizing s with
  | nil => exact .pure _
  | cons n ns ih =>
    refine .bind (.node n) fun _ => ?_
    split
    · exact .bind (joinNode_finishes s n) fun s => .bind (ih s) fun _ => .pure _
    · exact ih s

theorem joinSources_finishes (needed : List NodeId) (s : Stream) (sources : List SourceId) :
    Finishes (joinSources needed s sources) := by
  induction sources generalizing s with
  | nil => exact .pure _
  | cons source sources ih =>
    exact .bind .forest fun _ => .bind (joinNodes_finishes needed s _) fun r => .bind (ih r.1) fun _ => .pure _

theorem joinReferenced_finishes (s : Stream) (es : List Expr) : Finishes (joinReferenced s es) :=
  .bind .forest fun _ => .bind (joinSources_finishes _ s _) fun _ => .pure _

theorem mergeStreams_finishes (outer inner : Stream) (join : StreamJoin) :
    Finishes (mergeStreams outer inner join) := by
  intro M p
  cases join with
  | keyed outerKey innerKey note =>
    simp only [mergeStreams]
    split
    all_goals
      simp only [Ends.bind_iff, Ends.freshName_iff, Ends.pure_iff, Ends.modifyTally_iff,
        Ends.modifyForest_iff]
      exact (keyedJoin_finishes _ _ _ _ _ _ _)
  | correlated =>
    simp only [mergeStreams]
    split
    all_goals
      simp only [Ends.bind_iff, Ends.freshName_iff, Ends.pure_iff, Ends.modifyForest_iff]

theorem rootStream_finishes (entity : String) : Finishes (rootStream entity) :=
  .bind (.entityType _ _) fun _ => .bind (.growForest _) fun _ => .bind .forest fun _ =>
    .bind (.ref _) fun _ => .pure _

theorem projectedSource_finishes (selector : Expr) (entity? : Option String) :
    Finishes (projectedSource selector entity?) := by
  refine .bind .forest fun _ => ?_
  dsimp only
  split
  · exact .growForest _
  · exact .growForest _
  · exact .bind (.growForest _) fun _ => .bind .forest fun _ =>
      .bind (.forM _ fun _ => .bind (.growForest _) fun _ => .pure _) fun _ => .pure _

theorem materialize_finishes (s : Stream) (entity? : Option String) : Finishes (materialize s entity?) := by
  refine .bind .forest fun _ => ?_
  dsimp only
  split
  · exact .pure _
  · exact .bind (resolve_finishes _ _) fun _ => .bind (projectedSource_finishes _ _) fun _ =>
      .bind (.modifyTally _) fun _ => .bind .forest fun _ => .bind (.ref _) fun _ => .pure _

theorem aliasFields_finishes (e : Expr) : Finishes (aliasFields e) := by
  unfold aliasFields
  split
  · refine .forM _ fun field => ?_
    dsimp only
    split
    · exact .modifyForest _
    · exact .pure _
  · exact .pure _

theorem hoist_finishes (outer inner : Stream) (plan : HoistPlan) : Finishes (hoist outer inner plan) :=
  .bind .forest fun _ => .bind (.ref _) fun _ => .bind (.mapM _ fun _ => resolve_finishes _ _) fun _ =>
    .bind (joinReferenced_finishes _ _) fun _ => .bind .forest fun _ =>
      .bind (.mapM _ fun _ => resolve_finishes _ _) fun _ => .bind (.modifyTally _) fun _ =>
        mergeStreams_finishes _ _ _

end Rows

section Arguments

theorem expectUnary_finishes (operator : Operator) (e : Expr) : Finishes (expectUnary operator e) := by
  unfold expectUnary
  split
  · exact .pure _
  · exact .throw nofun

theorem expectBinary_finishes (operator : Operator) (e : Expr) : Finishes (expectBinary operator e) := by
  unfold expectBinary
  split
  · exact .pure _
  · exact .throw nofun

theorem entityArgument_finishes (e : Option Expr) : Finishes (entityArgument e) := by
  unfold entityArgument
  split
  · exact .pure _
  · exact .pure _
  · exact .throw nofun

theorem hoistPlan_finishes (collection : Expr) : Finishes (hoistPlan collection) := by
  refine .bind .settings fun _ => ?_
  split <;> exact .pure _

end Arguments

end EntityQuery
