import EntityQuery.Proofs.Charts
import EntityQuery.Proofs.Reading
import EntityQuery.Proofs.Rewriting
import EntityQuery.Proofs.Tables

/-!
# Expansions over a consistent catalog

A query over a checked catalog that names only entity types of it is never refused for the catalog's
sake: no look-up fails, and the keys on the two sides of a navigation are equally long
(`expandQuery_innocent`). Every step is started over a charted forest and leaves a charted one, and it
makes of expressions that name types of the catalog only such expressions again.
-/

namespace EntityQuery

open EntityQuery.Expr

/-- The errors that a consistent catalog rules out. -/
def ExpansionError.blamesCatalog : ExpansionError → Bool
  | .catalog .. => true
  | .keyShapeMismatch stage .. => stage = .joining ∨ stage = .collections
  | _ => false

/-- The error is not one of the catalog. -/
def ExpansionError.Innocent (cause : ExpansionError) : Prop := cause.blamesCatalog = false

/-- Over a charted forest the step fails only innocently; if it succeeds, the forest is charted still
and the result is as it should be. -/
def Sure {α : Type} (M : Model) (x : Expansion α) (Q : α → Prop) : Prop :=
  ∀ p, p.forest.Charted M.catalog →
    Ends ExpansionError.Innocent x M p fun a q => q.forest.Charted M.catalog ∧ Q a

variable {α : Type} {M : Model} {p : Progress} {recur : Recur} {e : Expr} {s : Stream}

theorem Sure.mono {x : Expansion α} {Q R : α → Prop} (h : Sure M x Q) (k : ∀ a, Q a → R a) :
    Sure M x R :=
  fun p hp => (h p hp).mono fun _ _ h => h.imp_right (k _)

/-- For a step that keeps links it is enough to look at the entities of the nodes. -/
theorem Sure.of_known {x : Expansion α} {Q : α → Prop} (hx : KeepsLinks M x)
    (h : ∀ p, p.forest.Charted M.catalog →
      Ends ExpansionError.Innocent x M p fun a q => q.forest.Known M.catalog ∧ Q a) : Sure M x Q := by
  intro p hp
  refine ((h p hp).and_runs fun a q hrun => (hx hrun hp.linked).1).both fun a q known linked => ?_
  exact ⟨⟨linked, known.1⟩, known.2⟩

section Walks

open EntityQuery.Expr

variable {S : Expr → Expr → Prop}

theorem Sure.rewrite {act : Expr → Expansion Expr}
    (step : ∀ e d, SameHead S e d → Sure M (act d) (S e)) (e : Expr) : Sure M (e.rewrite act) (S e) :=
  fun _ hp => Ends.rewrite (I := fun q => q.forest.Charted M.catalog) hp
    fun e d q hq head => step e d head q hq

end Walks

section Binding

variable {r : RowRef} {name : String}

theorem bindRowMember_sure (hc : M.catalog.Valid) (r : RowRef) (name : String) :
    Sure M (bindRowMember r name) fun e' => e'.Named M.catalog := by
  refine .of_known (fun hrun => bindMember_onward (.rowRef r) name hrun) fun p hp => ?_
  have kept : (Expr.member (.rowRef r) name).Named M.catalog :=
    .node trivial fun d hd => List.mem_singleton.1 hd ▸ named_rowRef r
  simp only [bindRowMember, Ends.bind_iff, Ends.forest_iff]
  split
  · exact ⟨hp.known, kept⟩
  · split
    · exact ⟨hp.known, named_rowRef _⟩
    · split
      · exact ⟨hp.known, kept⟩
      · next entity hentity =>
        obtain ⟨t, ht⟩ := hp.known _ _ hentity
        simp only [bindNavigation, Ends.bind_iff, Ends.entityType ht]
        split
        · exact ⟨hp.known, kept⟩
        · next edge hedge =>
          obtain ⟨target, _, _, htarget, -⟩ := (hc.sound ht hedge).target
          have followed := hp.known.follow (n := r.node) ⟨target, htarget⟩
          simp only [Ends.bind_iff, Ends.settings_iff, Ends.forest_iff]
          split
          · exact rfl
          · simp only [Ends.bind_iff, Ends.growForest_iff, Ends.forest_iff]
            split
            · exact ⟨followed, named_rowRef _⟩
            · exact ⟨followed, named_rowRef _⟩

theorem bindMember_sure (hc : M.catalog.Valid) {target t : Expr} (name : String)
    (h : NamesLike M.catalog t target) :
    Sure M (bindMember target name) (NamesLike M.catalog (.member t name)) := by
  have kept (he : (Expr.member t name).Named M.catalog) : (Expr.member target name).Named M.catalog :=
    .node trivial fun d hd => List.mem_singleton.1 hd ▸ h.named (he.parts nofun t (.head _))
  unfold bindMember
  split
  · next fields =>
    refine fun p hp => ⟨hp, fun he => ?_, False.elim⟩
    cases hfound : fields.lookup name with
    | none => exact kept he
    | some value =>
      have hfields := h.named (he.parts nofun t (.head _))
      obtain ⟨l, l', hl, -⟩ := List.lookup_eq_some_iff.1 hfound
      exact hfields.parts nofun value (List.mem_map.2 ⟨(name, value), by simp [hl], rfl⟩)
  · exact (bindRowMember_sure hc _ name).mono fun _ h => ⟨fun _ => h, False.elim⟩
  · exact fun p hp => ⟨hp, kept, False.elim⟩

theorem bind_sure (hc : M.catalog.Valid) (e : Expr) : Sure M (bind e) (NamesLike M.catalog e) := by
  refine .rewrite (fun e d head => ?_) e
  split
  · cases head with
    | member _ h => exact bindMember_sure hc _ h
  · exact fun p hp => ⟨hp, .of_sameHead head⟩

end Binding

section Comparisons

variable {op : BinaryOp}

theorem keyReads_ends (hc : M.catalog.Valid) {n : NodeId} {entity : String}
    (hp : p.forest.Charted M.catalog) (hn : (p.forest.node n).entity = some entity) :
    Ends ExpansionError.Innocent (keyReads n) M p fun _ q => q = p := by
  obtain ⟨t, ht⟩ := hp.known _ _ hn
  obtain ⟨key, hkey⟩ := hc.keyed ht
  simp only [keyReads, Ends.bind_iff, Ends.node_iff, hn, Option.getD_some, Ends.entityType ht,
    Ends.ofCatalog hkey, Ends.ref_iff, Ends.pure_iff]

theorem equality_ends (op : BinaryOp) (a b : Expr) :
    Ends ExpansionError.Innocent (equality op a b) M p fun _ q => q = p := by
  simp only [equality, Ends.bind_iff, Ends.settings_iff]
  split <;> simp

theorem compareEntities_ends (hc : M.catalog.Valid) {a b : NodeId} {entity : String}
    (hp : p.forest.Charted M.catalog) (ha : (p.forest.node a).entity = some entity) :
    Ends ExpansionError.Innocent (compareEntities op a b) M p fun _ q => q = p := by
  simp only [compareEntities, Ends.bind_iff, Ends.node_iff]
  split
  · exact rfl
  · next hab =>
    have hb : (p.forest.node b).entity = some entity := (not_not.1 hab).symm.trans ha
    simp only [Ends.bind_iff]
    refine (keyReads_ends hc hp ha).mono ?_
    rintro left _ rfl
    refine (keyReads_ends hc hp hb).mono ?_
    rintro right _ rfl
    exact equality_ends op _ _

theorem compareWithNull_ends (hc : M.catalog.Valid) {n : NodeId} {entity : String}
    (hp : p.forest.Charted M.catalog) (hn : (p.forest.node n).entity = some entity) :
    Ends ExpansionError.Innocent (compareWithNull op n) M p fun _ q => q = p := by
  simp only [compareWithNull, Ends.bind_iff]
  exact (keyReads_ends hc hp hn).mono fun _ _ heq => heq

/-- A node that a collection leads to hangs below an entity. -/
theorem Forest.Linked.owner {c : Catalog} {f : Forest} (hf : f.Linked c) {n q : NodeId}
    {edge : NavigationEdge} (he : (f.node n).edge = some edge) (hq : (f.node n).parent = some q) :
    ∃ owner, (f.node q).entity = some owner ∧ c.navigation? owner edge.name = some edge := by
  cases (hf.link hq).2 with
  | field _ noEdge => simp [he] at noEdge
  | @navigation owner edge' howner _ declared hedge =>
    obtain rfl : edge = edge' := Option.some.inj (he.symm.trans hedge)
    exact ⟨owner, howner, declared⟩

theorem Node.edge_of_isCollection {x : Node} (h : x.isCollection = true) : ∃ edge, x.edge = some edge := by
  cases he : x.edge with
  | some edge => exact ⟨edge, rfl⟩
  | none => simp [Node.isCollection, he] at h

theorem Operand.collection_of {f : Forest} {a : Expr} {n : NodeId} (h : Operand.of f a = .collection n) :
    ∃ edge, (f.node n).edge = some edge := by
  unfold Operand.of at h
  split at h
  · dsimp only at h
    split at h
    · next hcollection =>
      cases h
      exact Node.edge_of_isCollection hcollection
    · split at h <;> cases h
  · split at h <;> cases h

theorem Operand.entity_of {f : Forest} {a : Expr} {n : NodeId} (h : Operand.of f a = .entity n) :
    ∃ entity, (f.node n).entity = some entity := by
  unfold Operand.of at h
  split at h
  · dsimp only at h
    split at h
    · cases h
    · split at h
      · next hentity =>
        cases h
        exact Option.isSome_iff_exists.1 hentity
      · cases h
  · split at h <;> cases h

theorem compareSides_known (hc : M.catalog.Valid) (hp : p.forest.Charted M.catalog) (op : BinaryOp)
    (a b : Expr) : Ends ExpansionError.Innocent (compareSides op a b) M p fun _ q =>
      q.forest.Known M.catalog := by
  have same {q : Progress} (h : q = p) : q.forest.Known M.catalog := h ▸ hp.known
  have removed {f : Forest} (n : NodeId) (hf : f.Charted M.catalog) : (f.remove n).Charted M.catalog :=
    ⟨(Forest.onward_remove n hf.linked).1, hf.known.of_entity fun k => Forest.entity_remove n k⟩
  have withNull {n : NodeId} {edge : NavigationEdge} (hn : (p.forest.node n).edge = some edge) :
      Ends ExpansionError.Innocent (compareCollectionWithNull op n) M p fun _ q =>
        q.forest.Known M.catalog := by
    simp only [compareCollectionWithNull, Ends.bind_iff, Ends.node_iff, Ends.modifyForest_iff]
    split
    · next q hq =>
      obtain ⟨owner, howner, -⟩ := hp.linked.owner hn hq
      refine (compareWithNull_ends (p := { p with forest := p.forest.remove n }) hc (removed n hp)
        ((Forest.entity_remove n q).trans howner)).mono ?_
      rintro _ _ rfl
      exact (removed n hp).known
    · exact (removed n hp).known
  simp only [compareSides, Ends.bind_iff, Ends.forest_iff]
  split
  · next x y hx _ =>
    obtain ⟨edge, hedge⟩ := Operand.collection_of hx
    simp only [compareCollections, Ends.bind_iff, Ends.forest_iff, Ends.setForest_iff]
    have charted := removed y (removed x hp)
    split
    · next owner owner' howner _ =>
      obtain ⟨entity, hentity, -⟩ := hp.linked.owner hedge howner
      split
      · refine (compareEntities_ends (p := { p with forest := (p.forest.remove x).remove y }) hc charted
          ((Forest.entity_remove y _).trans ((Forest.entity_remove x _).trans hentity))).mono ?_
        rintro _ _ rfl
        exact charted.known
      · exact Ends.pure_iff.2 charted.known
    · exact Ends.pure_iff.2 charted.known
  · next hx _ =>
    obtain ⟨edge, hedge⟩ := Operand.collection_of hx
    exact withNull hedge
  · next _ hy =>
    obtain ⟨edge, hedge⟩ := Operand.collection_of hy
    exact withNull hedge
  · exact rfl
  · exact rfl
  · next hx _ =>
    obtain ⟨entity, hentity⟩ := Operand.entity_of hx
    exact (compareEntities_ends hc hp hentity).mono fun _ _ => same
  · next hx _ =>
    obtain ⟨entity, hentity⟩ := Operand.entity_of hx
    exact (compareWithNull_ends hc hp hentity).mono fun _ _ => same
  · next _ hy =>
    obtain ⟨entity, hentity⟩ := Operand.entity_of hy
    exact (compareWithNull_ends hc hp hentity).mono fun _ _ => same
  · exact (equality_ends op a b).mono fun _ _ => same

/-- What an equality is rewritten to is made of its sides and of row references. -/
theorem compareSides_sure (hc : M.catalog.Valid) (op : BinaryOp) (a b : Expr) :
    Sure M (compareSides op a b) fun e' => a.Named M.catalog → b.Named M.catalog → e'.Named M.catalog := by
  refine .of_known (compareSides_onward op a b) fun p hp => ?_
  refine (compareSides_known hc hp op a b).and_runs fun e' q hrun ha hb => ?_
  have operands : e'.Over fun d => d.Named M.catalog :=
    (compareSides_over hrun (.operand ha) (.operand hb) (fun _ _ r _ => named_rowRef r)
      fun _ _ => named_rowRef _).1
  exact operands.named fun _ => id

theorem compareByKeys_sure (hc : M.catalog.Valid) (e : Expr) :
    Sure M (compareByKeys e) (NamesLike M.catalog e) := by
  rw [compareByKeys_rewrite]
  refine .rewrite (fun e d head => ?_) e
  unfold compareNode
  split
  · next op a b hsides =>
    refine (compareSides_sure hc op a b).mono fun e' h => ?_
    have like := NamesLike.of_sameHead head
    have noStream : ∀ rows selector frame, d ≠ .stream rows selector frame := by
      rintro _ _ _ rfl
      cases hsides
    have noTarget : ¬ M.catalog.IsTarget d := fun hd => by cases d <;> first | cases hsides | exact hd
    obtain ⟨ha, hb⟩ : a ∈ d.children ∧ b ∈ d.children := by simp [children_of_sides? hsides]
    refine ⟨fun he => ?_, fun he => absurd (like.target he) noTarget⟩
    have parts := (like.named he).parts noStream
    exact h (parts a ha) (parts b hb)
  · exact fun p hp => ⟨hp, .of_sameHead head⟩

end Comparisons

section Collections

theorem collectionFilter_sure (hc : M.catalog.Valid) (r : RowRef) :
    Sure M (collectionFilter r) fun e' => e'.Named M.catalog := by
  refine .of_known (collectionFilter_onward r) fun p hp => ?_
  simp only [collectionFilter, Ends.bind_iff, Ends.node_iff]
  split
  · next edge n hedge hn =>
    obtain ⟨owner, howner, declared⟩ := hp.linked.owner hedge hn
    obtain ⟨ownerType, hownerType, hedge'⟩ := Catalog.navigation?_eq_some.1 declared
    obtain ⟨targetType, source, target, htargetType, hsource, htarget, hlength, -⟩ :=
      (hc.sound hownerType hedge').target
    simp only [Ends.bind_iff, Ends.node_iff, howner, Option.getD_some, Ends.entityType hownerType,
      Ends.entityType htargetType, Ends.ofCatalog hsource, Ends.ofCatalog htarget, hlength, ne_eq,
      not_true_eq_false, if_false, Ends.freshName_iff, Ends.ref_iff, Ends.modifyForest_iff,
      Ends.pure_iff]
    refine ⟨hp.known.of_entity fun k => Forest.entity_remove _ k, .node trivial fun d hd => ?_⟩
    simp only [children, List.mem_cons, List.not_mem_nil, or_false] at hd
    rcases hd with rfl | rfl
    · exact .node ⟨targetType, htargetType⟩ fun _ h => by cases h
    · refine .node trivial fun d hd => List.mem_singleton.1 hd ▸ ?_
      have predicate : (membership (p.forest.ref n)
          (rowParameter edge.target ++ toString (p.names + 1)) source target).Over
          fun d => d.Named M.catalog :=
        membership_over (.operand (named_rowRef _)) (.node trivial fun _ h => by cases h)
      exact predicate.named fun _ => id
  · exact rfl

theorem filterCollections_sure (hc : M.catalog.Valid) (e : Expr) :
    Sure M (filterCollections e) (NamesLike M.catalog e) := by
  intro p hp
  simp only [filterCollections, Ends.bind_iff, Ends.forest_iff]
  refine Ends.descend (I := fun q => q.forest.Charted M.catalog) (P := fun _ => True) hp trivial
    (fun _ _ _ _ _ => trivial) (fun e x q _ hat hq => ?_) fun _ _ _ head => .of_sameHead head
  unfold collectionAt at hat
  split at hat
  · split at hat <;> cases hat
    split
    · rw [Ends.bind_iff]
      refine (collectionFilter_sure hc _ q hq).both fun filter q' hq' h => ?_
      refine Ends.pure_iff.2 ⟨hq', fun _ => .node trivial fun d hd => ?_, False.elim⟩
      exact List.mem_singleton.1 hd ▸ h
    · exact rfl
  · split at hat <;> cases hat
    exact (collectionFilter_sure hc _ q hq).mono fun _ _ h => h.imp_right fun h => ⟨fun _ => h, False.elim⟩
  · cases hat

theorem rewriteBody_sure (hc : M.catalog.Valid) (e : Expr) :
    Sure M (rewriteBody e) (NamesLike M.catalog e) := by
  intro p hp
  simp only [rewriteBody, Ends.bind_iff]
  refine (bind_sure hc e p hp).both fun e₁ q₁ h₁ like₁ => ?_
  refine (compareByKeys_sure hc e₁ q₁ h₁).both fun e₂ q₂ h₂ like₂ => ?_
  refine (filterCollections_sure hc e₂ q₂ h₂).both fun e₃ q₃ h₃ like₃ => ?_
  exact ⟨h₃, like₁.trans (like₂.trans like₃)⟩

end Collections

/-- Expanding any query that names types of the catalog only is sure. -/
def ExpandsSurely (M : Model) (recur : Recur) : Prop :=
  ∀ e, e.Named M.catalog → Sure M (recur e) fun e' => e'.Named M.catalog

section Bodies

variable {x : String} {body : Expr}

theorem expandSubqueries_sure (hrec : ExpandsSurely M recur) (he : e.Named M.catalog) :
    Sure M (expandSubqueries recur e) fun e' => e'.Named M.catalog := by
  intro p hp
  suffices walk : Ends ExpansionError.Innocent (e.descend (subqueryAt recur)) M p fun e' q =>
      q.forest.Charted M.catalog ∧ NamesLike M.catalog e e' from
    walk.mono fun _ _ h => h.imp_right fun like => like.named he
  refine .descend (P := fun e => e.Named M.catalog) hp he (fun e he hat c hc => ?_)
    (fun e x q he hat hq => ?_) fun _ _ _ head => .of_sameHead head
  · refine he.parts ?_ c hc
    rintro _ _ _ rfl
    cases hat
  · unfold subqueryAt at hat
    split at hat
    · cases hat
      exact Ends.pure_iff.2 ⟨hq, .refl _⟩
    · split at hat <;> cases hat
      exact (hrec _ he q hq).mono fun _ _ h => h.imp_right fun h => ⟨fun _ => h, False.elim⟩
    · cases hat

theorem prepareBody_sure (hc : M.catalog.Valid) (hrec : ExpandsSurely M recur) (he : e.Named M.catalog) :
    Sure M (prepareBody recur e) fun e' => e'.Named M.catalog := by
  intro p hp
  simp only [prepareBody, Ends.bind_iff]
  refine (rewriteBody_sure hc e p hp).both fun e₁ q₁ h₁ like => ?_
  exact expandSubqueries_sure hrec (like.named he) q₁ h₁

end Bodies

section Resolving

theorem path_sure (scope : RowScope) (r : RowRef) : Sure M (scope.path r) fun _ => True := by
  intro p hp
  simp only [RowScope.path, Ends.bind_iff, Ends.forest_iff]
  split
  · exact ⟨hp, trivial⟩
  · exact rfl

/-- Reading a row looks up an entity of the forest. -/
theorem readsRows_sure (M : Model) :
    ReadsRows ExpansionError.Innocent M fun p => p.forest.Charted M.catalog where
  name hp := hp
  path scope r p hp := (path_sure scope r p hp).mono fun _ _ h => h.1
  row scope r p hp := by
    simp only [RowScope.readRow, Ends.bind_iff]
    refine (path_sure scope r p hp).both fun path q hq _ => ?_
    simp only [Ends.node_iff]
    split <;> exact hq
  property scope r name p hp := by
    simp only [RowScope.readProperty, Ends.bind_iff]
    refine (path_sure scope r p hp).both fun path q hq _ => ?_
    simp only [Ends.node_iff]
    split
    · next entity hentity =>
      obtain ⟨t, ht⟩ := hq.known _ _ hentity
      simp only [Ends.bind_iff, Ends.entityType ht]
      split
      · exact rfl
      · exact hq
    · exact hq
  leftover _ := rfl

theorem resolve_sure (scope : RowScope) (e : Expr) : Sure M (resolve scope e) fun _ => True :=
  fun _ hp => ((readsRows_sure M).resolve scope e hp).mono fun _ _ h => ⟨h, trivial⟩

theorem reduce_sure (e : Expr) : Sure M (reduce e) fun _ => True :=
  fun _ hp => ((readsRows_sure M).reduce e hp).mono fun _ _ h => ⟨h, trivial⟩

end Resolving

section Joining

variable {outer inner : Stream}

theorem keyedJoin_ends (outer inner : Expr) (outerKey innerKey : JoinKey) (note : JoinNote) :
    Ends ExpansionError.Innocent (keyedJoin outer inner outerKey innerKey note) M p
      fun _ q => q.forest = p.forest := by
  unfold keyedJoin
  split
  · exact rfl
  · simp [leftOuterJoin]

theorem joinNode_sure (hc : M.catalog.Valid) (s : Stream) (n : NodeId) :
    Sure M (joinNode s n) fun s' => s'.selector = s.selector := by
  refine .of_known joinNode_onward fun p hp => ?_
  simp only [joinNode, Ends.bind_iff, Ends.forest_iff]
  split
  · next edge q hedge hq =>
    obtain ⟨owner, howner, declared⟩ := hp.linked.owner hedge hq
    obtain ⟨ownerType, hownerType, hedge'⟩ := Catalog.navigation?_eq_some.1 declared
    obtain ⟨targetType, source, target, htargetType, hsource, htarget, hlength, -⟩ :=
      (hc.sound hownerType hedge').target
    simp only [Ends.bind_iff, howner, Option.getD_some, Ends.entityType hownerType,
      Ends.entityType htargetType, Ends.ofCatalog hsource, Ends.ofCatalog htarget, hlength, ne_eq,
      not_true_eq_false, if_false, Ends.freshName_iff]
    split
    · simp only [Ends.bind_iff, Ends.pure_iff]
      refine (keyedJoin_ends _ _ _ _ _).mono fun rows q hforest => ?_
      simp only [Ends.modifyForest_iff, Ends.modifyTally_iff, Ends.freshName_iff, and_true]
      refine hp.known.of_entity fun k => ?_
      rw [Forest.entity_makePresent, Forest.entity_wraps, hforest]
    · exact rfl
  · exact rfl

theorem joinNodes_sure (hc : M.catalog.Valid) (needed : List NodeId) (s : Stream) (ns : List NodeId) :
    Sure M (joinNodes needed s ns) fun r => r.1.selector = s.selector := by
  induction ns generalizing s with
  | nil => exact fun p hp => ⟨hp, rfl⟩
  | cons n ns ih =>
    intro p hp
    simp only [joinNodes, Ends.bind_iff, Ends.node_iff]
    split
    · simp only [Ends.bind_iff, Ends.pure_iff]
      refine (joinNode_sure hc s n p hp).both fun s₁ q hq h₁ => ?_
      exact (ih s₁ q hq).mono fun _ _ h => h.imp_right fun h => h.trans h₁
    · exact ih s p hp

theorem joinSources_sure (hc : M.catalog.Valid) (needed : List NodeId) (s : Stream)
    (sources : List SourceId) :
    Sure M (joinSources needed s sources) fun r => r.1.selector = s.selector := by
  induction sources generalizing s with
  | nil => exact fun p hp => ⟨hp, rfl⟩
  | cons source sources ih =>
    intro p hp
    simp only [joinSources, Ends.bind_iff, Ends.forest_iff, Ends.pure_iff]
    refine (joinNodes_sure hc needed s _ p hp).both fun r q hq h₁ => ?_
    exact (ih r.1 q hq).mono fun _ _ h => h.imp_right fun h => h.trans h₁

theorem joinReferenced_sure (hc : M.catalog.Valid) (s : Stream) (es : List Expr) :
    Sure M (joinReferenced s es) fun r => r.1.selector = s.selector := by
  intro p hp
  simp only [joinReferenced, Ends.bind_iff, Ends.forest_iff, Ends.pure_iff]
  refine (joinSources_sure hc _ s _ p hp).mono fun r q h => h.imp_right fun h => ?_
  split <;> exact h

/-- Merging two streams fails in no way. -/
theorem mergeStreams_sure (outer inner : Stream) (join : StreamJoin) :
    Sure M (mergeStreams outer inner join) fun m =>
      m.outerSelector = outer.selector ∧ m.innerSelector = inner.selector := by
  intro p hp
  have merged {q : Progress} (kind : JoinKind) (hq : q.forest.Charted M.catalog) :
      (q.forest.merged outer.sources inner.sources kind).Charted M.catalog :=
    ⟨(Forest.onward_merged _ _ kind hq.linked).1,
      hq.known.of_entity fun k => Forest.entity_merged _ _ kind k⟩
  cases join with
  | keyed outerKey innerKey note =>
    simp only [mergeStreams]
    split
    all_goals
      simp only [Ends.bind_iff, Ends.freshName_iff, Ends.pure_iff, Ends.modifyTally_iff,
        Ends.modifyForest_iff]
      refine (keyedJoin_ends _ _ _ _ _).mono fun rows q hforest => ?_
      exact ⟨merged (q := { q with tally := q.tally.countJoin note.kind }) note.kind
        (show q.forest.Charted M.catalog from hforest ▸ hp), trivial, trivial⟩
  | correlated =>
    simp only [mergeStreams]
    split
    all_goals
      simp only [Ends.bind_iff, Ends.freshName_iff, Ends.pure_iff, Ends.modifyForest_iff]
      exact ⟨merged .inner hp, trivial, trivial⟩

end Joining

section Streams

theorem expandSource_sure (hrec : ExpandsSurely M recur) (he : e.Named M.catalog) :
    Sure M (expandSource recur e) fun s => s.selector.Named M.catalog := by
  intro p hp
  simp only [expandSource, Ends.bind_iff]
  refine (hrec e he p hp).both fun e' q hq he' => ?_
  split
  · split
    · exact ⟨hq, named_stream.1 he'⟩
    · exact rfl
  · exact rfl

theorem joinBody_sure (hc : M.catalog.Valid) (hrec : ExpandsSurely M recur) {x : String} {body : Expr}
    (hs : s.selector.Named M.catalog) (hbody : body.Named M.catalog) :
    Sure M (joinBody recur s x body) fun b =>
      b.stream.selector.Named M.catalog ∧ b.body.Named M.catalog := by
  intro p hp
  simp only [joinBody, Ends.bind_iff, Ends.pure_iff]
  have composed := (substitute_namesLike x hs body).named hbody
  refine (prepareBody_sure hc hrec composed p hp).both fun body' q hq hb => ?_
  refine (joinReferenced_sure hc s [body'] q hq).both fun r q' hq' hr => ⟨hq', ?_, hb⟩
  split <;> exact hr ▸ hs

theorem resolvedBody_sure (hc : M.catalog.Valid) (hrec : ExpandsSurely M recur) {x : String}
    {body : Expr} (hs : s.selector.Named M.catalog) (hbody : body.Named M.catalog) :
    Sure M (resolvedBody recur s x body) fun b => b.stream.selector.Named M.catalog := by
  intro p hp
  simp only [resolvedBody, Ends.bind_iff, Ends.pure_iff]
  refine (joinBody_sure hc hrec hs hbody p hp).both fun b q hq hb => ?_
  exact (resolve_sure _ b.body q hq).mono fun _ _ h => ⟨h.1, hb.1⟩

theorem rootStream_sure {entity : String} (h : ∃ t, M.catalog.type? entity = some t) :
    Sure M (rootStream entity) fun s => s.selector.Named M.catalog := by
  refine .of_known (rootStream_onward entity) fun p hp => ?_
  obtain ⟨t, ht⟩ := h
  simp only [rootStream, Ends.bind_iff, Ends.entityType ht, Ends.growForest_iff, Ends.forest_iff,
    Ends.ref_iff, Ends.pure_iff]
  refine ⟨hp.known.addSource fun _ heq => ?_, named_rowRef _⟩
  cases heq
  exact ⟨t, ht⟩

/-- The entities of the fields of a projected record are entities of the forest. -/
theorem entity_of_entityFields {f : Forest} {selector : Expr} {field : EntityField}
    (h : field ∈ entityFields f selector) : ∃ n, (f.node n).entity = some field.entity := by
  unfold entityFields at h
  split at h
  · obtain ⟨⟨name, value⟩, -, h⟩ := List.mem_filterMap.1 h
    dsimp only at h
    split at h
    · next r =>
      obtain ⟨entity, hentity, rfl⟩ := Option.map_eq_some_iff.1 h
      exact ⟨r.node, hentity⟩
    · cases h
  · obtain ⟨k, -, h⟩ := List.mem_filterMap.1 h
    dsimp only at h
    split at h
    · next hentity =>
      split at h <;> cases h
      exact ⟨k, hentity⟩
    · cases h
  · cases h

theorem projectedSource_known {selector : Expr} {entity? : Option String} (hp : p.forest.Known M.catalog)
    (h : ∀ entity, entity? = some entity → ∃ t, M.catalog.type? entity = some t) :
    Ends ExpansionError.Innocent (projectedSource selector entity?) M p fun _ q =>
      q.forest.Known M.catalog := by
  simp only [projectedSource, Ends.bind_iff, Ends.forest_iff]
  split
  · exact hp.addSource fun _ heq => h _ heq
  · next entity hentity =>
    refine hp.addSource fun _ heq => ?_
    cases heq
    split at hentity
    · exact hp _ _ hentity
    · cases hentity
  · simp only [Ends.bind_iff, Ends.growForest_iff, Ends.forest_iff, Ends.pure_iff]
    have source : (p.forest.addSource none false).2.Known M.catalog := hp.addSource fun _ h => by cases h
    refine Ends.forM (I := fun q => q.forest.Known M.catalog) source fun field hfield q hq => ?_
    obtain ⟨n, hn⟩ := entity_of_entityFields hfield
    exact hq.addField (hp n _ hn)

theorem materialize_sure {entity? : Option String}
    (h : ∀ entity, entity? = some entity → ∃ t, M.catalog.type? entity = some t)
    (hs : s.selector.Named M.catalog) :
    Sure M (materialize s entity?) fun s' => s'.selector.Named M.catalog := by
  refine .of_known materialize_onward fun p hp => ?_
  simp only [materialize, Ends.bind_iff, Ends.forest_iff]
  split
  · exact ⟨hp.known, hs⟩
  · simp only [Ends.bind_iff, Ends.modifyTally_iff, Ends.forest_iff, Ends.ref_iff, Ends.pure_iff]
    refine (resolve_sure _ s.selector p hp).both fun body q hq _ => ?_
    exact (projectedSource_known hq.known h).mono fun _ _ known => ⟨known, named_rowRef _⟩

end Streams

section Lambdas

variable {source lambda : Expr}

theorem expectUnary_sure (operator : Operator) (he : e.Named M.catalog) :
    Sure M (expectUnary operator e) fun l => l.2.Named M.catalog := by
  intro p hp
  unfold expectUnary
  split
  · exact ⟨hp, he.parts nofun _ (.head _)⟩
  · exact rfl

theorem expectBinary_sure (operator : Operator) (he : e.Named M.catalog) :
    Sure M (expectBinary operator e) fun l => l.2.2.Named M.catalog := by
  intro p hp
  unfold expectBinary
  split
  · exact ⟨hp, he.parts nofun _ (.head _)⟩
  · exact rfl

theorem expandFilter_sure (hc : M.catalog.Valid) (hrec : ExpandsSurely M recur)
    (hs : source.Named M.catalog) (hl : lambda.Named M.catalog) (note : Option CallNote) :
    Sure M (expandFilter recur source lambda note) fun s => s.selector.Named M.catalog := by
  intro p hp
  simp only [expandFilter, Ends.bind_iff, Ends.pure_iff]
  refine (expectUnary_sure .filter hl p hp).both fun l q hq hbody => ?_
  refine (expandSource_sure hrec hs q hq).both fun s q₁ h₁ hsel => ?_
  exact resolvedBody_sure hc hrec hsel hbody q₁ h₁

theorem expandOrderBy_sure (hc : M.catalog.Valid) (hrec : ExpandsSurely M recur) (operator : Operator)
    (hs : source.Named M.catalog) (hl : lambda.Named M.catalog) :
    Sure M (expandOrderBy recur operator source lambda) fun s => s.selector.Named M.catalog := by
  intro p hp
  simp only [expandOrderBy, Ends.bind_iff, Ends.pure_iff]
  refine (expectUnary_sure operator hl p hp).both fun l q hq hbody => ?_
  refine (expandSource_sure hrec hs q hq).both fun s q₁ h₁ hsel => ?_
  exact resolvedBody_sure hc hrec hsel hbody q₁ h₁

theorem expandThenBy_sure (hc : M.catalog.Valid) (hrec : ExpandsSurely M recur) (operator : Operator)
    (hs : source.Named M.catalog) (hl : lambda.Named M.catalog) :
    Sure M (expandThenBy recur operator source lambda) fun s => s.selector.Named M.catalog := by
  intro p hp
  simp only [expandThenBy, Ends.bind_iff]
  refine (expectUnary_sure operator hl p hp).both fun l q hq hbody => ?_
  refine (expandSource_sure hrec hs q hq).both fun s q₁ h₁ hsel => ?_
  split
  · exact rfl
  · simp only [Ends.bind_iff, Ends.pure_iff]
    exact resolvedBody_sure hc hrec hsel hbody q₁ h₁

theorem aliasFields_sure (e : Expr) : Sure M (aliasFields e) fun _ => True := by
  refine .of_known (aliasFields_onward e) fun p hp => ?_
  refine Ends.mono (Q := fun _ q => q.forest.Known M.catalog) ?_ fun _ _ h => ⟨h, trivial⟩
  unfold aliasFields
  split
  · refine Ends.forM (I := fun q => q.forest.Known M.catalog) hp.known fun field _ q hq => ?_
    dsimp only
    split
    · exact hq.of_entity fun k => Forest.entity_addAlias _ k _
    · exact hq
  · exact hp.known

theorem expandSelect_sure (hc : M.catalog.Valid) (hrec : ExpandsSurely M recur)
    (hs : source.Named M.catalog) (hl : lambda.Named M.catalog) :
    Sure M (expandSelect recur source lambda) fun s => s.selector.Named M.catalog := by
  intro p hp
  simp only [expandSelect, Ends.bind_iff, Ends.forest_iff, Ends.pure_iff]
  refine (expectUnary_sure .select hl p hp).both fun l q hq hbody => ?_
  refine (expandSource_sure hrec hs q hq).both fun s q₁ h₁ hsel => ?_
  refine (joinBody_sure hc hrec hsel hbody q₁ h₁).both fun b q₂ h₂ hb => ?_
  exact (aliasFields_sure b.body q₂ h₂).mono fun _ _ h => ⟨h.1, hb.2⟩

end Lambdas

section TwoStreams

variable {m : MergedStreams} {outer inner : Stream} {plan : HoistPlan} {collection source lambda : Expr}

theorem selectResult_sure (hc : M.catalog.Valid) (hrec : ExpandsSurely M recur)
    {result : Option ResultSelector} (ho : m.outerSelector.Named M.catalog)
    (hi : m.innerSelector.Named M.catalog)
    (hresult : ∀ x y body, result = some (x, y, body) → body.Named M.catalog) :
    Sure M (selectResult recur m result) fun s => s.selector.Named M.catalog := by
  intro p hp
  unfold selectResult
  split
  · exact ⟨hp, hi⟩
  · next x y body =>
    have composed := (substitute_namesLike y hi _).named
      ((substitute_namesLike x ho body).named (hresult x y body rfl))
    simp only [Ends.bind_iff, Ends.pure_iff]
    refine (prepareBody_sure hc hrec composed p hp).both fun body' q hq hb => ?_
    exact (joinReferenced_sure hc m.stream [body'] q hq).mono fun _ _ h => ⟨h.1, hb⟩

theorem expandJoin_sure (hc : M.catalog.Valid) (hrec : ExpandsSurely M recur)
    {outer inner outerKey innerKey result : Expr} (ho : outer.Named M.catalog)
    (hi : inner.Named M.catalog) (hk : outerKey.Named M.catalog) (hl : innerKey.Named M.catalog)
    (hr : result.Named M.catalog) :
    Sure M (expandJoin recur outer inner outerKey innerKey result) fun s => s.selector.Named M.catalog := by
  intro p hp
  simp only [expandJoin, Ends.bind_iff]
  refine (expectUnary_sure .join hk p hp).both fun k q hq hk => ?_
  refine (expectUnary_sure .join hl q hq).both fun l q₁ h₁ hl => ?_
  refine (expectBinary_sure .join hr q₁ h₁).both fun r q₂ h₂ hr => ?_
  refine (expandSource_sure hrec ho q₂ h₂).both fun s q₃ h₃ hs => ?_
  refine (expandSource_sure hrec hi q₃ h₃).both fun t q₄ h₄ ht => ?_
  refine (resolvedBody_sure hc hrec hs hk q₄ h₄).both fun b q₅ h₅ hb => ?_
  refine (resolvedBody_sure hc hrec ht hl q₅ h₅).both fun c q₆ h₆ hc' => ?_
  split
  · exact rfl
  · simp only [Ends.bind_iff, Ends.forest_iff]
    refine (mergeStreams_sure b.stream c.stream _ q₆ h₆).both fun m q₇ h₇ kept => ?_
    refine selectResult_sure hc hrec (kept.1 ▸ hb) (kept.2 ▸ hc') ?_ q₇ h₇
    rintro _ _ _ ⟨⟩
    exact hr

theorem withChainRoot_named {root : Expr} (he : e.Named M.catalog) (hr : root.Named M.catalog) :
    (e.withChainRoot root).Named M.catalog := by
  induction e using children_induction with
  | step e ih =>
    unfold withChainRoot
    split
    · next operator source arguments note =>
      have parts := he.parts nofun
      have knows := he.knows
      refine .node ?_ (List.forall_mem_cons.2 ⟨ih _ (.head _) (parts _ (.head _)), fun d hd =>
        parts d (.tail _ hd)⟩)
      cases operator <;> try trivial
      cases arguments <;> exact knows
    · exact hr

theorem withoutFilter_named {target : String} (he : e.Named M.catalog)
    (ht : ∃ t, M.catalog.type? target = some t) : (e.withoutFilter target).Named M.catalog := by
  induction e using children_induction with
  | step e ih =>
    unfold withoutFilter
    split
    · exact .node ht nofun
    · next operator source arguments note _ =>
      have parts := he.parts nofun
      have knows := he.knows
      refine .node ?_ (List.forall_mem_cons.2 ⟨ih _ (.head _) (parts _ (.head _)), fun d hd =>
        parts d (.tail _ hd)⟩)
      cases operator <;> try trivial
      cases arguments <;> exact knows
    · exact he

theorem navigationFilter?_named {filter : NavigationFilter} {rowWise : Bool}
    (h : e.navigationFilter? = some (filter, rowWise)) (he : e.Named M.catalog) :
    ∀ a ∈ filter.arguments, a.Named M.catalog := by
  induction e using children_induction generalizing rowWise with
  | step e ih =>
    unfold navigationFilter? at h
    split at h
    · cases h
      exact he.parts nofun
    · obtain ⟨⟨filter', rowWise'⟩, hsource, heq⟩ := Option.map_eq_some_iff.1 h
      cases heq
      exact ih _ (by simp [children]) hsource (he.parts nofun _ (.head _))
    · cases h

/-- The chain of a plan names what its selector names, and its target is the set that the filter was
over. -/
theorem HoistPlan.ofSelector_named (h : HoistPlan.ofSelector e = .ok plan) (he : e.Named M.catalog) :
    plan.chain.Named M.catalog ∧ ∃ t, M.catalog.type? plan.target = some t := by
  obtain ⟨chain, filter, body, rest, hchain, hfilter, harguments, -, hopened, -⟩ :=
    HoistPlan.ofSelector_eq_ok h
  have hchain : chain.Named M.catalog := by
    rcases hchain with rfl | ⟨further, note, rfl⟩
    · exact he
    · exact he.parts nofun _ (.head _)
  have target : (Expr.entitySet plan.target).Named M.catalog :=
    navigationFilter?_named hfilter hchain _ (by simp [harguments])
  exact ⟨hopened ▸ withoutFilter_named hchain target.knows, target.knows⟩

theorem expandHoisted_sure (hrec : ExpandsSurely M recur) (hplan : plan.chain.Named M.catalog)
    (ht : ∃ t, M.catalog.type? plan.target = some t) :
    Sure M (expandHoisted recur plan) fun found => ∀ s, found = some s → s.selector.Named M.catalog := by
  intro p hp
  simp only [expandHoisted, Ends.bind_iff, Ends.get_iff, Ends.forest_iff]
  refine (rootStream_sure ht p hp).both fun root q hq hroot => ?_
  refine (expandSource_sure hrec (withChainRoot_named hplan (named_toExpr.2 hroot)) q hq).both
    fun inner q' hq' hinner => ?_
  split
  · exact Ends.pure_iff.2 ⟨hq', fun s heq => Option.some.inj heq ▸ hinner⟩
  · exact Ends.bind_iff.2 ⟨hq', fun _ h => by cases h⟩

theorem hoist_sure (hc : M.catalog.Valid) (outer inner : Stream) (plan : HoistPlan) :
    Sure M (hoist outer inner plan) fun m =>
      m.outerSelector = outer.selector ∧ m.innerSelector = inner.selector := by
  intro p hp
  have resolved {f : Expr → Expansion Expr} (es : List Expr) {q : Progress}
      (hf : ∀ e, Sure M (f e) fun _ => True) (hq : q.forest.Charted M.catalog) :
      Ends ExpansionError.Innocent (es.mapM f) M q fun _ q' => q'.forest.Charted M.catalog :=
    Ends.mapM (I := fun q => q.forest.Charted M.catalog) hq fun e q hq => (hf e q hq).mono fun _ _ h => h.1
  simp only [hoist, Ends.bind_iff, Ends.forest_iff, Ends.ref_iff, Ends.modifyTally_iff]
  refine (resolved plan.innerKey (fun _ => resolve_sure _ _) hp).mono fun innerParts q hq => ?_
  refine (joinReferenced_sure hc outer plan.outerKey q hq).both fun r q₁ h₁ hr => ?_
  refine (resolved plan.outerKey (fun _ => resolve_sure _ _) h₁).mono fun outerParts q₂ h₂ => ?_
  refine (mergeStreams_sure r.1 inner _ _ ?_).mono fun m _ h => ?_
  · exact h₂
  · exact ⟨h.1, h.2.1.trans hr, h.2.2⟩

theorem correlate_sure (hc : M.catalog.Valid) (hrec : ExpandsSurely M recur) (outer : Stream)
    (hcollection : collection.Named M.catalog) :
    Sure M (correlate recur outer collection) fun m =>
      m.outerSelector = outer.selector ∧ m.innerSelector.Named M.catalog := by
  intro p hp
  simp only [correlate, Ends.bind_iff, Ends.modifyTally_iff]
  refine (expandSource_sure hrec hcollection p hp).both fun inner q hq hinner => ?_
  refine (joinReferenced_sure hc outer _ q hq).both fun r q₁ h₁ hr => ?_
  refine (resolve_sure _ inner.rows q₁ h₁).both fun rows q₂ h₂ _ => ?_
  refine (mergeStreams_sure r.1 { inner with rows } .correlated _ ?_).mono fun m _ h => ?_
  · exact h₂
  · exact ⟨h.1, h.2.1.trans hr, h.2.2 ▸ hinner⟩

theorem hoistPlan_ends (collection : Expr) : Ends ExpansionError.Innocent (hoistPlan collection) M p
    fun found q => q = p ∧ ∀ plan, found = .ok plan → HoistPlan.ofSelector collection = .ok plan := by
  simp only [hoistPlan, Ends.bind_iff, Ends.settings_iff]
  split
  · exact ⟨rfl, fun _ h => h⟩
  · exact ⟨rfl, fun _ h => by cases h⟩

theorem expandSelectMany_sure (hc : M.catalog.Valid) (hrec : ExpandsSurely M recur)
    {result : Option Expr} (hs : source.Named M.catalog) (hl : lambda.Named M.catalog)
    (hr : ∀ d, result = some d → d.Named M.catalog) :
    Sure M (expandSelectMany recur source lambda result) fun s => s.selector.Named M.catalog := by
  intro p hp
  simp only [expandSelectMany, Ends.bind_iff]
  refine (expectUnary_sure .selectMany hl p hp).both fun l q hq hbody => ?_
  have results : Ends ExpansionError.Innocent (result.mapM (expectBinary .selectMany)) M q fun r q' =>
      q'.forest.Charted M.catalog ∧ ∀ x y d, r = some (x, y, d) → d.Named M.catalog := by
    cases result with
    | none => exact ⟨hq, nofun⟩
    | some d =>
      simp only [Option.mapM_some, Ends.map_iff]
      refine (expectBinary_sure .selectMany (hr d rfl) q hq).both fun r q' hq' h => ⟨hq', ?_⟩
      rintro _ _ _ ⟨⟩
      exact h
  refine results.both fun r q₁ h₁ hr => ?_
  refine (expandSource_sure hrec hs q₁ h₁).both fun outer q₂ h₂ ho => ?_
  have composed := (substitute_namesLike l.1 ho l.2).named hbody
  refine (rewriteBody_sure hc _ q₂ h₂).both fun collection q₃ h₃ like => ?_
  have hcollection := like.named composed
  have correlated {q : Progress} (hq : q.forest.Charted M.catalog) :
      Ends ExpansionError.Innocent (correlate recur outer collection) M q fun m q' =>
        Ends ExpansionError.Innocent (selectResult recur m r) M q' fun s q'' =>
          q''.forest.Charted M.catalog ∧ s.selector.Named M.catalog :=
    (correlate_sure hc hrec outer hcollection q hq).both fun m q' hq' h =>
      selectResult_sure hc hrec (h.1 ▸ ho) h.2 hr q' hq'
  refine (hoistPlan_ends collection).mono ?_
  rintro found _ ⟨rfl, hplan⟩
  cases found with
  | error reason => exact Ends.bind_iff.2 (correlated h₃)
  | ok plan =>
    obtain ⟨hchain, htarget⟩ := HoistPlan.ofSelector_named (hplan plan rfl) hcollection
    refine Ends.bind_iff.2 ((expandHoisted_sure hrec hchain htarget _ h₃).both fun found q hq hfound => ?_)
    cases found with
    | none => exact Ends.bind_iff.2 (correlated hq)
    | some inner =>
      refine Ends.bind_iff.2 ((hoist_sure hc outer inner plan q hq).both fun m q' hq' kept => ?_)
      exact selectResult_sure hc hrec (kept.1 ▸ ho) (kept.2 ▸ hfound inner rfl) hr q' hq'

end TwoStreams

section Queries

variable {operator : Operator} {arguments : List Expr}

theorem splitPredicate_named (operator : Operator) {source : Expr} {rest : List Expr}
    (hs : source.Named M.catalog) (hr : ∀ a ∈ rest, a.Named M.catalog) :
    (splitPredicate operator source rest).1.Named M.catalog := by
  unfold splitPredicate
  split
  · exact .node trivial (List.forall_mem_cons.2 ⟨hs, hr⟩)
  · exact hs

/-- The argument of an `OfType` names an entity type that is there. -/
theorem entityArgument_sure {rest : List Expr} (h : ∀ target, rest.head? = some target → M.catalog.IsTarget target) :
    Sure M (entityArgument rest.head?) fun entity => ∃ t, M.catalog.type? entity = some t := by
  intro p hp
  unfold entityArgument
  split
  · next heq => exact ⟨hp, h _ heq⟩
  · next heq => exact ⟨hp, h _ heq⟩
  · exact rfl

theorem expandTerminal_sure (hrec : ExpandsSurely M recur) {note : Option CallNote}
    (he : (Expr.call operator arguments note).Named M.catalog) :
    Sure M (expandTerminal recur operator arguments) fun e' => e'.Named M.catalog := by
  intro p hp
  cases arguments with
  | nil => exact rfl
  | cons source rest =>
    have parts := List.forall_mem_cons.1 (he.parts nofun)
    have knows := he.knows
    have keeps (op : Operator) (s' : Stream) (rest' : List Expr) (h : s'.selector.Named M.catalog) :
        (s'.applyOperator op rest').toExpr.Named M.catalog := named_toExpr.2 h
    simp only [expandTerminal, Ends.bind_iff]
    refine (expandSource_sure hrec (splitPredicate_named operator parts.1 parts.2) p hp).both
      fun s q hq hs => ?_
    have materialized : Ends ExpansionError.Innocent (materialize s none) M q fun s' q' =>
        q'.forest.Charted M.catalog ∧ s'.selector.Named M.catalog := by
      refine materialize_sure ?_ hs q hq
      rintro _ ⟨⟩
    split
    · refine ⟨hq, .node ?_ (List.forall_mem_cons.2 ⟨named_toExpr.2 hs, fun a ha => ?_⟩)⟩
      · cases operator <;> trivial
      · refine parts.2 a ?_
        unfold splitPredicate at ha
        split at ha
        · cases ha
        · exact ha
    · split
      · exact ⟨hq, named_toExpr.2 hs⟩
      · split
        case h_5 =>
          have target : ∀ target, rest.head? = some target → M.catalog.IsTarget target := by
            rintro target htarget
            cases rest with
            | nil => cases htarget
            | cons a rest =>
              cases htarget
              exact knows
          simp only [Ends.bind_iff, Ends.pure_iff]
          refine (entityArgument_sure target q hq).both fun entity q' hq' known => ?_
          obtain ⟨t, ht⟩ := known
          rw [Ends.entityType ht]
          refine (materialize_sure (fun _ heq => ?_) hs q' hq').mono fun s' _ h => h.imp_right (keeps _ s' _)
          cases heq
          exact ⟨t, ht⟩
        case h_6 =>
          simp only [Ends.bind_iff, Ends.modifyForest_iff, Ends.pure_iff]
          refine materialized.both fun s' q' hq' h => ⟨⟨?_, ?_⟩, keeps _ s' _ h⟩
          · exact (Forest.Onward.foldl (fun f m => Forest.onward_makeOptional m) s'.sources _ hq'.linked).1
          · exact hq'.known.of_entity fun k =>
              Forest.entity_foldl (fun f m => Forest.entity_makeOptional m k) s'.sources _
        case h_7 => exact rfl
        all_goals
          simp only [Ends.bind_iff, Ends.pure_iff]
          exact materialized.mono fun s' q' h => h.imp_right (keeps _ s' _)

theorem expandCall_sure (hc : M.catalog.Valid) (hrec : ExpandsSurely M recur) {note : Option CallNote}
    (he : (Expr.call operator arguments note).Named M.catalog) :
    Sure M (expandCall recur operator arguments note) fun e' => e'.Named M.catalog := by
  have parts : ∀ a ∈ arguments, a.Named M.catalog := he.parts nofun
  have stream {x : Expansion Stream} (h : Sure M x fun s => s.selector.Named M.catalog) :
      Sure M (do return (← x).toExpr) fun e' => e'.Named M.catalog := by
    intro p hp
    simp only [Ends.bind_iff, Ends.pure_iff]
    exact (h p hp).mono fun _ _ h => h.imp_right named_toExpr.2
  intro p hp
  unfold expandCall
  split
  · next info hinfo =>
    obtain ⟨hoperator, -⟩ := Operator.info?_eq_some hinfo
    dsimp only
    split
    · exact rfl
    · simp only [expandOperator, hoperator]
      split
      · exact stream (expandFilter_sure hc hrec (parts _ (by simp)) (parts _ (by simp)) note) p hp
      · exact stream (expandSelect_sure hc hrec (parts _ (by simp)) (parts _ (by simp))) p hp
      · exact stream (expandOrderBy_sure hc hrec _ (parts _ (by simp)) (parts _ (by simp))) p hp
      · exact stream (expandOrderBy_sure hc hrec _ (parts _ (by simp)) (parts _ (by simp))) p hp
      · exact stream (expandThenBy_sure hc hrec _ (parts _ (by simp)) (parts _ (by simp))) p hp
      · exact stream (expandThenBy_sure hc hrec _ (parts _ (by simp)) (parts _ (by simp))) p hp
      · exact stream (expandJoin_sure hc hrec (parts _ (by simp)) (parts _ (by simp))
          (parts _ (by simp)) (parts _ (by simp)) (parts _ (by simp))) p hp
      · refine stream (expandSelectMany_sure hc hrec (parts _ (by simp))
          (parts _ (by simp)) fun d hd => parts d ?_) p hp
        exact .tail _ (.tail _ (List.mem_of_mem_head? hd))
      · split
        · exact expandTerminal_sure hrec he p hp
        · exact rfl
  · exact rfl

/-- Expanding a query over a consistent catalog never fails for the catalog's sake. -/
theorem expandWithin_sure (hc : M.catalog.Valid) (n : Nat) : ExpandsSurely M (expandWithin n) := by
  induction n with
  | zero => exact fun _ _ _ _ => rfl
  | succ n ih =>
    intro e he p hp
    unfold expandWithin
    split
    · simp only [Ends.bind_iff, Ends.pure_iff]
      exact (rootStream_sure he.knows p hp).mono fun _ _ h => h.imp_right named_toExpr.2
    · exact ⟨hp, he⟩
    · exact expandCall_sure hc ih he p hp
    · exact rfl

end Queries

/-- A checked catalog cannot make an expansion fail: no query whose entity sets and `OfType` targets are
all in the catalog is refused for the catalog's sake, whatever the settings are. -/
theorem expandQuery_innocent {types : List EntityType} {c : Catalog} (h : Catalog.checked types = .ok c)
    (settings : Settings) {e : Expr} (he : ∀ d ∈ e.nodes, c.Knows d) {cause : ExpansionError}
    (hcause : expandQuery c settings e = .error (.expansion cause)) : cause.blamesCatalog = false := by
  unfold expandQuery at hcause
  split at hcause
  · cases hcause
  · split at hcause
    · cases hcause
    · next cause' hrun =>
      cases hcause
      have ends : Ends ExpansionError.Innocent (do reduce (← expand e)) ⟨c, settings⟩ {} fun _ _ => True := by
        simp only [expand, Ends.bind_iff, Ends.read_iff]
        refine (expandWithin_sure (M := ⟨c, settings⟩) (Catalog.valid_of_checked h) _ e (named_of_nodes he) {}
          ⟨Forest.empty_linked c, Forest.empty_known c⟩).both fun e' q hq _ => ?_
        exact (reduce_sure e' q hq).mono fun _ _ _ => trivial
      exact (Ends.iff_runs.1 ends).2 _ hrun

namespace Shop

/-- Orders of customers with more orders than the order weighs. Orders have no weight. -/
def heavyOrders : Expr :=
  .call .ofType [
    .call .filter [.entitySet "Order", .lambda ["o"] (.binary .greater
      (.member (.member (.member (.param "o") "Buyer") "Orders") "Count")
      (.member (.param "o") "Weight"))] none,
    .string "Order"] none

theorem knows_heavyOrders : ∀ d ∈ heavyOrders.nodes, catalog.Knows d := by
  intro d hd
  simp only [heavyOrders, Expr.string, nodes, itemsNodes, List.cons_append, List.nil_append, List.append_nil,
    List.mem_cons, List.not_mem_nil, or_false] at hd
  rcases hd with rfl | rfl | rfl | rfl | rfl | rfl | rfl | rfl | rfl | rfl | rfl | rfl
  all_goals first | trivial | exact ⟨_, rfl⟩

end Shop

theorem innocent_heavyOrders : ∃ cause,
    expandQuery Shop.catalog {} Shop.heavyOrders = .error (.expansion cause) ∧
      cause.blamesCatalog = false := by
  have refused : (match expandQuery Shop.catalog {} Shop.heavyOrders with
      | .error (.expansion _) => true
      | _ => false) = true := by decide +kernel
  split at refused
  · next cause h => exact ⟨cause, h, expandQuery_innocent Shop.checked_types {} Shop.knows_heavyOrders h⟩
  · cases refused

end EntityQuery
