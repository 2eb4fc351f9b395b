import EntityQuery.Proofs.Matching
import EntityQuery.Proofs.Streams

/-!
# Joining a navigation

A join along a navigation keeps the rows of a stream one by one: a required navigation has exactly
one match, and an optional one at most one, or null. After the join the row of the child is found
beside the old row, and everything that was in the old row is found there under a longer path.
-/

namespace EntityQuery

open EntityQuery.Expr

section Values

variable {c : Catalog} {tables : Tables} {f : Forest} {n q : NodeId} {entity : String} {origin : Value}

/-- What following the members that lead to a node gives from a row of its source. -/
def Forest.valueAt (f : Forest) (c : Catalog) (tables : Tables) (entity : String) (n : NodeId)
    (origin : Value) : Outcome Value :=
  Shape.readAlong c tables (some (.entity entity)) (f.memberPath n) origin

theorem Forest.valueAt_child (hf : f.Sound c) (hn : n.index < f.size)
    (he : (f.source (f.node n).source).entity = some entity) (hp : (f.node n).parent = some q)
    {edge : NavigationEdge} (hedge : (f.node n).edge = some edge) {u : Value}
    (hu : f.valueAt c tables entity q origin = .ok u) :
    f.valueAt c tables entity n origin = .ok (edge.follow tables u) := by
  have below := hf.below hp
  obtain ⟨owner, edge', howner, hnav, hedge', -, -⟩ := below.edge
  obtain rfl : edge = edge' := Option.some.inj (hedge.symm.trans hedge')
  have hq := Nat.lt_trans below.older hn
  obtain ⟨entity', hentity', hshape⟩ := shapeAt_single hf hq below.single
  obtain rfl : owner = entity' := Option.some.inj (howner.symm.trans hentity')
  rw [valueAt] at hu
  rw [valueAt, memberPath_below below hp hedge, Shape.readAlong_append, hu, Option.bind_some,
    along?_memberPath hf hq (below.source ▸ he), hshape]
  change Shape.read c tables (some (.entity owner)) edge.name u = _
  simp only [Shape.read, hnav]
  rfl

/-- The value of a node has the shape of the node. -/
theorem Forest.valueAt_fits (ht : Consistent c tables) (hf : f.Sound c) (hn : n.index < f.size)
    (he : (f.source (f.node n).source).entity = some entity) {rows : List Value}
    (hl : tables.lookup entity = some rows) (ho : origin ∈ rows) :
    ∃ v, f.valueAt c tables entity n origin = .ok v ∧ (f.shapeAt n).Fits tables v :=
  Shape.readAlong_fits ht (along?_memberPath hf hn he) (.inr ⟨rows, hl, ho⟩)

/-- A node that is not optional has a row. -/
theorem Forest.valueAt_required (ht : Consistent c tables) (hf : f.Sound c) (hn : n.index < f.size)
    (he : (f.source (f.node n).source).entity = some entity) {rows : List Value}
    (hl : tables.lookup entity = some rows) (ho : origin ∈ rows)
    (hs : (f.node n).isCollection = false) (hopt : (f.node n).isOptional = false) :
    ∃ v target rows, f.valueAt c tables entity n origin = .ok v ∧
      (f.node n).entity = some target ∧ tables.lookup target = some rows ∧ v ∈ rows := by
  obtain ⟨i⟩ := n
  induction i using Nat.strongRecOn with
  | _ i ih =>
    cases hp : (f.node ⟨i⟩).parent with
    | none =>
      refine ⟨origin, entity, rows, ?_, (hf.top hn hp).2.trans he, hl, ho⟩
      rw [valueAt, memberPath_top hf hn hp]
      rfl
    | some q =>
      have below := hf.below hp
      obtain ⟨owner, edge, howner, hnav, hedge, htarget, hrequired⟩ := below.edge
      obtain ⟨hqopt, hedgeopt⟩ := hrequired hopt
      have hq := Nat.lt_trans below.older hn
      obtain ⟨u, owner', rows', hu, howner', hl', hmem⟩ :=
        ih q.index below.older hq (below.source ▸ he) below.single hqopt
      obtain rfl : owner = owner' := Option.some.inj (howner.symm.trans howner')
      have hsingle : edge.isCollection = false := by
        rw [Node.isCollection, hedge] at hs
        exact hs
      have hlen := ht.required hnav hl' hmem hsingle hedgeopt
      obtain ⟨t, ht⟩ := List.length_eq_one_iff.1 hlen
      obtain ⟨targets, hlt, hmemt⟩ := Shape.mem_related (ht ▸ List.mem_singleton_self t : t ∈ edge.related tables u)
      refine ⟨t, edge.target, targets, ?_, htarget, hlt, hmemt⟩
      rw [valueAt_child hf hn he hp hedge hu, NavigationEdge.follow, if_neg (by simp [hsingle]), ht]
      rfl

/-- Nothing is related to a missing owner. -/
theorem NavigationEdge.related_null {edge : NavigationEdge}
    (hlen : edge.sourceKey.length = edge.targetKey.length) (hne : edge.sourceKey ≠ []) :
    edge.related tables .null = [] := by
  refine List.filter_eq_nil_iff.2 fun t _ h => ?_
  rw [relates] at h
  cases hs : edge.sourceKey with
  | nil => exact hne hs
  | cons s _ =>
    cases ht : edge.targetKey with
    | nil =>
      rw [hs, ht] at hlen
      cases hlen
    | cons u _ =>
      rw [hs, ht] at h
      cases h

/-- What a checked catalog says of the keys of a navigation. -/
theorem NavigationEdge.Declared.keys {edge : NavigationEdge} {owner : EntityType}
    (h : edge.Declared c owner) :
    edge.sourceKey.length = edge.targetKey.length ∧ edge.sourceKey ≠ [] := by
  obtain ⟨target, source, other, -, hs, ho, hlen, hne⟩ := h.target
  have hnames := (EntityType.names_of_propertiesNamed hs).1
  have honames := (EntityType.names_of_propertiesNamed ho).1
  rw [← hnames, ← honames]
  exact ⟨by simpa using hlen, by simpa using hne⟩

/-- A single-valued navigation relates at most one row to an owner, and exactly one if it is
required. -/
theorem NavigationEdge.related_single {edge : NavigationEdge} {owner name : String} {u : Value}
    (hc : c.Sound) (ht : Consistent c tables) (hnav : c.navigation? owner name = some edge)
    (hs : edge.isCollection = false) (hu : Shape.Fits tables (.entity owner) u) :
    (edge.related tables u).length ≤ 1 := by
  rcases hu with rfl | ⟨rows, hl, hmem⟩
  · obtain ⟨t, hty, hn⟩ := Catalog.navigation?_eq_some.1 hnav
    obtain ⟨hlen, hne⟩ := (hc hty hn).keys
    rw [related_null hlen hne]
    exact Nat.zero_le 1
  · exact ht.single hnav hl hmem hs

end Values

section Keys

variable {k : Nat} {refs : RowRef → Prop}

theorem pairing_settled {x y : String} (hx : OldName k x) (hy : OldName k y) :
    (pairing x y).Settled k refs := by
  refine .lambda (by simp [hx, hy]) (.of_parts (by simp [pairRecord]) (by simp [pairRecord])
    (fun _ hz => absurd hz List.not_mem_nil) fun e he => ?_)
  simp only [pairRecord, children, List.map_cons, List.map_nil, List.mem_cons, List.not_mem_nil,
    or_false] at he
  rcases he with rfl | rfl
  · exact .param hx
  · exact .param hy

theorem key_settled {parts : List Expr} (h : ∀ e ∈ parts, e.Settled k refs) :
    (Expr.key parts).Settled k refs := by
  unfold Expr.key
  split
  · exact h _ (.head _)
  · exact .of_parts (by simp) (by simp) (fun _ hx => absurd hx List.not_mem_nil) h

theorem JoinKey.toExpr_settled {j : JoinKey} (hx : OldName k j.parameter)
    (h : j.value.Settled k refs) : j.toExpr.Settled k refs :=
  .lambda (by simpa using hx) h

theorem navigationColumn_settled {owner : Expr} {optional : Bool} {target : String} {o t : Property}
    (ho : owner.Settled k refs) (ht : OldName k target) :
    (navigationColumn owner optional target o t).1.Settled k refs ∧
      (navigationColumn owner optional target o t).2.Settled k refs := by
  have convert {e : Expr} {type : ScalarType} (he : e.Settled k refs) :
      (Expr.convert e type true).Settled k refs :=
    .of_parts (by simp) (by simp) (fun _ hx => absurd hx List.not_mem_nil)
      (by simpa [children] using he)
  have null : Expr.null.Settled k refs :=
    .of_parts (by simp [Expr.null]) (by simp [Expr.null]) (fun _ hx => absurd hx List.not_mem_nil)
      (fun _ hc => absurd hc List.not_mem_nil)
  have widen (b : Bool) {e : Expr} {type : ScalarType} (he : e.Settled k refs) :
      (if b then Expr.convert e type true else e).Settled k refs := by
    cases b
    · exact he
    · exact convert he
  refine ⟨?_, widen _ (.member (.param ht))⟩
  cases optional with
  | false => exact widen _ ho.member
  | true =>
    refine .of_parts (by simp [navigationColumn]) (by simp [navigationColumn])
      (fun _ hx => absurd hx List.not_mem_nil) fun e he => ?_
    simp only [navigationColumn, if_true, children, List.mem_cons, List.not_mem_nil, or_false] at he
    rcases he with rfl | rfl | rfl
    · exact .of_parts (by simp [Expr.eq]) (by simp [Expr.eq]) (fun _ hx => absurd hx List.not_mem_nil)
        (by simpa [children, Expr.eq] using ⟨ho, null⟩)
    · exact convert null
    · exact widen _ ho.member

/-- A join of settled parts generates at most names, and answers rows. -/
theorem Runs.keyedJoin {M : Model} {p p' : Progress} {outer inner e : Expr}
    {outerKey innerKey : JoinKey} {note : JoinNote}
    (h : Runs (keyedJoin outer inner outerKey innerKey note) M p e p')
    (ho : outer.Settled p.names refs) (hi : inner.Settled p.names refs)
    (hk : outerKey.value.Settled p.names refs) (hl : innerKey.value.Settled p.names refs)
    (hout : OldName p.names outerKey.parameter) (hinn : OldName p.names innerKey.parameter) :
    OnlyNames p p' ∧ e.isSequence = true ∧ e.Settled p'.names refs := by
  rw [EntityQuery.keyedJoin] at h
  split at h
  · obtain ⟨rfl, rfl⟩ := Runs.pure_iff.1 h
    refine ⟨.refl _, rfl, .call fun a ha => ?_⟩
    simp only [List.mem_cons, List.not_mem_nil, or_false] at ha
    rcases ha with rfl | rfl | rfl | rfl | rfl
    · exact ho
    · exact hi
    · exact JoinKey.toExpr_settled hout hk
    · exact JoinKey.toExpr_settled hinn hl
    · exact pairing_settled hout hinn
  · obtain ⟨rfl, rfl⟩ := Runs.leftOuterJoin h
    have hle : p.names ≤ p.names + 2 := Nat.le_add_right _ _
    have hgroup : OldName (p.names + 2) (generatedName 'g' (p.names + 1)) :=
      (OldName.generated 'g' (p.names + 1)).mono (by omega)
    have hrow : OldName (p.names + 2) (generatedName 't' (p.names + 2)) := .generated 't' _
    refine ⟨⟨rfl, hle⟩, rfl, .call fun a ha => ?_⟩
    simp only [List.mem_cons, List.not_mem_nil, or_false] at ha
    rcases ha with rfl | rfl | rfl
    · refine .call fun a ha => ?_
      simp only [List.mem_cons, List.not_mem_nil, or_false] at ha
      rcases ha with rfl | rfl | rfl | rfl | rfl
      · exact ho.mono hle fun _ h => h
      · exact hi.mono hle fun _ h => h
      · exact JoinKey.toExpr_settled (hout.mono hle) (hk.mono hle fun _ h => h)
      · exact JoinKey.toExpr_settled (hinn.mono hle) (hl.mono hle fun _ h => h)
      · exact pairing_settled (hout.mono hle) hgroup
    · refine .lambda (by simpa using hrow) (.call fun a ha => ?_)
      obtain rfl := List.mem_singleton.1 ha
      exact .member (.param hrow)
    · exact pairing_settled hrow (hinn.mono hle)

end Keys

section Node

variable {M : Model} {tables : Tables} {p p' : Progress} {opens : List SourceId} {m : SourceId}
  {entity : String} {s s' : Stream} {element : Shape} {value : OpenRows → Outcome Value} {n : NodeId}

/-- The columns of a join along a navigation, as they stand on the side of the owner and on that of
the target. -/
def navigationColumns (owner : Expr) (optional : Bool) (target : String)
    (outerKey innerKey : List Property) : List (Expr × Expr) :=
  (outerKey.zip innerKey).map fun (o, t) => navigationColumn owner optional target o t

/-- Both sides of the columns are settled. -/
theorem navigationColumns_settled {k : Nat} (refs : RowRef → Prop) {parameter target : String}
    (hp : OldName k parameter) (ht : OldName k target) (path : List String) (optional : Bool)
    (outerKey innerKey : List Property) :
    ∀ a ∈ navigationColumns (.readPath parameter path) optional target outerKey innerKey,
      a.1.Settled k refs ∧ a.2.Settled k refs := by
  intro a ha
  obtain ⟨⟨o, t⟩, -, rfl⟩ := List.mem_map.1 ha
  exact navigationColumn_settled (.readPath hp path) ht

/-- What a join along a navigation has found and made. -/
structure JoinsAlong (M : Model) (p : Progress) (s : Stream) (n q : NodeId) (edge : NavigationEdge)
    (path : List String) (outerKey innerKey : List Property) (target : String) (note : JoinNote)
    (rows : Expr) (q' : Progress) : Prop where
  along : (p.forest.node n).edge = some edge
  above : (p.forest.node n).parent = some q
  owned : ∃ t, M.catalog.type? ((p.forest.node q).entity.getD "") = some t ∧
    t.propertiesNamed edge.sourceKey = .ok outerKey
  targeted : ∃ t, M.catalog.type? edge.target = some t ∧
    t.propertiesNamed edge.targetKey = .ok innerKey
  length : outerKey.length = innerKey.length
  fresh : ∃ letter, target = generatedName letter (p.names + 1)
  named : target = rowParameter edge.target ++ toString (p.names + 1)
  present : p.forest.rowPath? q = some path
  optional : note.kind = if (p.forest.node n).isOptional then .leftOuter else .inner
  guarded : note.outerNullGuard = (p.forest.node q).isOptional
  noted : note.outerKey = outerKey.map (·.name) ∧ note.innerKey = innerKey.map (·.name)
  joined :
    let columns := navigationColumns (.readPath s.parameter path) (p.forest.node q).isOptional target
      outerKey innerKey
    Runs (keyedJoin s.rows (.entitySet edge.target) ⟨s.parameter, .key (columns.map (·.1))⟩
      ⟨target, .key (columns.map (·.2))⟩ note) M { p with names := p.names + 1 } rows q'

theorem Runs.joinNode (h : Runs (joinNode s n) M p s' p') :
    ∃ q edge path outerKey innerKey target note rows q',
      JoinsAlong M p s n q edge path outerKey innerKey target note rows q' ∧
      s' = { s with rows, parameter := generatedName 't' (q'.names + 1) } ∧
      p'.forest =
        (s.sources.foldl (·.wrap note.kind.wrapPath) q'.forest).makePresent n [innerField] ∧
      p'.names = q'.names + 1 := by
  simp only [EntityQuery.joinNode, Runs.bind_iff, Runs.forest_iff] at h
  obtain ⟨_, _, ⟨rfl, rfl⟩, h⟩ := h
  split at h
  · next edge q hedge hq =>
    simp only [Runs.bind_iff, Runs.entityType_iff, Runs.ofCatalog_iff] at h
    obtain ⟨ownerType, _, ⟨hot, rfl⟩, targetType, _, ⟨htt, rfl⟩, outerKey, _, ⟨hok, rfl⟩, innerKey,
      _, ⟨hik, rfl⟩, h⟩ := h
    split at h
    · simp only [Runs.bind_iff, Runs.throw_iff, false_and, exists_false] at h
    · next hlen =>
      obtain ⟨letter, hletter⟩ := rowParameter_eq edge.target
      simp only [Runs.bind_iff, hletter, Runs.freshName_letter] at h
      obtain ⟨target, _, ⟨rfl, rfl⟩, h⟩ := h
      split at h
      · next path hpath =>
        simp only [Runs.bind_iff, Runs.pure_iff] at h
        obtain ⟨_, _, ⟨rfl, rfl⟩, rows, q', hjoin, _, _, hf, _, _, ht, name, _, hname, rfl, rfl⟩ := h
        obtain rfl := Runs.modifyForest_iff.1 hf
        obtain rfl := Runs.modifyTally_iff.1 ht
        obtain ⟨rfl, rfl⟩ := Runs.freshName_iff.1 hname
        have found : JoinsAlong M p s n q edge _ outerKey innerKey _ _ rows q' := {
          joined := hjoin
          along := hedge
          above := hq
          owned := ⟨ownerType, hot, hok⟩
          targeted := ⟨targetType, htt, hik⟩
          length := Decidable.not_not.1 hlen
          fresh := ⟨letter, rfl⟩
          named := hletter ▸ rfl
          present := hpath
          optional := rfl
          guarded := rfl
          noted := ⟨rfl, rfl⟩ }
        exact ⟨q, edge, _, outerKey, innerKey, _, _, rows, q', found, rfl, rfl, rfl⟩
      · simp only [Runs.bind_iff, Runs.throw_iff, false_and, exists_false] at h
  · exact (Runs.throw_iff.1 h).elim

/-- Where rows are found after a join. -/
theorem rowPath?_joined {c : Catalog} {f : Forest} (hf : f.Sound c) (hm : m.index < f.sources.length)
    (wrapped place : List String) (k : NodeId) {path : List String}
    (hk : (f.node k).source = m)
    (h : ((f.wrap wrapped m).makePresent n place).rowPath? k = some path) :
    k = n ∧ path = place ∨ ∃ old, f.rowPath? k = some old ∧ path = wrapped ++ old := by
  rw [Forest.rowPath?_makePresent] at h
  split at h
  · next hn => exact .inl ⟨hn.1, (Option.some.inj h).symm⟩
  · rw [Forest.rowPath?_wrap hf hm, if_pos hk, Option.map_eq_some_iff] at h
    obtain ⟨old, hold, rfl⟩ := h
    exact .inr ⟨old, hold, rfl⟩

namespace JoinsAlong

variable {q : NodeId} {edge : NavigationEdge} {path : List String} {outerKey innerKey : List Property}
  {target : String} {note : JoinNote} {rows : Expr} {q' : Progress}

/-- In every row there is an owner of the shape of its node, and one row is related to it if the
navigation is not optional. -/
theorem owner (h : JoinsAlong M p s n q edge path outerKey innerKey target note rows q')
    (hc : M.catalog.Sound) (ht : Consistent M.catalog tables) (hp : p.forest.Sound M.catalog)
    (hn : (p.forest.node n).source = m) (hs : (p.forest.node n).isCollection = false)
    (he : (p.forest.source m).entity = some entity) {o : OpenRows} {e : Entry}
    (hfits : e.Fits M.catalog tables p.forest m entity s.selector o) :
    ∃ owner u, (p.forest.node q).entity = some owner ∧ e.row.at path = .ok u ∧
      Shape.Fits tables (.entity owner) u ∧
      p.forest.valueAt M.catalog tables entity n e.origin = .ok (edge.follow tables u) ∧
      edge.isCollection = false ∧ (edge.related tables u).length ≤ 1 ∧
      (note.kind = .inner → (edge.related tables u).length = 1) ∧
      M.catalog.navigation? owner edge.name = some edge := by
  have below := hp.below h.above
  have hrange := Forest.range_of_parent h.above
  have hq := Nat.lt_trans below.older hrange
  have hqs : (p.forest.node q).source = m := below.source.trans hn
  obtain ⟨owner, edge', howner, hnav, hedge', -, hoptional⟩ := below.edge
  obtain rfl : edge = edge' := Option.some.inj (h.along.symm.trans hedge')
  obtain ⟨rows, hl, horigin⟩ := hfits.origin
  have hqe : (p.forest.source (p.forest.node q).source).entity = some entity := by rw [hqs, he]
  have hne : (p.forest.source (p.forest.node n).source).entity = some entity := by rw [hn, he]
  obtain ⟨u, hu, hufits⟩ := Forest.valueAt_fits ht hp hq hqe hl horigin
  obtain ⟨owner', howner', hshape⟩ := Forest.shapeAt_single hp hq below.single
  obtain rfl : owner = owner' := Option.some.inj (howner.symm.trans howner')
  rw [hshape] at hufits
  have hsingle : edge.isCollection = false := by
    rw [Node.isCollection, h.along] at hs
    exact hs
  refine ⟨owner, u, howner, (hfits.holds q path hqs h.present).trans hu, hufits,
    Forest.valueAt_child hp hrange hne h.above h.along hu, hsingle,
    NavigationEdge.related_single hc ht hnav hsingle hufits, fun hkind => ?_, hnav⟩
  have hrequired : (p.forest.node n).isOptional = false := by
    rw [h.optional] at hkind
    split at hkind
    · cases hkind
    · exact Bool.eq_false_iff.2 ‹_›
  obtain ⟨hqoptional, hedge⟩ := hoptional hrequired
  obtain ⟨u', owner', rows', hu', howner', hl', hmem⟩ :=
    Forest.valueAt_required ht hp hq hqe hl horigin below.single hqoptional
  obtain rfl : u = u' := Except.ok.inj (hu.symm.trans hu')
  obtain rfl : owner = owner' := Option.some.inj (howner.symm.trans howner')
  exact ht.required hnav hl' hmem hsingle hedge

/-- The columns of an owner's key are columns of its row, with scalars in them. -/
theorem ownerColumn (h : JoinsAlong M p s n q edge path outerKey innerKey target note rows q')
    (ht : Carried M.catalog tables) {owner : String} {u : Value}
    (howner : (p.forest.node q).entity = some owner) (hu : Shape.Fits tables (.entity owner) u) :
    outerKey.map (·.name) = edge.sourceKey ∧ ∀ column ∈ outerKey,
      evalMember column.name u = .ok (u.column column.name) ∧
        (u.column column.name).isScalar = true := by
  obtain ⟨t, hty, hproperties⟩ := h.owned
  rw [howner, Option.getD_some] at hty
  obtain ⟨hnames, hdeclared⟩ := EntityType.names_of_propertiesNamed hproperties
  exact ⟨hnames, fun column hmem => evalMember_column ht hu hty (hdeclared _ hmem)⟩

/-- The two keys of the edge have as many columns. -/
theorem keys (h : JoinsAlong M p s n q edge path outerKey innerKey target note rows q') :
    edge.sourceKey.length = edge.targetKey.length := by
  obtain ⟨_, -, ho⟩ := h.owned
  obtain ⟨_, -, ht⟩ := h.targeted
  rw [← (EntityType.names_of_propertiesNamed ho).1, ← (EntityType.names_of_propertiesNamed ht).1,
    List.length_map, List.length_map, h.length]

/-- The key of an owner with all columns of it. -/
theorem ownerKey_of_columns (h : JoinsAlong M p s n q edge path outerKey innerKey target note rows q')
    {w u : Value} {v : RowView} {scope : Scope} (hw : w.at path = .ok u)
    (hu : ∀ column ∈ edge.sourceKey, evalMember column u = .ok (u.column column)) :
    (Expr.key ((navigationColumns (.readPath s.parameter path) (p.forest.node q).isOptional target
        outerKey innerKey).map (·.1))).evalIn tables v (scope.bind [s.parameter] [w]) =
      .ok (keyValue (edge.sourceKey.map u.column)) := by
  obtain ⟨_, -, hproperties⟩ := h.owned
  have hnames := (EntityType.names_of_propertiesNamed hproperties).1
  have hread : (Expr.readPath s.parameter path).evalIn tables v
      (scope.bind [s.parameter] [w]) = .ok u :=
    (evalIn_readPath path List.lookup_cons_self).trans hw
  rw [navigationColumns, List.map_map, evalIn_key (g := fun a => u.column a.1.name)]
  · rw [← hnames, ← List.map_fst_zip (Nat.le_of_eq h.length), List.map_map, List.map_map,
      List.map_fst_zip (Nat.le_of_eq h.length)]
    rfl
  · intro a ha
    refine evalIn_ownerColumn hread (hu _ ?_)
    exact hnames ▸ List.mem_map_of_mem (List.of_mem_zip ha).1

/-- The key of the owner in a row. -/
theorem ownerKey (h : JoinsAlong M p s n q edge path outerKey innerKey target note rows q')
    (ht : Carried M.catalog tables) {owner : String} {w u : Value} {v : RowView}
    {scope : Scope} (howner : (p.forest.node q).entity = some owner) (hw : w.at path = .ok u)
    (hu : Shape.Fits tables (.entity owner) u) :
    (Expr.key ((navigationColumns (.readPath s.parameter path) (p.forest.node q).isOptional target
        outerKey innerKey).map (·.1))).evalIn tables v (scope.bind [s.parameter] [w]) =
      .ok (keyValue (edge.sourceKey.map u.column)) := by
  obtain ⟨hnames, hcolumns⟩ := h.ownerColumn ht howner hu
  refine h.ownerKey_of_columns hw fun _ hcolumn => ?_
  obtain ⟨column, hmem, rfl⟩ := List.mem_map.1 (hnames ▸ hcolumn)
  exact (hcolumns column hmem).1

/-- The key of a row with all columns of it. -/
theorem targetKey_of_columns
    (h : JoinsAlong M p s n q edge path outerKey innerKey target note rows q') {t : Value} {v : RowView}
    {scope : Scope} (ht : ∀ column ∈ edge.targetKey, evalMember column t = .ok (t.column column)) :
    (Expr.key ((navigationColumns (.readPath s.parameter path) (p.forest.node q).isOptional target
        outerKey innerKey).map (·.2))).evalIn tables v (scope.bind [target] [t]) =
      .ok (keyValue (edge.targetKey.map t.column)) := by
  obtain ⟨_, -, hproperties⟩ := h.targeted
  have hnames := (EntityType.names_of_propertiesNamed hproperties).1
  rw [navigationColumns, List.map_map, evalIn_key (g := fun a => t.column a.2.name)]
  · rw [← hnames, ← List.map_snd_zip (Nat.le_of_eq h.length.symm), List.map_map, List.map_map,
      List.map_snd_zip (Nat.le_of_eq h.length.symm)]
    rfl
  · intro a ha
    refine evalIn_targetColumn List.lookup_cons_self (ht _ ?_)
    exact hnames ▸ List.mem_map_of_mem (List.of_mem_zip ha).2

/-- The key of a target row. -/
theorem targetKey (h : JoinsAlong M p s n q edge path outerKey innerKey target note rows q')
    (ht : Carried M.catalog tables) {targets : List Value}
    (hl : tables.lookup edge.target = some targets) {t : Value} (hmem : t ∈ targets) {v : RowView}
    {scope : Scope} :
    (Expr.key ((navigationColumns (.readPath s.parameter path) (p.forest.node q).isOptional target
        outerKey innerKey).map (·.2))).evalIn tables v (scope.bind [target] [t]) =
      .ok (keyValue (edge.targetKey.map t.column)) := by
  obtain ⟨type, hty, hproperties⟩ := h.targeted
  obtain ⟨hnames, hdeclared⟩ := EntityType.names_of_propertiesNamed hproperties
  refine h.targetKey_of_columns fun _ hcolumn => ?_
  obtain ⟨column, hp, rfl⟩ := List.mem_map.1 (hnames ▸ hcolumn)
  exact (evalMember_column ht (.inr ⟨targets, hl, hmem⟩) hty (hdeclared _ hp)).1

end JoinsAlong

/-- If every row of a stream becomes one row, the entries go with them. -/
theorem entries_onward {P : Entry → Prop} {f : Value → List Value} {entries : List Entry}
    (h : ∀ e ∈ entries, ∃ w, f e.row = [w] ∧ P { e with row := w }) :
    ∃ entries' : List Entry, (entries.map (·.row)).flatMap f = entries'.map (·.row) ∧
      (∀ e ∈ entries', P e) ∧ entries'.map (·.value) = entries.map (·.value) := by
  induction entries with
  | nil => exact ⟨[], rfl, fun _ he => absurd he List.not_mem_nil, rfl⟩
  | cons e entries ih =>
    obtain ⟨w, hw, hP⟩ := h e (.head _)
    obtain ⟨entries', hrows, hall, hvalues⟩ := ih fun e he => h e (.tail _ he)
    refine ⟨{ e with row := w } :: entries', ?_, List.forall_mem_cons.2 ⟨hP, hall⟩, ?_⟩
    · rw [List.map_cons, List.flatMap_cons, hw, hrows]
      rfl
    · rw [List.map_cons, List.map_cons, hvalues]

namespace JoinsAlong

/-- Only rows of the source that is joined have moved. -/
theorem moves {kind : JoinKind} (hp : p.forest.Sound M.catalog) (hrange : m.index < p.forest.sources.length)
    (hn : (p.forest.node n).source = m) (hs : (p.forest.node n).isCollection = false)
    (hforest : p'.forest = (p.forest.wrap kind.wrapPath m).makePresent n [innerField])
    (hnames : p.names ≤ p'.names) : p.forest.Later p'.forest ∧ Moves M.catalog m p p' := by
  have hlater : p.forest.Later p'.forest := hforest ▸
    (Forest.later_wrap _ _ m).trans (Forest.later_makePresent [innerField] hs)
  refine ⟨hlater, ⟨hlater.sound hp, hlater.grows, hnames⟩, fun k hk => ?_⟩
  have hsource : (p.forest.node k).source ≠ m := by
    rw [(hlater.node k).source] at hk
    exact hk.1
  rw [hforest, Forest.rowPath?_makePresent, if_neg, Forest.rowPath?_wrap hp hrange, if_neg hsource]
  rintro ⟨rfl, -⟩
  exact hsource hn

/-- The key that a joined row has: the columns of its owner. -/
def keyOf (edge : NavigationEdge) (path : List String) (w : Value) : Value :=
  keyValue (edge.sourceKey.map ((w.at path).toOption.getD .null).column)

theorem keyOf_eq {w u : Value} (hw : w.at path = .ok u) :
    keyOf edge path w = keyValue (edge.sourceKey.map u.column) := by
  simp only [keyOf, hw]
  rfl

/-- An entry of the stream goes on as the one row that it is joined to, under which the node's row is found
and all others where they have moved to. -/
theorem entry (h : JoinsAlong M p s n q edge path outerKey innerKey target note rows q')
    (hc : M.catalog.Sound) (ht : Consistent M.catalog tables) (hp : p.forest.Sound M.catalog)
    (hrange : m.index < p.forest.sources.length) (hn : (p.forest.node n).source = m)
    (hs : (p.forest.node n).isCollection = false)
    (hentity : (p.forest.source m).entity = some entity)
    (hforest : p'.forest = (p.forest.wrap note.kind.wrapPath m).makePresent n [innerField])
    (hlater : p.forest.Later p'.forest) (hsound : p'.forest.Sound M.catalog) {targets : List Value}
    (hl : tables.lookup edge.target = some targets) {o : OpenRows} {e : Entry}
    (hfits : e.Fits M.catalog tables p.forest m entity s.selector o) :
    ∃ w, note.kind.joined e.row (matchingRows (keyOf edge path e.row)
        (targets.map fun t => (keyValue (edge.targetKey.map t.column), t))) = [w] ∧
      ({ e with row := w } : Entry).Fits M.catalog tables p'.forest m entity s.selector o := by
  obtain ⟨owner, u, howner, hw, hu, hnode, hsingle, hle, hone, hnav⟩ :=
    h.owner hc ht hp hn hs hentity hfits
  obtain ⟨t, hty, hdeclared⟩ := Catalog.navigation?_eq_some.1 hnav
  obtain ⟨hlen, -⟩ := (hc hty hdeclared).keys
  obtain ⟨hnames, hcolumns⟩ := h.ownerColumn ht.carried howner hu
  have hscalar : ∀ x ∈ edge.sourceKey, (u.column x).isScalar = true := by
    intro x hx
    obtain ⟨column, hmem, rfl⟩ := List.mem_map.1 (hnames ▸ hx)
    exact (hcolumns column hmem).2
  have hmatches : matchingRows (keyOf edge path e.row)
      (targets.map fun t => (keyValue (edge.targetKey.map t.column), t)) = edge.related tables u := by
    rw [keyOf_eq hw, NavigationEdge.matchingRows_eq hlen hscalar, NavigationEdge.related, hl]
    rfl
  rw [hmatches]
  obtain ⟨w, hw', hinner⟩ := JoinKind.joined_single hle hone e.row
  refine ⟨w, hw', hfits.origin, fun k place hk hplace => ?_, hfits.value⟩
  have hk' : (p.forest.node k).source = m := (hlater.node k).source.symm.trans hk
  have hkrange : k.index < p.forest.size := by
    refine Nat.lt_of_not_le fun hle => ?_
    rw [Forest.rowPath?_of_size_le (hlater.size ▸ hle)] at hplace
    cases hplace
  rw [hlater.grows.memberPath hp hsound hkrange]
  rw [hforest] at hplace
  rcases rowPath?_joined hp hrange _ _ k hk' hplace with ⟨rfl, rfl⟩ | ⟨old, hold, rfl⟩
  · change w.at [innerField] = p.forest.valueAt M.catalog tables entity k e.origin
    rw [hinner, hnode, NavigationEdge.follow, if_neg (by simp [hsingle])]
  · have hmem : w ∈ note.kind.joined e.row (edge.related tables u) := hw' ▸ List.mem_singleton_self w
    exact (JoinKind.at_joined hmem old).trans (hfits.holds k old hk' hold)

end JoinsAlong

/-- A join along a navigation adds the rows of a node to a stream and keeps what the stream stands
for. -/
theorem joinNode_run (hc : M.catalog.Sound) (hp : p.forest.Sound M.catalog)
    (hn : (p.forest.node n).source = m) (hs : (p.forest.node n).isCollection = false)
    (hflow : Flows M.catalog tables p opens m entity s element value)
    (h : Runs (joinNode s n) M p s' p') :
    Moves M.catalog m p p' ∧ Flows M.catalog tables p' opens m entity s' element value ∧
      s'.selector = s.selector := by
  obtain ⟨q, edge, path, outerKey, innerKey, target, note, rows, q', found, rfl, hforest, hnames⟩ :=
    Runs.joinNode h
  obtain ⟨letter, hfresh⟩ := found.fresh
  have hparam := hflow.parameter.mono (Nat.le_succ p.names)
  have htarget : OldName (p.names + 1) target := hfresh ▸ .generated letter _
  have hne : s.parameter ≠ target := hfresh ▸ hflow.parameter letter _ (Nat.lt_succ_self _)
  have hcolumns := navigationColumns_settled (p.Allows M.catalog opens) hparam htarget path
    (p.forest.node q).isOptional outerKey innerKey
  have hset : (Expr.entitySet edge.target).Settled (p.names + 1) (p.Allows M.catalog opens) :=
    .of_parts (by simp) (by simp) (fun _ hx => absurd hx List.not_mem_nil)
      (fun _ hc => absurd hc List.not_mem_nil)
  obtain ⟨hq, hsequence, hsettled⟩ := Runs.keyedJoin found.joined
    (hflow.settled.mono (Nat.le_succ _) fun _ h => h) hset
    (key_settled (List.forall_mem_map.2 fun a ha => (hcolumns a ha).1))
    (key_settled (List.forall_mem_map.2 fun a ha => (hcolumns a ha).2)) hparam htarget
  have hnames' : p.names + 1 ≤ q'.names := hq.names
  rw [hflow.sources, hq.forest] at hforest
  change p'.forest = (p.forest.wrap note.kind.wrapPath m).makePresent n [innerField] at hforest
  obtain ⟨hlater, moves⟩ :=
    JoinsAlong.moves hp hflow.range hn hs hforest (show p.names ≤ p'.names by omega)
  refine ⟨moves, {
    sources := hflow.sources
    range := Nat.lt_of_lt_of_le hflow.range moves.grows.sources
    own := hflow.own
    rowsOf := (moves.grows.entity hflow.range).trans hflow.rowsOf
    cardinality := hflow.cardinality
    parameter := hnames ▸ .generated 't' _
    settled := hsettled.mono (by omega) fun _ hr => hr.mono moves.toAdvances hp
    sequence := hsequence
    selector := hflow.selector.mono (moves.le hp _)
    rows := fun o ho => ?_ }, rfl⟩
  have ho' := ho.anti (moves.le hp opens)
  have ht : Consistent M.catalog tables := ho'.consistent
  obtain ⟨entries, hrows, hfits, hvalue⟩ := hflow.rows o ho'
  obtain ⟨type, htype, -⟩ := found.targeted
  obtain ⟨targets, hl, -⟩ := ht.carries htype
  obtain ⟨entries', hrows', hfits', hvalues⟩ := entries_onward
    (P := fun e => e.Fits M.catalog tables p'.forest m entity s.selector o)
    (f := fun w => note.kind.joined w (matchingRows (JoinsAlong.keyOf edge path w)
      (targets.map fun t => (keyValue (edge.targetKey.map t.column), t)))) fun e he =>
    found.entry hc ht hp hflow.range hn hs hflow.rowsOf hforest hlater moves.sound hl (hfits e he)
  refine ⟨entries', fun v scope hv => ?_, hfits', hvalue.trans (by rw [hvalues])⟩
  rw [← hrows']
  refine Runs.evalIn_keyedJoin found.joined hparam htarget hne (hrows v scope hv) ?_ ?_ ?_
  · simp only [evalIn, hl]
    rfl
  · intro w hw
    obtain ⟨e, he, rfl⟩ := List.mem_map.1 hw
    obtain ⟨owner, u, howner, hw, hu, -⟩ := found.owner hc ht hp hn hs hflow.rowsOf (hfits e he)
    rw [JoinsAlong.keyOf_eq hw]
    exact found.ownerKey ht.carried howner hw hu
  · exact fun t hmem => found.targetKey ht.carried hl hmem

/-- A node of a source that a join can lead to. -/
structure Joinable (f : Forest) (m : SourceId) (n : NodeId) : Prop where
  range : n.index < f.size
  source : (f.node n).source = m
  single : (f.node n).isCollection = false

theorem Joinable.grows {f g : Forest} (h : Joinable f m n) (hg : f.Grows g) : Joinable g m n where
  range := Nat.lt_of_lt_of_le h.range hg.size
  source := (hg.node h.range).source.trans h.source
  single := (hg.node h.range).isCollection.trans h.single

/-- All nodes above a node can be joined if it can. -/
theorem Joinable.lineage {c : Catalog} {f : Forest} (hf : f.Sound c) (h : Joinable f m n) :
    ∀ k ∈ f.lineage n, Joinable f m k := by
  obtain ⟨i⟩ := n
  induction i using Nat.strongRecOn with
  | _ i ih =>
    intro k hk
    rw [Forest.lineage, List.mem_cons] at hk
    rcases hk with rfl | hk
    · exact h
    · cases hp : (f.node ⟨i⟩).parent with
      | none =>
        rw [hp] at hk
        cases hk
      | some q =>
        have below := hf.below hp
        rw [hp] at hk
        simp only [below.older, if_true] at hk
        exact ih q.index below.older ⟨Nat.lt_trans below.older h.range,
          below.source.trans h.source, below.single⟩ k hk

theorem joinNodes_run (hc : M.catalog.Sound) (needed nodes : List NodeId) {k : Nat}
    (hp : p.forest.Sound M.catalog) (hneeded : ∀ n ∈ needed, Joinable p.forest m n)
    (hflow : Flows M.catalog tables p opens m entity s element value)
    (h : Runs (joinNodes needed s nodes) M p (s', k) p') :
    Moves M.catalog m p p' ∧ Flows M.catalog tables p' opens m entity s' element value ∧
      s'.selector = s.selector := by
  induction nodes generalizing s s' p p' k with
  | nil =>
    obtain ⟨heq, rfl⟩ := Runs.pure_iff.1 h
    cases heq
    exact ⟨.refl hp, hflow, rfl⟩
  | cons n nodes ih =>
    rw [joinNodes] at h
    simp only [Runs.bind_iff, Runs.node_iff] at h
    obtain ⟨_, _, ⟨rfl, rfl⟩, h⟩ := h
    split at h
    · next hcond =>
      simp only [Bool.and_eq_true, List.contains_iff_mem] at hcond
      simp only [Runs.bind_iff, Runs.pure_iff, Prod.exists] at h
      obtain ⟨s₁, p₁, hjoin, s₂, l, p₂, hjoins, heq, rfl⟩ := h
      cases heq
      have hn := hneeded n hcond.1
      obtain ⟨moves, hflow, hsel⟩ := joinNode_run hc hp hn.source hn.single hflow hjoin
      obtain ⟨moves', hflow, hsel'⟩ :=
        ih moves.sound (fun n hn => (hneeded n hn).grows moves.grows) hflow hjoins
      exact ⟨moves.trans moves', hflow, hsel'.trans hsel⟩
    · exact ih hp hneeded hflow h

/-- The frame of a stream may change as long as its rows are read from the same sources. -/
theorem Flows.reframe {c : Catalog} (h : Flows c tables p opens m entity s element value)
    (hsources : s'.sources = s.sources) (hrows : s'.rows = s.rows)
    (hselector : s'.selector = s.selector) (hcardinality : s'.cardinality = s.cardinality)
    (hparameter : OldName p.names s'.parameter) :
    Flows c tables p opens m entity s' element value where
  sources := hsources.trans h.sources
  range := h.range
  own := h.own
  rowsOf := h.rowsOf
  cardinality := hcardinality.trans h.cardinality
  parameter := hparameter
  settled := hrows ▸ h.settled
  sequence := hrows ▸ h.sequence
  selector := hselector ▸ h.selector
  rows := hrows ▸ hselector ▸ h.rows

theorem Runs.joinReferenced {es : List Expr} {k : Nat} (hsources : s.sources = [m])
    (h : Runs (joinReferenced s es) M p (s', k) p') : ∃ s₁ k₁,
      Runs (joinNodes (neededNodes p.forest [m] es) s (p.forest.live (p.forest.root m))) M p
        (s₁, k₁) p' ∧ (s' = s₁ ∨ s' = { s₁ with needsProjection := true }) := by
  rw [EntityQuery.joinReferenced, hsources] at h
  simp only [joinSources, Runs.bind_iff, Runs.forest_iff, Runs.pure_iff, Prod.exists] at h
  obtain ⟨_, _, ⟨rfl, rfl⟩, s₁, k₁, p₁, ⟨_, _, ⟨rfl, rfl⟩, s₂, k₂, _, hjoins, _, _, _, ⟨h₀, rfl⟩,
    h₁, rfl⟩, h₂, rfl⟩ := h
  cases h₀
  cases h₁
  refine ⟨_, _, hjoins, ?_⟩
  split at h₂
  · cases h₂
    exact .inl rfl
  · cases h₂
    exact .inr rfl

theorem Joinable.of_needed {c : Catalog} {f : Forest} {es : List Expr} (hf : f.Sound c)
    (hrefs : ∀ e ∈ es, ∀ r ∈ e.rowRefs, r.source = m → Joinable f m r.node) :
    ∀ n ∈ neededNodes f [m] es, Joinable f m n := by
  intro n hn
  obtain ⟨r, hr, hn⟩ := List.mem_flatMap.1 hn
  obtain ⟨hr, hsource⟩ := List.mem_filter.1 hr
  obtain ⟨e, he, hr⟩ := List.mem_flatMap.1 hr
  simp only [List.contains_iff_mem, List.mem_singleton] at hsource
  exact (hrefs e he r hr hsource).lineage hf n hn

/-- Joining what expressions refer to keeps what a stream stands for, whatever is joined. -/
theorem joinReferenced_run (hc : M.catalog.Sound) {es : List Expr} {k : Nat}
    (hp : p.forest.Sound M.catalog)
    (hrefs : ∀ e ∈ es, ∀ r ∈ e.rowRefs, r.source = m → Joinable p.forest m r.node)
    (hflow : Flows M.catalog tables p opens m entity s element value)
    (h : Runs (joinReferenced s es) M p (s', k) p') :
    Moves M.catalog m p p' ∧ Flows M.catalog tables p' opens m entity s' element value ∧
      s'.selector = s.selector := by
  obtain ⟨s₁, k₁, hjoins, hs'⟩ := Runs.joinReferenced hflow.sources h
  obtain ⟨moves, hflow', hsel⟩ := joinNodes_run hc _ _ hp (.of_needed hp hrefs) hflow hjoins
  refine ⟨moves, ?_⟩
  rcases hs' with rfl | rfl
  · exact ⟨hflow', hsel⟩
  · exact ⟨hflow'.reframe rfl rfl rfl rfl hflow'.parameter, hsel⟩

end Node

end EntityQuery
