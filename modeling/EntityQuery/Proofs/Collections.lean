import EntityQuery.Expansion.CollectionFilter
import EntityQuery.Proofs.Equality
import EntityQuery.Proofs.KeyComparison

/-!
# Collections as filters

The filter that takes the place of a collection has the rows that the navigation relates to its
owner, provided that each of the two key columns is read as a property: a column with the name of a
navigation of its entity is not (`Catalog.PlainCollections`).
-/

namespace EntityQuery

open EntityQuery.Expr

/-- Every collection has keys of one column, and no such column has the name of a navigation. -/
def Catalog.PlainCollections (c : Catalog) : Prop :=
  ∀ {entity owner name edge target}, c.type? entity = some owner →
    owner.navigation? name = some edge → edge.isCollection = true →
    c.type? edge.target = some target →
    ∃ a b, edge.sourceKey = [a] ∧ edge.targetKey = [b] ∧ owner.navigation? a = none ∧
      target.navigation? b = none

/-- How far an expression is prepared once collections are filters. -/
def Form.filtered : Form → Form
  | .raw => .raw
  | _ => .ready

variable {M : Model} {tables : Tables} {p p' : Progress} {opens : List SourceId} {r : RowRef}

/-- A property of an entity is its column. -/
theorem evalMember_column {c : Catalog} (ht : Carried c tables) {entity name : String}
    {t : EntityType} {q : Property} {v : Value} (hv : Shape.Fits tables (.entity entity) v)
    (hc : c.type? entity = some t) (hq : t.property? name = some q) :
    evalMember name v = .ok (v.column name) ∧ (v.column name).isScalar = true := by
  obtain ⟨v', hv', hs⟩ := Shape.property_fits ht hv hc hq
  suffices h : v.column name = v' by
    rw [h]
    exact ⟨hv', hs⟩
  rcases hv with rfl | ⟨rows, hl, hrow⟩
  · cases hv'
    rfl
  · obtain ⟨rows', hl', hcarries⟩ := ht entity t hc
    obtain rfl : rows = rows' := Option.some.inj (hl.symm.trans hl')
    obtain ⟨fields, rfl, -⟩ := hcarries v hrow
    simp only [evalMember] at hv'
    simp only [Value.column]
    split at hv'
    · next hf =>
      cases hv'
      rw [hf]
      rfl
    · cases hv'

/-- What is not null equals nothing that is null. -/
theorem Value.present_equals (x y : Value) :
    (!x.isNull && x.equals y) = (!x.isNull && (!y.isNull && x.equals y)) := by
  cases y with
  | null =>
    rw [equals_null]
    cases x.isNull <;> rfl
  | _ => rfl

section Filter

variable {S : Setting} {Γ : Shapes} {owner : Expr} {ownerEntity targetEntity element : String}
  {ownerType targetType : EntityType} {o e : Property}

/-- Widening changes no value. -/
theorem denote_widenPair (c : Catalog) (tables : Tables) (rows : OpenRows) (Γ : Shapes)
    (scope : Scope) (t : ScalarType) (a b : Expr) (m n : Bool) :
    (widenPair t a m b n).1.denote c tables rows Γ scope = a.denote c tables rows Γ scope ∧
      (widenPair t a m b n).2.denote c tables rows Γ scope = b.denote c tables rows Γ scope := by
  cases m <;> cases n <;> exact ⟨rfl, rfl⟩

theorem HasShape.widenPair {a b : Expr} (ha : HasShape S .raw true Γ a .scalar)
    (hb : HasShape S .raw true Γ b .scalar) (t : ScalarType) (m n : Bool) :
    HasShape S .raw true Γ (widenPair t a m b n).1 .scalar ∧
      HasShape S .raw true Γ (widenPair t a m b n).2 .scalar := by
  cases m <;> cases n
  · exact ⟨ha, hb⟩
  · exact ⟨.convert t true ha, hb⟩
  · exact ⟨ha, .convert t true hb⟩
  · exact ⟨ha, hb⟩

/-- The predicate of a collection filter over keys of one column. -/
theorem membership_single :
    membership owner element [o] [e] =
      .and (.ne (if o.nullable then .member owner o.name
        else .convert (.member owner o.name) o.dataType true) (.typedNull o.dataType))
        (.eq (EntityQuery.widenPair o.dataType (.member (.param element) e.name) e.nullable
            (.member owner o.name) o.nullable).1
          (EntityQuery.widenPair o.dataType (.member (.param element) e.name) e.nullable
            (.member owner o.name) o.nullable).2) := rfl

theorem membership_typed (howner : HasShape S .raw true Γ owner (.entity ownerEntity))
    (ho : S.catalog.type? ownerEntity = some ownerType) (hon : ownerType.navigation? o.name = none)
    (hop : ownerType.property? o.name = some o)
    (ht : S.catalog.type? targetEntity = some targetType)
    (hen : targetType.navigation? e.name = none) (hep : targetType.property? e.name = some e)
    (hx : S.names element) (hΓ : Γ.lookup element = some (.entity targetEntity)) :
    HasShape S .raw true Γ (membership owner element [o] [e]) .scalar := by
  have outer : HasShape S .raw true Γ (.member owner o.name) .scalar := .property howner ho hon hop
  have inner : HasShape S .raw true Γ (.member (.param element) e.name) .scalar :=
    .property (.param hΓ hx) ht hen hep
  obtain ⟨left, right⟩ := inner.widenPair outer o.dataType e.nullable o.nullable
  rw [membership_single]
  refine .binary .and (.binary .notEqual ?_ (.convert _ true (.const .null)) fun _ => ⟨rfl, rfl⟩)
    (.binary .equal left right fun _ => ⟨rfl, rfl⟩) (by simp)
  split
  · exact outer
  · exact .convert _ true outer

/-- The predicate of a collection filter holds for the rows that the edge relates to the owner. -/
theorem membership_denote {edge : NavigationEdge} {c : Catalog} (hcons : Consistent c tables)
    {rows : OpenRows} {scope : Scope}
    (hshape : owner.shape? c rows Γ = some (.entity ownerEntity))
    (ho : c.type? ownerEntity = some ownerType) (hon : ownerType.navigation? o.name = none)
    (hop : ownerType.property? o.name = some o) (ht : c.type? targetEntity = some targetType)
    (hen : targetType.navigation? e.name = none) (hep : targetType.property? e.name = some e)
    (hsource : edge.sourceKey = [o.name]) (htarget : edge.targetKey = [e.name])
    (hΓ : Γ.lookup element = some (.entity targetEntity)) {v row : Value}
    (hv : owner.denote c tables rows Γ scope = .ok v)
    (hfits : Shape.Fits tables (.entity ownerEntity) v) (hrow : scope.lookup element = some row)
    (hrowfits : Shape.Fits tables (.entity targetEntity) row) :
    Outcome.isTrue ((membership owner element [o] [e]).denote c tables rows Γ scope) =
      edge.relates v row := by
  obtain ⟨hov, hos⟩ := evalMember_column hcons.carried hfits ho hop
  obtain ⟨hrv, hrs⟩ := evalMember_column hcons.carried hrowfits ht hep
  have read {x : Expr} {entity : String} {t : EntityType} {q : Property} {w : Value}
      (hx : x.shape? c rows Γ = some (.entity entity)) (ht : c.type? entity = some t)
      (hn : t.navigation? q.name = none) (hw : x.denote c tables rows Γ scope = .ok w)
      (hcol : evalMember q.name w = .ok (w.column q.name)) :
      (Expr.member x q.name).denote c tables rows Γ scope = .ok (w.column q.name) := by
    rw [denote_member, hx, hw]
    simp only [Shape.read, Catalog.navigation?, ht, Option.bind_some, hn]
    exact hcol
  have outer := read hshape ho hon hv hov
  have hparam : (Expr.param element).denote c tables rows Γ scope = .ok row := by
    simp only [Expr.denote, hrow]
    rfl
  have inner := read (x := .param element) hΓ ht hen hparam hrv
  have guard : (if o.nullable then Expr.member owner o.name
      else .convert (.member owner o.name) o.dataType true).denote c tables rows Γ scope =
        .ok (v.column o.name) := by
    split
    · exact outer
    · exact outer
  obtain ⟨hleft, hright⟩ := denote_widenPair c tables rows Γ scope o.dataType
    (.member (.param element) e.name) (.member owner o.name) e.nullable o.nullable
  rw [membership_single]
  simp only [Expr.and, Expr.ne, Expr.eq, Expr.typedNull, Expr.null, Expr.denote, guard,
    hleft.trans inner, hright.trans outer, NavigationEdge.relates, hsource, htarget]
  change (!(v.column o.name).equals .null && (row.column e.name).equals (v.column o.name)) =
    (!(v.column o.name).isNull && !(row.column e.name).isNull &&
      (v.column o.name).equals (row.column e.name) && true)
  rw [Value.equals_null, Value.equals_comm (row.column e.name), Bool.and_true, Bool.and_assoc,
    Value.present_equals]

/-- The filter for a collection has the rows that the edge leads to from the owner. -/
theorem denote_membershipFilter {edge : NavigationEdge} (note : Option CallNote)
    (howner : ∀ Γ, HasShape S .raw true Γ owner (.entity ownerEntity))
    (ho : S.catalog.type? ownerEntity = some ownerType) (hon : ownerType.navigation? o.name = none)
    (hop : ownerType.property? o.name = some o) (ht : S.catalog.type? edge.target = some targetType)
    (hen : targetType.navigation? e.name = none) (hep : targetType.property? e.name = some e)
    (hsource : edge.sourceKey = [o.name]) (htarget : edge.targetKey = [e.name])
    (hcollection : edge.isCollection = true) (hx : S.names element) {rows : OpenRows} {scope : Scope}
    (hrows : Grounded S tables rows) (hscope : ScopeFits tables Γ scope) {v : Value}
    (hv : ∀ Γ scope, owner.denote S.catalog tables rows Γ scope = .ok v)
    (hfits : Shape.Fits tables (.entity ownerEntity) v) :
    (Expr.call .filter [.entitySet edge.target, .lambda [element] (membership owner element [o] [e])]
      note).denote S.catalog tables rows Γ scope = .ok (edge.follow tables v) := by
  obtain ⟨items, hl, -⟩ := hrows.consistent.carries ht
  have hset : (Expr.entitySet edge.target).denote S.catalog tables rows Γ scope = .ok (.list items) := by
    rw [Expr.denote, hl]
    rfl
  have hrow {row : Value} (h : row ∈ items) : Shape.Fits tables (.entity edge.target) row :=
    .inr ⟨items, hl, h⟩
  have typed := membership_typed (howner ((element, .entity edge.target) :: Γ)) ho hon hop ht hen hep hx
    List.lookup_cons_self
  have predicate : ∀ row ∈ items, ∃ w, (membership owner element [o] [e]).denote S.catalog tables rows
      ((element, .entity edge.target) :: Γ) (scope.bind [element] [row]) = .ok w := by
    intro row h
    obtain ⟨w, hw, -⟩ := typed.denotes hrows (hscope.cons (hrow h) _)
    exact ⟨w, hw⟩
  refine (denote_filter note hset rfl predicate).trans ?_
  rw [NavigationEdge.follow, if_pos hcollection, NavigationEdge.related, hl]
  refine congrArg (Except.ok <| Value.list ·) (List.filter_congr fun row h => ?_)
  exact membership_denote hrows.consistent ((howner _).shape?_eq hrows.entity) ho hon hop ht hen hep
    hsource htarget List.lookup_cons_self (hv _ _) hfits List.lookup_cons_self (hrow h)

end Filter

section Run

variable {n : Bool} {Γ : Shapes} {s : Shape} {e' : Expr}

/-- The run of a filter for a collection, taken apart. -/
theorem Runs.collectionFilter {edge : NavigationEdge} {q : NodeId} {ownerEntity : String}
    (he : (p.forest.node r.node).edge = some edge) (hq : (p.forest.node r.node).parent = some q)
    (ho : (p.forest.node q).entity = some ownerEntity)
    (h : Runs (collectionFilter r) M p e' p') :
    ∃ ownerType targetType ownerKey elementKey note,
      M.catalog.type? ownerEntity = some ownerType ∧ M.catalog.type? edge.target = some targetType ∧
      ownerType.propertiesNamed edge.sourceKey = .ok ownerKey ∧
      targetType.propertiesNamed edge.targetKey = .ok elementKey ∧
      p' = { p with names := p.names + 1, forest := p.forest.remove r.node } ∧
      e' = .call .filter [.entitySet edge.target,
        .lambda [rowParameter edge.target ++ toString (p.names + 1)]
          (membership (p.forest.ref q) (rowParameter edge.target ++ toString (p.names + 1)) ownerKey
            elementKey)] note := by
  simp only [EntityQuery.collectionFilter, Runs.bind_iff, Runs.node_iff] at h
  obtain ⟨_, _, ⟨rfl, rfl⟩, h⟩ := h
  rw [he, hq] at h
  simp only [Runs.bind_iff, Runs.node_iff, Runs.entityType_iff, Runs.ofCatalog_iff] at h
  obtain ⟨_, _, ⟨rfl, rfl⟩, ownerType, _, ⟨hot, rfl⟩, targetType, _, ⟨htt, rfl⟩, ownerKey, _, ⟨hok, rfl⟩,
    elementKey, _, ⟨hek, rfl⟩, h⟩ := h
  rw [ho] at hot
  split at h
  · simp only [Runs.bind_iff, Runs.throw_iff, false_and, exists_false] at h
  · simp only [Runs.bind_iff, Runs.freshName_iff, Runs.ref_iff, Runs.modifyForest_iff,
      Runs.pure_iff] at h
    obtain ⟨_, _, ⟨rfl, rfl⟩, _, _, ⟨rfl, rfl⟩, _, _, rfl, rfl, rfl⟩ := h
    exact ⟨ownerType, targetType, ownerKey, elementKey, _, hot, htt, hok, hek, rfl, rfl⟩

/-- A reference to a collection has an owner, whose navigation it is. -/
theorem Progress.owner_of_shapeOf (hp : p.forest.Sound M.catalog)
    (href : (p.setting M.catalog opens).refs r)
    (hshape : (p.setting M.catalog opens).shapeOf r = some (.rows s)) :
    ∃ q ownerEntity edge, (p.forest.node r.node).parent = some q ∧
      (p.forest.node q).entity = some ownerEntity ∧
      M.catalog.navigation? ownerEntity edge.name = some edge ∧ (p.forest.node r.node).edge = some edge ∧
      edge.isCollection = true ∧ s = .entity edge.target := by
  have hcollection := Progress.collection_of_shapeOf hp href hshape
  obtain ⟨q, hq⟩ : ∃ q, (p.forest.node r.node).parent = some q := by
    cases hq : (p.forest.node r.node).parent with
    | some q => exact ⟨q, rfl⟩
    | none =>
      rw [Node.isCollection, (hp.top href.1 hq).1] at hcollection
      cases hcollection
  obtain ⟨ownerEntity, edge, howner, hnav, hedge, -, -⟩ := (hp.below hq).edge
  have hs := Progress.shapeOf_eq hp href hshape
  rw [Forest.shapeAt_collection hedge hcollection] at hs
  rw [Node.isCollection, hedge] at hcollection
  exact ⟨q, ownerEntity, edge, hq, howner, hnav, hedge, hcollection, Shape.rows.inj hs⟩

/-- The owner of a collection is still a row of its entity later on. -/
theorem Progress.owner_typed {p' : Progress} (hp : p.forest.Sound M.catalog)
    (ext : Extends M.catalog p p') (href : (p.setting M.catalog opens).refs r)
    (hshape : (p.setting M.catalog opens).shapeOf r = some s) {q : NodeId} {ownerEntity : String}
    (hq : (p.forest.node r.node).parent = some q) (howner : (p.forest.node q).entity = some ownerEntity)
    (Γ : Shapes) :
    HasShape (p'.setting M.catalog opens) .raw true Γ (p.forest.ref q) (.entity ownerEntity) := by
  have below := hp.below hq
  have hrange : q.index < p.forest.size := Nat.lt_trans below.older href.1
  have hrange' : q.index < p'.forest.size := Nat.lt_of_lt_of_le hrange ext.grows.size
  have hopen : (p'.forest.node q).source ∈ opens := by
    rw [(ext.grows.node hrange).source, below.source, (Progress.source_of_refs href).1]
    exact Progress.open_of_shapeOf hshape
  obtain ⟨rq, hrq, -, -, -, hrefs, hrshape⟩ :=
    Progress.ref_shape (c := M.catalog) ext.sound hrange' hopen
  have hqshape : p'.forest.shapeAt q = .entity ownerEntity := by
    obtain ⟨entity, hentity, hs⟩ := Forest.shapeAt_single ext.sound hrange'
      ((ext.grows.node hrange).isCollection.trans below.single)
    rw [(ext.grows.node hrange).entity, howner] at hentity
    cases hentity
    exact hs
  rw [← ext.grows.ref hp ext.sound hrange, hrq]
  exact .ref (hqshape ▸ hrshape) hrefs (by simp) (by simp)

/-- The filter for a collection stands for it. -/
theorem collectionFilter_run (tables : Tables) (hplain : M.catalog.PlainCollections)
    (hp : p.forest.Sound M.catalog) (href : (p.setting M.catalog opens).refs r)
    (hshape : (p.setting M.catalog opens).shapeOf r = some (.rows s))
    (h : Runs (collectionFilter r) M p e' p') (f : Form) (Γ : Shapes) : Extends M.catalog p p' ∧
      Stands (p'.setting M.catalog opens) tables f true Γ (.rowRef r) e' (.rows s) := by
  obtain ⟨q, ownerEntity, edge, hq, howner, hnav, hedge, hec, rfl⟩ :=
    Progress.owner_of_shapeOf hp href hshape
  obtain ⟨ownerType, targetType, ownerKey, elementKey, note, hot, htt, hok, hek, rfl, rfl⟩ :=
    Runs.collectionFilter hedge hq howner h
  obtain ⟨ownerType', hot', hnav'⟩ := Catalog.navigation?_eq_some.1 hnav
  obtain rfl : ownerType = ownerType' := Option.some.inj (hot.symm.trans hot')
  obtain ⟨a, b, ha, hb, han, hbn⟩ := hplain hot hnav' hec htt
  obtain ⟨o, rfl, rfl, hop⟩ := ownerType.single_of_propertiesNamed (ha ▸ hok)
  obtain ⟨e, rfl, rfl, hep⟩ := targetType.single_of_propertiesNamed (hb ▸ hek)
  obtain ⟨hlater, hpaths⟩ :=
    Forest.later_remove hp (Progress.collection_of_shapeOf hp href hshape)
  let p' : Progress := { p with names := p.names + 1, forest := p.forest.remove r.node }
  have ext : Extends M.catalog p p' :=
    ⟨⟨hlater.sound hp, hlater.grows, Nat.le_succ _⟩, hpaths.mono fun _ _ => trivial⟩
  have element : OldName p'.names (rowParameter edge.target ++ toString (p.names + 1)) := by
    obtain ⟨letter, hletter⟩ := rowParameter_eq edge.target
    rw [hletter]
    exact .generated letter _
  have ownerTyped := Progress.owner_typed hp ext href hshape hq howner
  refine ⟨ext, .filter note (.set htt) (membership_typed (ownerTyped _) hot han hop htt hbn hep
    element List.lookup_cons_self) element, ?_, fun rows scope hrows hscope => ?_⟩
  · exact .ref ((ext.le hp opens).shapeOf hshape) ((ext.le hp opens).refs href) (fun _ => rfl)
      (by simp)
  · obtain ⟨v, hv, hfits⟩ := (ownerTyped Γ).denotes hrows hscope
    have hv (Γ : Shapes) (scope : Scope) :
        (p.forest.ref q).denote M.catalog tables rows Γ scope = .ok v := hv
    have follow : (Expr.rowRef r).denote M.catalog tables rows Γ scope =
        .ok (edge.follow tables v) := by
      have hqs : (p.forest.ref q).shape? M.catalog rows Γ = some (.entity ownerEntity) :=
        (ownerTyped Γ).shape?_eq hrows.entity
      rw [← href.2, Forest.denote_child hp hq hedge, denote_member, hqs, hv]
      simp only [Shape.read, hnav]
      rfl
    exact (denote_membershipFilter note ownerTyped hot han hop htt hbn hep ha hb hec element hrows hscope
      hv hfits).trans follow.symm

theorem Runs.collectionFilter_call (h : Runs (EntityQuery.collectionFilter r) M p e' p') :
    e'.isRef = false ∧ e'.isRecord = false := by
  simp only [EntityQuery.collectionFilter, Runs.bind_iff, Runs.node_iff] at h
  obtain ⟨_, _, ⟨rfl, rfl⟩, h⟩ := h
  split at h
  · simp only [Runs.bind_iff] at h
    obtain ⟨_, _, -, _, _, -, _, _, -, _, _, -, _, _, -, h⟩ := h
    split at h
    · simp only [Runs.bind_iff, Runs.throw_iff, false_and, exists_false] at h
    · simp only [Runs.bind_iff, Runs.pure_iff] at h
      obtain ⟨_, _, -, _, _, -, _, _, -, rfl, rfl⟩ := h
      exact ⟨rfl, rfl⟩
  · exact (Runs.throw_iff.1 h).elim

/-- A filter is neither a reference nor a record, and nothing else changes its head. -/
theorem descend_head {f : Forest} {e : Expr}
    (h : Runs (descend (collectionAt f) e) M p e' p') :
    (e.isRef = false → e'.isRef = false) ∧ (e.isRecord = false → e'.isRecord = false) := by
  rw [descend_eq] at h
  cases hat : collectionAt f e with
  | none =>
    rw [hat] at h
    obtain ⟨-, head⟩ := Runs.mapChildren_within (fun _ _ => True) (fun _ => trivial)
      (fun _ _ => trivial) (fun _ _ _ _ _ _ _ => trivial) h
    cases head <;> exact ⟨id, id⟩
  | some step =>
    rw [hat] at h
    unfold collectionAt at hat
    split at hat
    · split at hat <;> cases hat
      split at h
      · simp only [Option.getD_some, Runs.bind_iff, Runs.pure_iff] at h
        obtain ⟨_, _, -, rfl, -⟩ := h
        exact ⟨fun _ => rfl, fun _ => rfl⟩
      · exact (Runs.throw_iff.1 h).elim
    · split at hat <;> cases hat
      have := Runs.collectionFilter_call h
      exact ⟨fun _ => this.1, fun _ => this.2⟩
    · cases hat

theorem collectionAt_member {S : Setting} (hp : p.forest.Sound M.catalog) {f : Forest}
    (hf : ∀ r, S.refs r → (p.forest.node r.node).isCollection = (f.node r.node).isCollection)
    (hS : S.Le (p.setting M.catalog opens)) {g : Form} {e : Expr}
    (h : HasShape S g n Γ e s) (hs : ∀ t, s ≠ .rows t) (name : String) :
    collectionAt f (.member e name) = none := by
  cases e with
  | rowRef r =>
    cases h with
    | ref hr href _ _ =>
    rw [collectionAt, if_neg]
    rw [← hf r href]
    intro hc
    have hshape := Progress.shapeOf_eq hp (hS.refs href) (hS.shapeOf hr)
    obtain ⟨edge, he, -⟩ := (Option.any_eq_true _ _).1 hc
    exact hs _ (hshape.trans (Forest.shapeAt_collection he hc))
  | _ => rfl

end Run

section Descent

variable {f : Forest} {e e' : Expr}

theorem Runs.descend_none {act? : Expr → Option (Expansion Expr)} (hat : act? e = none)
    (h : Runs (descend act? e) M p e' p') : Runs (e.mapChildren (descend act?)) M p e' p' := by
  rw [descend_eq, hat] at h
  exact h

theorem Runs.descend_member {act? : Expr → Option (Expansion Expr)} {name : String}
    (hat : act? (.member e name) = none) (h : Runs (descend act? (.member e name)) M p e' p') :
    ∃ e₁, Runs (descend act? e) M p e₁ p' ∧ e' = .member e₁ name := by
  have h := Runs.descend_none hat h
  simp only [mapChildren, Runs.bind_iff, Runs.pure_iff] at h
  obtain ⟨e₁, q, he, rfl, rfl⟩ := h
  exact ⟨e₁, he, rfl⟩

theorem Runs.descend_record_of {act? : Expr → Option (Expansion Expr)}
    {fields fields' : List (String × Expr)} (hat : act? (.record fields) = none)
    (h : Runs (mapFields (descend act?) fields) M p fields' p') :
    Runs (descend act? (.record fields)) M p (.record fields') p' := by
  rw [descend_eq, hat]
  exact Runs.bind_iff.2 ⟨fields', p', h, Runs.pure_iff.2 ⟨rfl, rfl⟩⟩

end Descent

/-- A state that holds a setting and whose forest has grown out of `f`, where the setting's nodes are. -/
structure Follows (M : Model) (opens : List SourceId) (S : Setting) (f : Forest) (p : Progress) : Prop
    extends Holding M opens S p where
  range : ∀ r, S.refs r → r.node.index < f.size
  grows : f.Grows p.forest

/-- From every such state, putting filters for the collections that `f` has gives an expression that
stands for the one before. -/
abbrev Filters (M : Model) (opens : List SourceId) (tables : Tables) (S : Setting) (f : Forest) (g : Form) :
    Bool → Shapes → Expr → Shape → Prop :=
  StandsBy M opens tables (Follows M opens S f) (descend (collectionAt f)) g.filtered

section Filters

variable {S : Setting} {f : Forest} {g : Form} {n : Bool} {Γ : Shapes} {e a b d : Expr} {s t : Shape}

theorem Form.of_filtered_ne_raw {q : Prop} (h : g ≠ .raw → q) : g.filtered ≠ .raw → q := by
  cases g with
  | raw => exact fun h => absurd rfl h
  | _ => exact fun _ => h (by simp)

namespace Follows

theorem extend {p p' : Progress} (h : Follows M opens S f p) (ext : Extends M.catalog p p') :
    Follows M opens S f p' :=
  ⟨h.toHolding.extend ext, h.range, h.grows.trans ext.grows⟩

theorem isCollection (h : Follows M opens S f p) {r : RowRef} (hr : S.refs r) :
    (p.forest.node r.node).isCollection = (f.node r.node).isCollection :=
  (h.grows.node (h.range r hr)).isCollection

theorem collectionAt_member (h : Follows M opens S f p) (he : HasShape S g n Γ e s)
    (hs : ∀ t, s ≠ .rows t) (name : String) : collectionAt f (.member e name) = none :=
  EntityQuery.collectionAt_member h.sound (fun _ => h.isCollection) h.le he hs name

end Follows

theorem filters_partWise : PartWise M opens S (Follows M opens S f) (descend (collectionAt f)) where
  sound h := h.sound
  le h := h.le
  extend := Follows.extend
  parts {e e' p p'} he := by
    have none : collectionAt f e = none := by
      cases e with
      | member _ _ | rowRef _ => cases he
      | _ => rfl
    rw [descend_eq, none]
    rfl

namespace Filters

/-- A reference to a collection becomes a filter, and one to a row stays. -/
theorem ref (hplain : n = true → M.catalog.PlainCollections) {r : RowRef}
    (hr : S.shapeOf r = some s) (href : S.refs r) (hn : s.isRows = true → n = true) :
    Filters M opens tables S f g n Γ (.rowRef r) s := by
  intro p e' p' hp h
  have hr := hp.le.shapeOf hr
  have href' := hp.le.refs href
  have hsame := hp.isCollection href
  cases hc : (f.node r.node).isCollection with
  | true =>
    rw [descend_eq, collectionAt, if_pos hc] at h
    obtain ⟨edge, he, -⟩ := (Option.any_eq_true _ _).1 (hsame.trans hc)
    obtain rfl : s = .rows (.entity edge.target) := (Progress.shapeOf_eq hp.sound href' hr).trans
      (Forest.shapeAt_collection he (hsame.trans hc))
    obtain rfl := hn rfl
    exact collectionFilter_run tables (hplain rfl) hp.sound href' hr h _ _
  | false =>
    have hat : collectionAt f (.rowRef r) = none := by
      rw [collectionAt, if_neg (by simp [hc])]
    obtain ⟨rfl, rfl⟩ := Runs.pure_iff.1 (Runs.descend_none hat h)
    refine ⟨.refl hp.sound, .refl (.ref hr href' hn fun _ => ?_)⟩
    obtain ⟨entity, -, hs⟩ := Forest.shapeAt_single hp.sound href'.1 (hsame.trans hc)
    rw [Progress.shapeOf_eq hp.sound href' hr, hs]
    rfl

/-- The count of a collection is the count of its filter. -/
theorem refSize (hplain : M.catalog.PlainCollections) {r : RowRef} (hr : S.shapeOf r = some (.rows s))
    (href : S.refs r) :
    Filters M opens tables S f g true Γ (.member (.rowRef r) "Count") .scalar := by
  intro p e' p' hp h
  have hr := hp.le.shapeOf hr
  have href' := hp.le.refs href
  have hc : (f.node r.node).isCollection = true :=
    (hp.isCollection href).symm.trans (Progress.collection_of_shapeOf hp.sound href' hr)
  rw [descend_eq, collectionAt, if_pos hc, if_pos rfl, Option.getD_some] at h
  simp only [Runs.bind_iff, Runs.pure_iff] at h
  obtain ⟨filter, q, hfilter, rfl, rfl⟩ := h
  obtain ⟨ext, hs⟩ := collectionFilter_run tables hplain hp.sound href' hr hfilter g.filtered Γ
  refine ⟨ext, .total none (.inr rfl) hs.typed, .refSize ((ext.le hp.sound opens).shapeOf hr)
    ((ext.le hp.sound opens).refs href') (by simp), fun o scope ho hscope => ?_⟩
  obtain ⟨_, hv, items, rfl, -⟩ := hs.typed.denotes ho hscope
  rw [denote_total none (.inr rfl) hv, denote_member, hs.source.shape?_eq ho.entity,
    ← hs.same o scope ho hscope, hv]
  rfl

theorem property {entity name : String} {type : EntityType} {q : Property}
    (ht : HasShape S g n Γ e (.entity entity)) (he : Filters M opens tables S f g n Γ e (.entity entity))
    (htype : S.catalog.type? entity = some type) (hn : type.navigation? name = none)
    (hq : type.property? name = some q) : Filters M opens tables S f g n Γ (.member e name) .scalar := by
  intro p e' p' hp h
  obtain ⟨e₁, he₁, rfl⟩ := Runs.descend_member (hp.collectionAt_member ht (by simp) _) h
  obtain ⟨ext, hs⟩ := he p e₁ p' hp he₁
  exact ⟨ext, hs.property (hp.le.catalog ▸ htype) hn hq⟩

theorem navigation {entity name : String} {edge : NavigationEdge}
    (ht : HasShape S g n Γ e (.entity entity)) (he : Filters M opens tables S f g n Γ e (.entity entity))
    (hedge : S.catalog.navigation? entity name = some edge) (hn : edge.isCollection = true → n = true)
    (hform : g ≠ .raw → e.isRef = false) :
    Filters M opens tables S f g n Γ (.member e name) edge.shape := by
  intro p e' p' hp h
  obtain ⟨e₁, he₁, rfl⟩ := Runs.descend_member (hp.collectionAt_member ht (by simp) _) h
  obtain ⟨ext, hs⟩ := he p e₁ p' hp he₁
  exact ⟨ext, hs.navigation (hp.le.catalog ▸ hedge) hn fun h =>
    (descend_head he₁).1 (Form.of_filtered_ne_raw hform h)⟩

theorem field {fields : List (String × Shape)} {name : String} (ht : HasShape S g n Γ e (.record fields))
    (he : Filters M opens tables S f g n Γ e (.record fields)) (hfield : fields.lookup name = some s)
    (hform : g ≠ .raw → e.isRecord = false) : Filters M opens tables S f g n Γ (.member e name) s := by
  intro p e' p' hp h
  obtain ⟨e₁, he₁, rfl⟩ := Runs.descend_member (hp.collectionAt_member ht (by simp) _) h
  obtain ⟨ext, hs⟩ := he p e₁ p' hp he₁
  exact ⟨ext, hs.field hfield fun h => (descend_head he₁).2 (Form.of_filtered_ne_raw hform h)⟩

theorem size {entity name : String} {edge : NavigationEdge} (ht : HasShape S g true Γ e (.entity entity))
    (he : Filters M opens tables S f g true Γ e (.entity entity))
    (hedge : S.catalog.navigation? entity name = some edge) (hc : edge.isCollection = true)
    (hform : g ≠ .raw → e.isRef = false) :
    Filters M opens tables S f g true Γ (.member (.member e name) "Count") .scalar := by
  intro p e' p' hp h
  obtain ⟨e₂, he₂, rfl⟩ := Runs.descend_member rfl h
  obtain ⟨e₁, he₁, rfl⟩ := Runs.descend_member (hp.collectionAt_member ht (by simp) _) he₂
  obtain ⟨ext, hs⟩ := he p e₁ p' hp he₁
  exact ⟨ext, hs.size (hp.le.catalog ▸ hedge) hc fun h =>
    (descend_head he₁).1 (Form.of_filtered_ne_raw hform h)⟩

end Filters

/-- Where filters are put for all collections, the expression stands for the one before. -/
theorem descend_collections (ht : HasShape S g n Γ e s)
    (hplain : n = true → M.catalog.PlainCollections) : Filters M opens tables S f g n Γ e s := by
  have w : PartWise M opens S (Follows M opens S f) (descend (collectionAt f)) := filters_partWise
  induction ht with
  | param hx hname => exact .param w hx hname
  | const value => exact .const w value
  | set hset => exact .set w hset
  | ref hr href hn _ => exact .ref hplain hr href hn
  | refSize hr href _ => exact .refSize (hplain rfl) hr href
  | property he htype hn hq ih => exact .property he (ih hplain) htype hn hq
  | navigation he hedge hn hform ih => exact .navigation he (ih hplain) hedge hn hform
  | field he hfield hform ih => exact .field he (ih hplain) hfield hform
  | size he hedge hc hform ih => exact .size he (ih hplain) hedge hc hform
  | binary op _ _ hop iha ihb => exact .binary w op (iha hplain) (ihb hplain) hop
  | not _ ih => exact .not w (ih hplain)
  | cond _ _ _ iha ihb ihd => exact .cond w (iha hplain) (ihb hplain) (ihd hplain)
  | nil => exact .nil w
  | cons _ _ ihe ihf => exact .cons w (ihe hplain) (ihf hplain)
  | convert type nullable _ ih => exact .convert w type nullable (ih hplain)
  | filter note _ _ hx ihs ihb => exact .filter w note (ihs hplain) (ihb hplain) hx
  | total note ho _ ihs => exact .total w note ho (ihs hplain)
  | totalWhere note ho _ _ hx ihs ihb => exact .totalWhere w note ho (ihs hplain) (ihb hplain) hx

end Filters

/-- Putting filters for the collections of a bound body gives an expression that stands for it. -/
theorem filterCollections_run (hp : p.forest.Sound M.catalog) {g : Form} {n : Bool} {Γ : Shapes}
    {e e' : Expr} {s : Shape} (ht : HasShape (p.setting M.catalog opens) g n Γ e s)
    (hplain : n = true → M.catalog.PlainCollections) (h : Runs (filterCollections e) M p e' p') :
    Extends M.catalog p p' ∧ Stands (p'.setting M.catalog opens) tables g.filtered n Γ e e' s := by
  simp only [filterCollections, Runs.bind_iff, Runs.forest_iff] at h
  obtain ⟨_, _, ⟨rfl, rfl⟩, h⟩ := h
  exact descend_collections ht hplain p e' p' ⟨⟨hp, .refl _⟩, fun _ hr => hr.1, .refl _⟩ h

end EntityQuery
