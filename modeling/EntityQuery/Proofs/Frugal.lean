import EntityQuery.Proofs.Costs
import EntityQuery.Proofs.Rewriting

/-!
# Rewriting costs nothing

Binding, comparing by keys and putting filters for collections make no expression more expensive
(`rewriteBody_rewritten`). A filter that takes the place of a collection costs less than what is set
aside for the member that led to it. That the key columns which comparisons and filters read are no
navigations is what this needs of the catalog: otherwise they would be bound again.
-/

namespace EntityQuery

open EntityQuery.Expr

variable {M : Model} {p p' : Progress} {c : Catalog} {f g : Forest} {ρ : Costing}
  {k : Nat} {e e' a b : Expr}

section Scalars

namespace Expr.Costs

theorem const (value : Literal) (hk : 1 ≤ k) : Costs c f ρ k (.const value) :=
  .scalar rfl hk nofun

theorem convert (h : Costs c f ρ k e) (t : ScalarType) (nullable : Bool) :
    Costs c f ρ k (.convert e t nullable) :=
  .scalar rfl h.pos (by simpa [children] using h)

theorem typedNull (t : ScalarType) (hk : 1 ≤ k) : Costs c f ρ k (.typedNull t) :=
  (const .null hk).convert t true

theorem binary (ha : Costs c f ρ k a) (hb : Costs c f ρ k b) (op : BinaryOp) :
    Costs c f ρ k (.binary op a b) :=
  .scalar rfl ha.pos (by simpa [children] using ⟨ha, hb⟩)

theorem key {parts : List Expr} (hk : 1 ≤ k) (h : ∀ d ∈ parts, Costs c f ρ k d) :
    Costs c f ρ k (.key parts) := by
  unfold Expr.key
  split
  · exact h _ (.head _)
  · exact .scalar rfl hk h

theorem widenPair (ha : Costs c f ρ k a) (hb : Costs c f ρ k b) (t : ScalarType) (m n : Bool) :
    Costs c f ρ k (EntityQuery.widenPair t a m b n).1 ∧
      Costs c f ρ k (EntityQuery.widenPair t a m b n).2 := by
  unfold EntityQuery.widenPair
  split
  · exact ⟨ha.convert t true, hb⟩
  · exact ⟨ha, hb.convert t true⟩
  · exact ⟨ha, hb⟩

/-- A column can be read of whatever costs little: it leads nowhere. -/
theorem column (hc : c.NamesApart) (h : Costs c f ρ k e) {x : String} (hx : c.IsColumn x) :
    Costs c f ρ k (.member e x) :=
  .member h fun hnav => absurd hnav (hc.not_isNavigation hx)

theorem ref {n : NodeId} (hn : n.index < f.size) (single : (f.node n).isCollection = false) (hk : 1 ≤ k) :
    Costs c f ρ k (f.ref n) :=
  .rowRef hn hk fun many => absurd (single.symm.trans many) Bool.false_ne_true

/-- The parts of a scalar node cost what the node does. -/
theorem part (h : Costs c f ρ k e) (hnode : e.isScalarNode = true) {d : Expr} (hd : d ∈ e.children) :
    Costs c f ρ k d := by
  cases h with
  | scalar _ _ parts => exact parts d hd
  | _ => cases hnode

/-- The optional rows that an expression reads are among what it pays for: the rows of streams are
calls, and calls are not looked into. -/
theorem of_optionalReads (h : Costs c f ρ k e) {r : RowRef} (hr : r ∈ optionalReads f e) :
    Costs c f ρ k (.rowRef r) := by
  induction h with
  | param _ _ _ _ | rowRef _ _ _ => exact absurd hr (by simp [optionalReads, gather])
  | @member _ _ t name target _ ih =>
    by_cases ht : ∃ r', t = .rowRef r'
    · obtain ⟨r', rfl⟩ := ht
      rw [optionalReads, gather_eq, Option.getD_some] at hr
      split at hr
      · obtain rfl := List.mem_singleton.1 hr
        exact target
      · cases hr
    · refine ih ?_
      rw [optionalReads, gather_eq] at hr
      cases t with
      | rowRef r' => exact absurd ⟨r', rfl⟩ ht
      | _ => simpa [optionalReads, children] using hr
  | @stream _ _ rows selector frame query _ ih =>
    have silent : optionalReads f rows = [] := by
      rw [optionalReads, gather_eq]
      cases rows <;> first | rfl | cases query
    rw [optionalReads, gather_eq, Option.getD_none, children, List.flatMap_cons, List.flatMap_singleton] at hr
    exact ih ((List.mem_append.1 hr).resolve_left fun hrows => by
      rw [← optionalReads, silent] at hrows
      cases hrows)
  | @scalar _ _ e node _ _ ih =>
    have parts : r ∈ e.children.flatMap (optionalReads f) := by
      rw [optionalReads, gather_eq] at hr
      cases e <;> first | exact hr | cases node
    obtain ⟨d, hd, hr⟩ := List.mem_flatMap.1 parts
    exact ih d hd hr
  | call _ _ _ _ _ _ _ =>
    rw [optionalReads, gather_eq] at hr
    cases hr

theorem plainEquality (ha : Costs c f ρ k a) (hb : Costs c f ρ k b) (s : Settings) (op : BinaryOp) :
    Costs c f ρ k (EntityQuery.plainEquality s f op a b) := by
  rcases plainEquality_cases s f op a b with heq | ⟨guards, heq, hguards⟩ <;> rw [heq]
  · exact ha.binary hb op
  · refine .scalar rfl ha.pos fun d hd => ?_
    simp only [children, List.mem_append, List.mem_map, List.mem_cons, List.not_mem_nil, or_false] at hd
    rcases hd with ⟨r, hr, rfl⟩ | rfl | rfl
    · exact (hguards r hr).elim ha.of_optionalReads hb.of_optionalReads
    · exact ha
    · exact hb

end Expr.Costs

end Scalars

section Binding

theorem rewritten_passing (c : Catalog) : Passing (Rewritten c) where
  refl := .refl
  trans := .trans

/-- A member of a row that becomes a row of its own is a field, or a navigation that was paid for. -/
theorem bindRowMember_rewritten {r : RowRef} {name : String} (hp : p.forest.Linked M.catalog)
    (h : Runs (bindRowMember r name) M p e p') :
    Rewritten M.catalog p.forest p'.forest (.member (.rowRef r) name) e := by
  rcases Runs.bindRowMember_cases h with ⟨rfl, rfl, -⟩ | ⟨n, hn, rfl, rfl⟩ |
    ⟨entity, edge, child, forest, tally, single, hentity, hedge, hfollow, rfl, rfl⟩
  · exact .refl (.refl _) _
  · obtain ⟨hchild, hfield⟩ := Option.filter_eq_some_iff.1 hn
    obtain ⟨range, hparent⟩ := hp.children (List.mem_of_find?_eq_some hchild)
    refine .of_costs nofun rfl fun he => .ref range ?_ he.pos
    cases (hp.link hparent).2 with
    | navigation _ _ _ _ _ plain => rw [plain] at hfield; cases hfield
    | field _ noEdge => exact Node.not_isCollection noEdge
  · obtain ⟨linked, keeps, -, hentity'⟩ := Forest.follow_onward hp hentity single
      (Catalog.navigation?_name hedge ▸ hedge) hfollow
    refine .of_costs nofun rfl fun he => ?_
    cases he with
    | member _ navigation =>
      have paid := navigation (Catalog.isNavigation_of_navigation? hedge)
      exact .rowRef (Forest.Keeps.range_of_entity hentity') (by omega) fun _ => paid
    | scalar node _ _ => cases node

theorem bindMember_rewritten {name : String} (hp : p.forest.Linked M.catalog)
    (h : Runs (bindMember a name) M p e p') :
    Rewritten M.catalog p.forest p'.forest (.member a name) e := by
  unfold bindMember at h
  split at h
  · next fields =>
    obtain ⟨rfl, rfl⟩ := Runs.pure_iff.1 h
    refine .of_costs nofun rfl fun he => ?_
    cases hlookup : fields.lookup name with
    | none => exact he
    | some value =>
      obtain ⟨before, after, rfl, -⟩ := List.lookup_eq_some_iff.1 hlookup
      cases he with
      | member target _ => exact target.part rfl (by simp [children])
      | scalar node _ _ => cases node
  · exact bindRowMember_rewritten hp h
  · obtain ⟨rfl, rfl⟩ := Runs.pure_iff.1 h
    exact .refl (.refl _) _

theorem bind_rewritten (hp : p.forest.Linked M.catalog) (h : Runs (EntityQuery.bind e) M p e' p') :
    Rewritten M.catalog p.forest p'.forest e e' := by
  refine (rewritten_passing _).rewrite (fun e {p e' p'} h => ?_) .of_head (fun {e p e' p'} hp h => ?_) hp h
  · split at h
    · exact bindMember_onward _ _ h
    · exact .of_eq (congrArg Progress.forest (Runs.pure_iff.1 h).2).symm
  · split at h
    · exact bindMember_rewritten hp h
    · obtain ⟨rfl, rfl⟩ := Runs.pure_iff.1 h
      exact .refl (.refl _) _

end Binding

section Comparing

variable {op : BinaryOp} {n m : NodeId}

/-- The rows of a node can be compared: the node is there and leads to single rows. -/
structure Forest.Single (f : Forest) (n : NodeId) : Prop where
  range : n.index < f.size
  single : (f.node n).isCollection = false

theorem Forest.Single.keeps (h : f.Single n) (hfg : f.Keeps g) : g.Single n :=
  ⟨Nat.lt_of_lt_of_le h.range hfg.size, (hfg.node h.range).isCollection.trans h.single⟩

theorem Forest.range_of_many (h : (f.node n).isCollection = true) : n.index < f.size := by
  refine Nat.lt_of_not_le fun hle => ?_
  rw [node_of_size_le hle] at h
  cases h

/-- A row that collections belong to is a single one. -/
theorem Forest.Linked.single_owner (hf : f.Linked c) (hn : (f.node n).isCollection = true)
    (hm : (f.node n).parent = some m) : f.Single m := by
  obtain ⟨older, link⟩ := hf.link hm
  refine ⟨Nat.lt_trans older (range_of_many hn), ?_⟩
  cases link with
  | navigation _ single => exact single
  | field _ noEdge => exact absurd hn (by simp [Node.not_isCollection noEdge])

theorem keyReads_costs (ρ : Costing) (hc : M.catalog.NamesApart)
    {reads : List (Expr × Property)} (h : Runs (keyReads n) M p reads p') (hn : p.forest.Single n)
    (hk : 1 ≤ k) : p = p' ∧ ∀ x ∈ reads, Costs M.catalog p'.forest ρ k x.1 := by
  simp only [keyReads, Runs.bind_iff, Runs.node_iff, Runs.entityType_iff, Runs.ofCatalog_iff,
    Runs.ref_iff, Runs.pure_iff] at h
  obtain ⟨_, _, ⟨rfl, rfl⟩, t, _, ⟨ht, rfl⟩, key, _, ⟨hkey, rfl⟩, _, _, ⟨rfl, rfl⟩, rfl, rfl⟩ := h
  refine ⟨rfl, fun x hx => ?_⟩
  obtain ⟨property, hproperty, rfl⟩ := List.mem_map.1 hx
  exact (Costs.ref hn.range hn.single hk).column hc (Catalog.isColumn_of_propertiesNamed ht hkey _ hproperty)

theorem settled_costs (op : BinaryOp) (equal : Bool) (hk : 1 ≤ k) :
    Costs c f ρ k (settled op equal) :=
  .const _ hk

theorem compareEntities_costs (hc : M.catalog.NamesApart) (h : Runs (compareEntities op n m) M p e p')
    (hn : p.forest.Single n) (hm : p.forest.Single m) (hk : 1 ≤ k) :
    Costs M.catalog p'.forest ρ k e := by
  simp only [compareEntities, Runs.bind_iff, Runs.node_iff] at h
  obtain ⟨_, _, ⟨rfl, rfl⟩, _, _, ⟨rfl, rfl⟩, h⟩ := h
  split at h
  · obtain ⟨rfl, rfl⟩ := Runs.pure_iff.1 h
    exact settled_costs op false hk
  · simp only [Runs.bind_iff] at h
    obtain ⟨left, _, hleft, right, _, hright, h⟩ := h
    obtain ⟨rfl, leftCosts⟩ := keyReads_costs ρ hc hleft hn hk
    obtain ⟨rfl, rightCosts⟩ := keyReads_costs ρ hc hright hm hk
    obtain ⟨rfl, rfl⟩ := Runs.equality_iff.1 h
    have pair {l r : Expr × Property} (hz : (l, r) ∈ left.zip right) (a b : Bool) :=
      (leftCosts l (List.of_mem_zip hz).1).widenPair (rightCosts r (List.of_mem_zip hz).2) l.2.dataType a b
    refine Costs.plainEquality (.key hk fun d hd => ?_) (.key hk fun d hd => ?_) _ _
    all_goals
      obtain ⟨_, hw, rfl⟩ := List.mem_map.1 hd
      obtain ⟨⟨l, r⟩, hz, rfl⟩ := List.mem_map.1 hw
    · exact (pair hz _ _).1
    · exact (pair hz _ _).2

theorem compareWithNull_costs (hc : M.catalog.NamesApart) (h : Runs (compareWithNull op n) M p e p')
    (hn : p.forest.Single n) (hk : 1 ≤ k) : Costs M.catalog p'.forest ρ k e := by
  simp only [compareWithNull, Runs.bind_iff, Runs.pure_iff] at h
  obtain ⟨reads, _, hreads, rfl, rfl⟩ := h
  obtain ⟨rfl, readsCosts⟩ := keyReads_costs ρ hc hreads hn hk
  refine (Costs.key hk fun d hd => ?_).binary (.key hk fun d hd => ?_) op
  · obtain ⟨x, hx, rfl⟩ := List.mem_map.1 hd
    split
    · exact readsCosts x hx
    · exact (readsCosts x hx).convert _ _
  · obtain ⟨_, -, rfl⟩ := List.mem_map.1 hd
    exact .typedNull _ hk

/-- A row that is compared by its key is a single one. -/
theorem Operand.single_of (ha : Costs c f ρ k a) (h : Operand.of f a = .entity n) : f.Single n := by
  obtain ⟨r, rfl, rfl⟩ := Operand.of_node (.inl h)
  refine ⟨?_, Bool.eq_false_iff.2 fun many => ?_⟩
  · cases ha with
    | rowRef range _ _ => exact range
    | scalar node _ _ => cases node
  · simp [Operand.of, many] at h

theorem Operand.many_of (h : Operand.of f a = .collection n) : (f.node n).isCollection = true := by
  obtain ⟨r, rfl, rfl⟩ := Operand.of_node (.inr h)
  refine Bool.of_not_eq_false fun single => ?_
  simp only [Operand.of, single, Bool.false_eq_true, if_false] at h
  split at h <;> cases h

theorem compareCollectionWithNull_costs (hc : M.catalog.NamesApart) (hp : p.forest.Linked M.catalog)
    (h : Runs (compareCollectionWithNull op n) M p e p') (hn : (p.forest.node n).isCollection = true)
    (hk : 1 ≤ k) : Costs M.catalog p'.forest ρ k e := by
  simp only [compareCollectionWithNull, Runs.bind_iff, Runs.node_iff, Runs.modifyForest_iff] at h
  obtain ⟨_, _, ⟨rfl, rfl⟩, _, _, rfl, h⟩ := h
  have keeps := (Forest.onward_remove n hp).2
  split at h
  · next owner howner => exact compareWithNull_costs hc h ((hp.single_owner hn howner).keeps keeps) hk
  · obtain ⟨rfl, rfl⟩ := Runs.pure_iff.1 h
    exact settled_costs op false hk

theorem compareCollections_costs (hc : M.catalog.NamesApart) (hp : p.forest.Linked M.catalog)
    (h : Runs (compareCollections op n m) M p e p') (hn : (p.forest.node n).isCollection = true)
    (hm : (p.forest.node m).isCollection = true) (hk : 1 ≤ k) : Costs M.catalog p'.forest ρ k e := by
  simp only [compareCollections, Runs.bind_iff, Runs.forest_iff, Runs.setForest_iff] at h
  obtain ⟨_, _, ⟨rfl, rfl⟩, _, _, rfl, h⟩ := h
  have keeps := ((Forest.onward_remove n).trans (Forest.onward_remove m) hp).2
  split at h
  · next x y hx hy =>
    split at h
    · exact compareEntities_costs hc h ((hp.single_owner hn hx).keeps keeps)
        ((hp.single_owner hm hy).keeps keeps) hk
    · obtain ⟨rfl, rfl⟩ := Runs.pure_iff.1 h
      exact settled_costs op false hk
  · obtain ⟨rfl, rfl⟩ := Runs.pure_iff.1 h
    exact settled_costs op false hk

theorem compareSides_costs (hc : M.catalog.NamesApart) (hp : p.forest.Linked M.catalog)
    (h : Runs (compareSides op a b) M p e p') (ha : Costs M.catalog p.forest ρ k a)
    (hb : Costs M.catalog p.forest ρ k b) : Costs M.catalog p'.forest ρ k e := by
  simp only [compareSides, Runs.bind_iff, Runs.forest_iff] at h
  obtain ⟨_, _, ⟨rfl, rfl⟩, h⟩ := h
  split at h
  · next hx hy => exact compareCollections_costs hc hp h (Operand.many_of hx) (Operand.many_of hy) ha.pos
  · next hx _ => exact compareCollectionWithNull_costs hc hp h (Operand.many_of hx) ha.pos
  · next _ hy => exact compareCollectionWithNull_costs hc hp h (Operand.many_of hy) ha.pos
  · exact (Runs.throw_iff.1 h).elim
  · exact (Runs.throw_iff.1 h).elim
  · next hx hy => exact compareEntities_costs hc h (Operand.single_of ha hx) (Operand.single_of hb hy) ha.pos
  · next hx _ => exact compareWithNull_costs hc h (Operand.single_of ha hx) ha.pos
  · next _ hy => exact compareWithNull_costs hc h (Operand.single_of hb hy) ha.pos
  · obtain ⟨rfl, rfl⟩ := Runs.equality_iff.1 h
    exact ha.plainEquality hb _ _

/-- An equality is a scalar node. -/
theorem Expr.isScalarNode_of_sides? (h : e.sides? = some (op, a, b)) : e.isScalarNode = true := by
  unfold sides? at h
  split at h <;> first | rfl | cases h

theorem compareByKeys_rewritten (hc : M.catalog.NamesApart) (hp : p.forest.Linked M.catalog)
    (h : Runs (compareByKeys e) M p e' p') : Rewritten M.catalog p.forest p'.forest e e' := by
  rw [compareByKeys_rewrite] at h
  refine (rewritten_passing _).rewrite (fun e {p e' p'} h => ?_) .of_head (fun {e p e' p'} hp h => ?_) hp h
  · unfold compareNode at h
    split at h
    · exact compareSides_onward _ _ _ h
    · exact .of_eq (congrArg Progress.forest (Runs.pure_iff.1 h).2).symm
  · unfold compareNode at h
    split at h
    · next op a b hsides =>
      have node := isScalarNode_of_sides? hsides
      have parts := children_of_sides? hsides
      refine .of_costs (fun params b heq => ?_) ?_ fun he => ?_
      · subst heq
        cases node
      · unfold sides? at hsides
        split at hsides <;> first | rfl | cases hsides
      · exact compareSides_costs hc hp h (he.part node (by simp [parts])) (he.part node (by simp [parts]))
    · obtain ⟨rfl, rfl⟩ := Runs.pure_iff.1 h
      exact .refl (.refl _) _

end Comparing

section Collections

variable {r : RowRef}

/-- The predicate by which rows belong to an owner reads key columns, and nothing of it is expanded. -/
theorem membership_costs (hc : c.NamesApart) {owner : Expr} {element : String} {ownerKey elementKey : List Property}
    (ho : Costs c f ρ k owner) (hx : Costs c f ρ k (.param element))
    (hown : ∀ q ∈ ownerKey, c.IsColumn q.name) (helement : ∀ q ∈ elementKey, c.IsColumn q.name) :
    Costs c f ρ k (membership owner element ownerKey elementKey) := by
  have hk := ho.pos
  have pair {o e : Property} (hz : (o, e) ∈ ownerKey.zip elementKey) :=
    (hx.column hc (helement e (List.of_mem_zip hz).2)).widenPair (ho.column hc (hown o (List.of_mem_zip hz).1))
      o.dataType e.nullable o.nullable
  refine ((Costs.key hk fun d hd => ?_).binary (.key hk fun d hd => ?_) _).binary
    ((Costs.key hk fun d hd => ?_).binary (.key hk fun d hd => ?_) _) _
  · obtain ⟨⟨o, e⟩, hz, rfl⟩ := List.mem_map.1 hd
    have read := ho.column hc (hown o (List.of_mem_zip hz).1)
    dsimp only
    split
    · exact read
    · exact read.convert _ _
  · obtain ⟨_, -, rfl⟩ := List.mem_map.1 hd
    exact .typedNull _ hk
  all_goals
    obtain ⟨_, hw, rfl⟩ := List.mem_map.1 hd
    obtain ⟨⟨o, e⟩, hz, rfl⟩ := List.mem_map.1 hw
  · exact (pair hz).1
  · exact (pair hz).2

/-- A filter for a collection is one call over a set. -/
theorem collectionFilter_costs (hc : M.catalog.NamesApart) (hp : p.forest.Linked M.catalog)
    (hr : (p.forest.node r.node).isCollection = true) (h : Runs (collectionFilter r) M p e p') :
    Costs M.catalog p'.forest ρ 2 e := by
  have keeps := (collectionFilter_onward r h hp).2
  obtain ⟨edge, owner, element, ownerKey, elementKey, -, howner, rfl, -, ⟨t, ht, hown⟩, t', ht', helement⟩ :=
    Runs.collectionFilter_eq h
  have single := hp.single_owner hr howner
  refine (Arguments.constant (m := 1) (fun a ha hl => ?_) fun params body ha => ?_).call (Nat.le_refl 2) _
  all_goals
    rw [List.mem_cons, List.mem_singleton] at ha
    rcases ha with heq | heq <;> cases heq
  · exact .scalar rfl (Nat.le_refl 1) fun d hd => by cases hd
  · cases hl
  · refine ⟨List.pairwise_singleton _ _, ?_⟩
    exact membership_costs hc ((Costs.ref single.range single.single (Nat.le_refl 1)).keeps keeps)
      (.param ρ (.refl _) (Nat.le_refl 1) (Nat.le_refl 1))
      (Catalog.isColumn_of_propertiesNamed ht hown) (Catalog.isColumn_of_propertiesNamed ht' helement)

/-- A call over one query that takes nothing from around it costs a little more than the query. -/
theorem overQuery_costs (h : ∀ ρ, Costs c f ρ k e) {operator : Operator} (hd : operator.depth = 2)
    (note : Option CallNote) : Costs c f ρ (k + 2) (.call operator [e] note) := by
  have plain := (h ρ).isLambda
  refine (Arguments.constant (m := k) (fun a ha _ => ?_) fun params body ha => ?_).call
    (by simp [hd]) note
  · rw [List.mem_singleton.1 ha]
    exact h _
  · rw [← List.mem_singleton.1 ha] at plain
    cases plain

/-- The forest that says which nodes are collections is that of the beginning; the forest that is worked
on may have lost some since. -/
theorem collections_rewritten (hc : M.catalog.NamesApart) {f : Forest} (hf : f.Keeps p.forest)
    (hp : p.forest.Linked M.catalog) (h : Runs (e.descend (collectionAt f)) M p e' p') :
    Rewritten M.catalog p.forest p'.forest e e' := by
  refine (rewritten_passing _).descend (fun _ _ hat => collectionAt_onward hat)
    (fun {e x p e' p'} hat hp hf h => ?_) (fun _ => .of_head) hp hf h
  obtain ⟨r, many, hfilter⟩ := Runs.collectionAt hat h
  have many : (p.forest.node r.node).isCollection = true := by
    rwa [(hf.node (Forest.range_of_many many)).isCollection]
  have paid {ρ k} (he : Costs M.catalog p.forest ρ k (.rowRef r)) : 4 ≤ k := by
    cases he with
    | rowRef _ _ paid => exact paid many
    | scalar node _ _ => cases node
  rcases hfilter with ⟨rfl, hfilter⟩ | ⟨name, filter, rfl, hfilter, rfl⟩
  · refine .of_costs nofun rfl fun {ρ k} he => ?_
    have := paid he
    exact (collectionFilter_costs hc hp many hfilter).le (by omega)
  · refine .of_costs nofun rfl fun {ρ k} he => ?_
    have := paid (by cases he with
      | member target _ => exact target
      | scalar node _ _ => cases node)
    exact (overQuery_costs (fun _ => collectionFilter_costs hc hp many hfilter) rfl none).le (by omega)

theorem filterCollections_rewritten (hc : M.catalog.NamesApart) (hp : p.forest.Linked M.catalog)
    (h : Runs (filterCollections e) M p e' p') : Rewritten M.catalog p.forest p'.forest e e' := by
  rw [Runs.filterCollections_iff] at h
  exact collections_rewritten hc (.refl _) hp h

theorem rewriteBody_rewritten (hc : M.catalog.NamesApart) (hp : p.forest.Linked M.catalog)
    (h : Runs (rewriteBody e) M p e' p') : Rewritten M.catalog p.forest p'.forest e e' := by
  obtain ⟨_, _, _, _, hbind, hq, hcompare, hq', hfilter⟩ := Runs.rewriteBody h hp
  exact (bind_rewritten hp hbind).trans
    ((compareByKeys_rewritten hc hq hcompare).trans (filterCollections_rewritten hc hq' hfilter))

end Collections

end EntityQuery
