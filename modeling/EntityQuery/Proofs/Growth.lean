import EntityQuery.Proofs.Numbering

/-!
# Growing forests

Binding only adds nodes to a forest, each where a navigation leads from a node that is there (`Forest.GrowsTo`).
So whatever has been bound in which order, two forests that have grown from one have twins at the same places,
below a node of that one along the same names (`SamePlace`, `SamePlace.twins`).
-/

namespace EntityQuery

open EntityQuery.Expr EntityQuery.Forest

variable {M : Model} {p p' q : Progress} {e e' : Expr} {b f g h : Forest} {f' g' : Forest} {c : Catalog}
  {n m k l : NodeId} {name : String}

section Growing

/-- The navigation of the name leads from the one node to the other. -/
inductive Node.Leads (c : Catalog) (name : String) (x y : Node) : Prop where
  | intro {owner : String} {edge : NavigationEdge} (known : x.entity = some owner)
    (declared : c.navigation? owner name = some edge) (source : y.source = x.source) (edge_eq : y.edge = some edge)
    (entity : y.entity = some edge.target) (plain : y.field = none)
    (isOptional : y.isOptional = (x.isOptional || edge.isOptional))

/-- The second forest has the nodes of the first as they were, each below the one that it was below. -/
structure Forest.Retains (c : Catalog) (f g : Forest) : Prop extends f.Steady c g where
  child : ∀ {n name k}, f.child? n name = some k → g.child? n name = some k

/-- The second forest retains the nodes of the first, and has others only where navigations lead to. -/
structure Forest.GrowsTo (c : Catalog) (f g : Forest) : Prop extends f.Retains c g where
  fresh : ∀ {n name k}, f.child? n name = none → g.child? n name = some k → f.size ≤ k.index
  leads : ∀ {n name k}, g.child? n name = some k → f.size ≤ k.index → (g.node n).Leads c name (g.node k)

theorem Node.Leads.steady (h : (f.node n).Leads c name (f.node k)) (hg : f.Steady c g) (hn : n.index < f.size)
    (hk : k.index < f.size) : (g.node n).Leads c name (g.node k) := by
  have owner := hg.keeps.node hn
  have stays := hg.keeps.node hk
  cases h with
  | intro known declared source edge entity plain isOptional =>
    refine .intro (owner.entity.trans known) declared (stays.source.trans (source.trans owner.source.symm))
      (stays.edge.trans edge) (stays.entity.trans entity) (stays.field.trans plain) ?_
    rw [(hg.lasts hk).isOptional, isOptional, (hg.lasts hn).isOptional]

namespace Forest

theorem Linked.of_child? (hf : f.Linked c) (h : f.child? n name = some k) :
    k.index < f.size ∧ (f.node k).parent = some n ∧ n.index < k.index ∧ (f.node k).step? = some name := by
  obtain ⟨range, parent⟩ := hf.children (List.mem_of_find?_eq_some h)
  exact ⟨range, parent, (hf.link parent).1, by simpa using List.find?_some h⟩

theorem Retains.refl (hf : f.Linked c) : f.Retains c f := ⟨.refl hf, id⟩

theorem Retains.trans (hf : f.Retains c g) (hg : g.Retains c h) : f.Retains c h :=
  ⟨hf.toSteady.trans hg.toSteady, hg.child ∘ hf.child⟩

theorem GrowsTo.refl (hf : f.Linked c) : f.GrowsTo c f where
  toRetains := .refl hf
  fresh hnone hk := absurd (hnone.symm.trans hk) (by simp)
  leads hk hnew := absurd (hf.of_child? hk).1 (Nat.not_lt_of_le hnew)

/-- A child that is there was there before, or is new. -/
theorem GrowsTo.cases (hf : f.GrowsTo c g) (hk : g.child? n name = some k) :
    f.child? n name = some k ∨ f.child? n name = none ∧ f.size ≤ k.index := by
  cases hold : f.child? n name with
  | none => exact .inr ⟨rfl, hf.fresh hold hk⟩
  | some k' => exact .inl ((hf.child hold).symm.trans hk)

theorem GrowsTo.trans (hf : f.GrowsTo c g) (hg : g.GrowsTo c h) : f.GrowsTo c h where
  toRetains := hf.toRetains.trans hg.toRetains
  fresh hnone hk := by
    rcases hg.cases hk with hold | ⟨-, hnew⟩
    · exact hf.fresh hnone hold
    · exact Nat.le_trans hf.keeps.size hnew
  leads hk hnew := by
    rcases hg.cases hk with hold | ⟨-, hnew⟩
    · obtain ⟨range, -, older, -⟩ := hf.linked.of_child? hold
      exact (hf.leads hold hnew).steady hg.toSteady (Nat.lt_trans older range) range
    · exact hg.leads hk hnew

/-- What is below a new node is new. -/
theorem GrowsTo.new_child (hf : f.GrowsTo c g) (hn : f.size ≤ n.index) (hk : g.child? n name = some k) :
    f.size ≤ k.index :=
  Nat.le_trans hn (Nat.le_of_lt (hf.linked.of_child? hk).2.2.1)

theorem follow_of_child {edge : NavigationEdge} (h : f.child? n edge.name = some k) : f.follow n edge = (k, f) := by
  rw [follow, h]

/-- Following a navigation makes the forest grow where it leads to. -/
theorem grown_follow {owner : String} {edge : NavigationEdge} (hf : f.Linked c)
    (known : (f.node n).entity = some owner) (single : (f.node n).isCollection = false)
    (declared : c.navigation? owner edge.name = some edge) (h : f.follow n edge = (k, g)) :
    f.GrowsTo c g ∧ g.child? n edge.name = some k := by
  have hn := Keeps.range_of_entity known
  obtain ⟨linked, keeps, -⟩ := follow_onward hf known single declared h
  have steady : f.Steady c g := ⟨linked, keeps, fun hk => by
    have lasts := lasts_follow edge known hk
    rwa [h] at lasts⟩
  rcases follow_cases hn h with ⟨hchild, rfl⟩ | ⟨hnone, rfl, rfl, added⟩
  · exact ⟨.refl hf, hchild⟩
  have child {m : NodeId} {name : String} (hm : m.index < f.size) : (f.addNode (f.target n edge)).2.child? m name =
      (f.child? m name).or (if m = n ∧ (f.target n edge).step? = some name then some ⟨f.size⟩ else none) :=
    child?_addNode hf.closed hn rfl hm
  have old {m k : NodeId} {name : String} (hk : f.child? m name = some k) :
      (f.addNode (f.target n edge)).2.child? m name = some k := by
    obtain ⟨range, -, older, -⟩ := hf.of_child? hk
    rw [child (Nat.lt_trans older range), hk]
    rfl
  have new {m k : NodeId} {name : String} (hk : (f.addNode (f.target n edge)).2.child? m name = some k) :
      f.child? m name = some k ∨ m = n ∧ name = edge.name ∧ k = ⟨f.size⟩ := by
    obtain ⟨range, -, older, -⟩ := linked.of_child? hk
    have hm : m.index < f.size := by
      have := added.size
      omega
    rw [child hm, Option.or_eq_some_iff] at hk
    rcases hk with hk | ⟨-, hk⟩
    · exact .inl hk
    · split at hk
      · next here =>
        cases hk
        exact .inr ⟨here.1, (Option.some.inj here.2).symm, rfl⟩
      · cases hk
  refine ⟨⟨⟨steady, old⟩, fun hnone hk => ?_, fun hk hnew => ?_⟩, ?_⟩
  · rcases new hk with hk | ⟨rfl, rfl, rfl⟩
    · exact absurd (hnone.symm.trans hk) (by simp)
    · exact Nat.le_refl _
  · rcases new hk with hk | ⟨rfl, rfl, rfl⟩
    · exact absurd (hf.of_child? hk).1 (Nat.not_lt_of_le hnew)
    · have stays := keeps.node hn
      rw [added.new]
      refine .intro (stays.entity.trans known) declared stays.source.symm rfl rfl rfl ?_
      rw [(steady.lasts hn).isOptional]
      rfl
  · rw [child hn, hnone, if_pos ⟨rfl, rfl⟩]
    rfl

end Forest

theorem bindMember_grown {t : Expr} (h : Runs (bindMember t name) M p e p') (hp : p.forest.Linked M.catalog) :
    p.forest.GrowsTo M.catalog p'.forest := by
  unfold bindMember at h
  split at h
  · obtain ⟨-, rfl⟩ := Runs.pure_iff.1 h
    exact .refl hp
  · rcases Runs.bindRowMember_cases h with ⟨-, rfl, -⟩ | ⟨_, -, -, rfl⟩ |
      ⟨_, _, _, _, _, single, known, declared, hfollow, rfl, -⟩
    · exact .refl hp
    · exact .refl hp
    · exact (grown_follow hp known single (Catalog.navigation?_name declared ▸ declared) hfollow).1
  · obtain ⟨-, rfl⟩ := Runs.pure_iff.1 h
    exact .refl hp

/-- Binding makes the forest grow. -/
theorem bind_grown (h : Runs (bind e) M p e' p') (hp : p.forest.Linked M.catalog) :
    p.forest.GrowsTo M.catalog p'.forest := by
  refine Runs.rewrite_within (fun p q => p.forest.Linked M.catalog → p.forest.GrowsTo M.catalog q.forest)
    (fun _ => .refl) (fun h k hp => (h hp).trans (k (h hp).linked)) (fun {e p e' p'} h hp => ?_) h hp
  split at h
  · exact bindMember_grown h hp
  · obtain ⟨-, rfl⟩ := Runs.pure_iff.1 h
    exact .refl hp

/-- A new source leaves all nodes where they are. -/
theorem Forest.retains_addSource {entity? : Option String} {isOptional : Bool} (hf : f.Linked c) :
    f.Retains c (f.addSource entity? isOptional).2 := by
  have added := added_addSource f entity? isOptional
  obtain ⟨linked, keeps⟩ := (addSource_onward (Prod.eta (f.addSource entity? isOptional)).symm).1 hf
  have same {n : NodeId} (hn : n.index < f.size) : (f.addSource entity? isOptional).2.node n = f.node n := by
    rcases added.old hn with heq | ⟨⟨⟩, -⟩
    exact heq
  refine ⟨⟨linked, keeps, fun hn => same hn ▸ .refl _⟩, fun {n name k} hk => ?_⟩
  obtain ⟨range, -, older, -⟩ := hf.of_child? hk
  rw [child?, same (Nat.lt_trans older range), ← hk, child?]
  exact List.find?_congr fun m hm => by rw [same (hf.closed n m hm)]

theorem rootStream_retains {entity : String} {s : Stream} (h : Runs (rootStream entity) M p s p')
    (hp : p.forest.Linked M.catalog) : p.forest.Retains M.catalog p'.forest := by
  simp only [rootStream, Runs.bind_iff, Runs.entityType_iff, Runs.growForest_iff, Runs.forest_iff, Runs.ref_iff,
    Runs.pure_iff] at h
  obtain ⟨_, _, ⟨-, rfl⟩, _, _, ⟨-, rfl⟩, _, _, ⟨rfl, rfl⟩, _, _, ⟨-, rfl⟩, -, rfl⟩ := h
  exact retains_addSource hp

/-- The expression is bound on the way from one state to another. -/
def BoundBetween (M : Model) (p q : Progress) (e e' : Expr) : Prop :=
  ∃ r r', p.forest.GrowsTo M.catalog r.forest ∧ Runs (bind e) M r e' r' ∧ r'.forest.GrowsTo M.catalog q.forest

/-- Binding an expression binds its parts first. -/
theorem Runs.bind_parts (h : Runs (bind e) M p e' p') (hp : p.forest.Linked M.catalog) : ∃ d q,
    p.forest.GrowsTo M.catalog q.forest ∧ SameHead (fun c c' => c ∈ e.children ∧ BoundBetween M p q c c') e d ∧
      Runs (bindNode d) M q e' p' := by
  rw [bind_eq, Runs.bind_iff] at h
  obtain ⟨d, q, hparts, h⟩ := h
  obtain ⟨grown, head⟩ := Runs.mapChildren_within
    (fun p q => p.forest.Linked M.catalog → p.forest.GrowsTo M.catalog q.forest) (fun _ => .refl)
    (fun h k hp => (h hp).trans (k (h hp).linked)) (fun _ _ _ _ _ _ => bind_grown) hparts
  refine ⟨d, q, grown hp, head.mono fun c c' ran => ?_, h⟩
  obtain ⟨hc, r, r', hr, hr', hrun⟩ := ran
  exact ⟨hc, r, r', hr hp, hrun, hr' (bind_grown hrun (hr hp).linked).linked⟩

end Growing

section Places

/-- The nodes are at the same place of two forests that have grown from the first one: they are the same node of
that one, or new ones that the same name leads to from the same place. -/
inductive SamePlace (b f g : Forest) : NodeId → NodeId → Prop where
  | known {n : NodeId} (h : n.index < b.size) : SamePlace b f g n n
  | child {n m k l : NodeId} {name : String} (h : SamePlace b f g n m) (hk : f.child? n name = some k)
    (hl : g.child? m name = some l) (new : b.size ≤ k.index) (new' : b.size ≤ l.index) : SamePlace b f g k l

namespace SamePlace

theorem flip (h : SamePlace b f g n m) : SamePlace b g f m n := by
  induction h with
  | known h => exact .known h
  | child _ hk hl new new' ih => exact .child ih hl hk new' new

theorem later (h : SamePlace b f g n m) (hf : ∀ {n name k}, f.child? n name = some k → f'.child? n name = some k)
    (hg : ∀ {n name k}, g.child? n name = some k → g'.child? n name = some k) : SamePlace b f' g' n m := by
  induction h with
  | known h => exact .known h
  | child _ hk hl new new' ih => exact .child ih (hf hk) (hg hl) new new'

/-- A node of the first forest is at its own place only. -/
theorem eq_of_known (h : SamePlace b f g n m) (hn : n.index < b.size) : m = n := by
  cases h with
  | known _ => rfl
  | child _ _ _ new _ => exact absurd hn (Nat.not_lt_of_le new)

theorem child?_inj {n' : NodeId} {name' : String} (hf : f.Linked c) (hk : f.child? n name = some k)
    (hk' : f.child? n' name' = some k) : n = n' ∧ name = name' := by
  obtain ⟨-, parent, -, step⟩ := hf.of_child? hk
  obtain ⟨-, parent', -, step'⟩ := hf.of_child? hk'
  exact ⟨Option.some.inj (parent.symm.trans parent'), Option.some.inj (step.symm.trans step')⟩

theorem trans (hg : g.Linked c) (h₁ : SamePlace b f g n m) (h₂ : SamePlace b g h m k) : SamePlace b f h n k := by
  induction h₁ generalizing k with
  | known hn =>
    obtain rfl := h₂.eq_of_known hn
    exact .known hn
  | child _ hk hl new new' ih =>
    cases h₂ with
    | known hm => exact absurd hm (Nat.not_lt_of_le new')
    | child above hm hk' _ new'' =>
      obtain ⟨rfl, rfl⟩ := child?_inj hg hl hm
      exact .child (ih above) hk hk' new new''

theorem unique (hf : f.Linked c) (h₁ : SamePlace b f g n m) (h₂ : SamePlace b f g n l) : m = l := by
  induction h₁ generalizing l with
  | known hn => exact (h₂.eq_of_known hn).symm
  | child _ hk hl new _ ih =>
    cases h₂ with
    | known hn => exact absurd hn (Nat.not_lt_of_le new)
    | child above hk' hl' _ _ =>
      obtain ⟨rfl, rfl⟩ := child?_inj hf hk hk'
      obtain rfl := ih above
      exact Option.some.inj (hl.symm.trans hl')

variable (hb : b.Linked c) (hf : b.GrowsTo c f) (hg : b.GrowsTo c g)

include hb hf hg

/-- Nodes at the same place are twins. -/
theorem twins : Twins f g (SamePlace b f g) where
  range h := by
    cases h with
    | known hn => exact ⟨Nat.lt_of_lt_of_le hn hf.keeps.size, Nat.lt_of_lt_of_le hn hg.keeps.size⟩
    | child _ hk hl _ _ => exact ⟨(hf.linked.of_child? hk).1, (hg.linked.of_child? hl).1⟩
  node h := by
    induction h with
    | known hn =>
      have stays := hf.keeps.node hn
      have stays' := hg.keeps.node hn
      exact ⟨stays'.source.trans stays.source.symm, stays'.edge.trans stays.edge.symm,
        stays'.entity.trans stays.entity.symm, stays'.field.trans stays.field.symm,
        (hg.lasts hn).isOptional.trans (hf.lasts hn).isOptional.symm⟩
    | child _ hk hl new new' twin =>
      cases hf.leads hk new with
      | intro known declared source edge entity plain isOptional =>
        cases hg.leads hl new' with
        | intro known' declared' source' edge' entity' plain' isOptional' =>
          obtain rfl := Option.some.inj (known.symm.trans (twin.entity.symm.trans known'))
          obtain rfl := Option.some.inj (declared.symm.trans declared')
          refine ⟨?_, edge'.trans edge.symm, entity'.trans entity.symm, plain'.trans plain.symm, ?_⟩
          · rw [source', source, twin.source]
          · rw [isOptional', isOptional, twin.isOptional]
  parent h := by
    cases h with
    | known hn =>
      rw [(hf.keeps.node hn).parent, (hg.keeps.node hn).parent]
      cases hq : (b.node _).parent with
      | none => exact .inl ⟨rfl, rfl⟩
      | some q => exact .inr ⟨q, q, rfl, rfl, .known (Nat.lt_trans (hb.link hq).1 hn)⟩
    | child above hk hl _ _ =>
      exact .inr ⟨_, _, (hf.linked.of_child? hk).2.1, (hg.linked.of_child? hl).2.1, above⟩
  unique h₁ h₂ := by
    constructor
    · rintro rfl
      exact h₁.unique hf.linked h₂
    · rintro rfl
      exact h₁.flip.unique hg.linked h₂.flip

/-- Where one navigation leads to from the same place, is the same place. -/
theorem follow {owner : String} {edge : NavigationEdge} (h : SamePlace b f g n m)
    (known : (f.node n).entity = some owner) (single : (f.node n).isCollection = false)
    (declared : c.navigation? owner edge.name = some edge) (hk : f.follow n edge = (k, f'))
    (hl : g.follow m edge = (l, g')) : SamePlace b f' g' k l := by
  have twins := SamePlace.twins hb hf hg
  obtain ⟨grown, child⟩ := grown_follow hf.linked known single declared hk
  obtain ⟨grown', child'⟩ := grown_follow hg.linked ((twins.node h).entity.trans known)
    ((twins.isCollection h).trans single) declared hl
  have here : SamePlace b f' g' n m := h.later grown.child grown'.child
  cases h with
  | known hn =>
    rcases (hf.trans grown).cases child with hold | ⟨hnone, hnew⟩
    · obtain rfl := Option.some.inj (((hg.trans grown').child hold).symm.trans child')
      exact .known (hb.of_child? hold).1
    · exact .child here child child' hnew ((hg.trans grown').fresh hnone child')
  | child _ _ _ new new' =>
    exact .child here child child' ((hf.trans grown).new_child new child) ((hg.trans grown').new_child new' child')

end SamePlace

end Places

end EntityQuery
