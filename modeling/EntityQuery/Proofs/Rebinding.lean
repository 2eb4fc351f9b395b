import EntityQuery.Proofs.Links
import EntityQuery.Proofs.LiveTrees
import EntityQuery.Proofs.Rewriting
import EntityQuery.Proofs.Tables
import EntityQuery.Proofs.Trees

/-!
# Binding again

Binding turns each navigation of a member chain into a reference to a child. What is left of the chain is a
member that leads nowhere: of a collection, a column, or a field that the row does not have. Following
navigations never changes that (`Forest.Lasting`), so an expression that has been bound is in a normal form
(`Expr.Normal`), in every later state as well, and binding it again finds nothing to do
(`bind_idempotent`).
-/

namespace EntityQuery

open EntityQuery.Expr

variable {M : Model} {p p' q : Progress} {e e' d : Expr} {name : String} {c : Catalog} {f g : Forest}

namespace Forest

variable {h : Forest} {n k : NodeId} {x : Node}

/-- The field of a record row that a member leads to. -/
def fieldAt? (f : Forest) (n : NodeId) (name : String) : Option NodeId :=
  (f.child? n name).filter fun k => (f.node k).field.isSome

/-- Rows of an entity have no fields. -/
theorem Linked.fieldAt?_of_entity (hf : f.Linked c) {entity : String} (known : (f.node n).entity = some entity)
    (name : String) : f.fieldAt? n name = none := hf.fieldless known name

/-- The nodes of the first forest are in the second one as they were, and none of them has a field that it
did not have. -/
structure Lasting (f g : Forest) : Prop extends f.Keeps g where
  fields : ∀ {n name}, n.index < f.size → f.fieldAt? n name = none → g.fieldAt? n name = none

theorem Lasting.refl (f : Forest) : f.Lasting f := ⟨.refl f, fun _ => id⟩

theorem Lasting.trans (hf : f.Lasting g) (hg : g.Lasting h) : f.Lasting h where
  toKeeps := hf.toKeeps.trans hg.toKeeps
  fields hn hnone := hg.fields (Nat.lt_of_lt_of_le hn hf.size) (hf.fields hn hnone)

theorem Built.closed (hf : f.Built) : f.Closed := fun _ _ hk => range_of_parent (hf.rooted.children hk).1

theorem Linked.closed (hf : f.Linked c) : f.Closed := fun _ _ hk => (hf.children hk).1

theorem Closed.added (hf : f.Closed) (h : Added f g x) (leaf : x.children = []) : g.Closed := by
  intro n k hk
  rw [h.size]
  rcases h.cases n with hn | rfl | ⟨-, hn⟩
  · rcases h.old hn with heq | ⟨-, heq⟩ <;> rw [heq] at hk
    · exact Nat.lt_succ_of_lt (hf n k hk)
    · rcases List.mem_append.1 hk with hk | hk
      · exact Nat.lt_succ_of_lt (hf n k hk)
      · obtain rfl := List.mem_singleton.1 hk
        exact Nat.lt_succ_self _
  · rw [h.new, leaf] at hk
    cases hk
  · rw [hn] at hk
    cases hk

/-- A new node is a child of its parent, but no field unless it says so. -/
theorem lasting_addNode (hf : f.Closed) (hn : n.index < f.size) (hx : x.parent = some n)
    (plain : x.field = none) (added : Added f (f.addNode x).2 x) : f.Lasting (f.addNode x).2 where
  toKeeps := added.keeps
  fields {m name} hm hnone := by
    refine Option.filter_eq_none_iff.2 fun k hk => ?_
    rw [child?_addNode hf hn hx hm, Option.or_eq_some_iff] at hk
    rcases hk with hk | ⟨-, hk⟩
    · rw [(added.keeps.node (hf m k (List.mem_of_find?_eq_some hk))).field]
      exact Option.filter_eq_none_iff.1 hnone k hk
    · split at hk
      · cases hk
        rw [added.new, plain]
        exact Bool.false_ne_true
      · cases hk

/-- Following a navigation leaves what is there as it is. -/
theorem lasting_follow (hf : f.Closed) (hn : n.index < f.size) {edge : NavigationEdge}
    (h : f.follow n edge = (k, g)) : g.Closed ∧ f.Lasting g ∧ k.index < g.size := by
  rcases follow_cases hn h with ⟨hchild, rfl⟩ | ⟨-, rfl, rfl, added⟩
  · exact ⟨hf, .refl _, hf n k (List.mem_of_find?_eq_some hchild)⟩
  · exact ⟨hf.added added rfl, lasting_addNode hf hn rfl rfl added, added.size ▸ Nat.lt_succ_self _⟩

end Forest

section Lasting

variable {t : Expr}

theorem bindMember_lasting (h : Runs (bindMember t name) M p e p') (hp : p.forest.Closed) :
    p'.forest.Closed ∧ p.forest.Lasting p'.forest := by
  unfold bindMember at h
  split at h
  · obtain ⟨-, rfl⟩ := Runs.pure_iff.1 h
    exact ⟨hp, .refl _⟩
  · rcases Runs.bindRowMember_cases h with ⟨-, rfl, -⟩ | ⟨_, -, -, rfl⟩ |
      ⟨_, _, _, _, _, -, known, -, hfollow, rfl, -⟩
    · exact ⟨hp, .refl _⟩
    · exact ⟨hp, .refl _⟩
    · obtain ⟨closed, lasting, -⟩ := Forest.lasting_follow hp (Forest.Keeps.range_of_entity known) hfollow
      exact ⟨closed, lasting⟩
  · obtain ⟨-, rfl⟩ := Runs.pure_iff.1 h
    exact ⟨hp, .refl _⟩

/-- Binding leaves what is there as it is. -/
theorem bind_lasting (h : Runs (bind e) M p e' p') (hp : p.forest.Closed) :
    p'.forest.Closed ∧ p.forest.Lasting p'.forest := by
  refine Runs.rewrite_within
    (fun p q => p.forest.Closed → q.forest.Closed ∧ p.forest.Lasting q.forest)
    (fun _ hp => ⟨hp, .refl _⟩) (fun h k hp => ?_) (fun {e p e' p'} h hp => ?_) h hp
  · obtain ⟨hq, first⟩ := h hp
    obtain ⟨hr, second⟩ := k hq
    exact ⟨hr, first.trans second⟩
  · split at h
    · exact bindMember_lasting h hp
    · obtain ⟨-, rfl⟩ := Runs.pure_iff.1 h
      exact ⟨hp, .refl _⟩

end Lasting

section Normality

variable {r : RowRef} {t : Expr}

/-- A member of a row stays a member, if nothing is bound through the row or nothing of the row has that
name. -/
theorem Runs.bindRowMember_stays_iff : Runs (bindRowMember r name) M p (.member (.rowRef r) name) p ↔
    (p.forest.node r.node).isCollection = true ∨
      p.forest.fieldAt? r.node name = none ∧
        ∀ entity, (p.forest.node r.node).entity = some entity →
          ∃ t, M.catalog.type? entity = some t ∧ t.navigation? name = none := by
  constructor
  · intro h
    have stays := h
    simp only [bindRowMember, Runs.bind_iff, Runs.forest_iff] at h
    obtain ⟨_, _, ⟨rfl, rfl⟩, h⟩ := h
    split at h
    · next many => exact .inl many
    · split at h
      · cases (Runs.pure_iff.1 h).1
      · next hnone =>
        refine .inr ⟨hnone, fun entity known => ?_⟩
        rw [known] at h
        simp only [bindNavigation, Runs.bind_iff, Runs.entityType_iff] at h
        obtain ⟨t, _, ⟨ht, rfl⟩, h⟩ := h
        refine ⟨t, ht, ?_⟩
        rcases Runs.bindRowMember_cases stays with ⟨-, -, many | nowhere⟩ | ⟨_, -, heq, -⟩ |
          ⟨_, _, _, _, _, -, -, -, -, -, heq⟩
        · exact absurd many ‹_›
        · have hnav := nowhere entity known
          rwa [Catalog.navigation?, ht] at hnav
        · cases heq
        · cases heq
  · intro h
    simp only [bindRowMember, Runs.bind_iff, Runs.forest_iff]
    refine ⟨_, _, ⟨rfl, rfl⟩, ?_⟩
    split
    · exact Runs.pure_iff.2 ⟨rfl, rfl⟩
    · next single =>
      obtain ⟨hnone, types⟩ := h.resolve_left single
      rw [show Option.filter _ _ = none from hnone]
      cases known : (p.forest.node r.node).entity with
      | none => exact Runs.pure_iff.2 ⟨rfl, rfl⟩
      | some entity =>
        obtain ⟨t, ht, hnav⟩ := types entity known
        simp only [bindNavigation, Runs.bind_iff, Runs.entityType_iff]
        refine ⟨t, _, ⟨ht, rfl⟩, ?_⟩
        rw [hnav]
        exact Runs.pure_iff.2 ⟨rfl, rfl⟩

/-- Where a member does not stay a member, the row is no collection. -/
theorem Runs.bindRowMember_single (h : Runs (bindRowMember r name) M p e p') (hne : e ≠ .member (.rowRef r) name) :
    (p.forest.node r.node).isCollection = false := by
  refine Bool.of_not_eq_true fun many => hne ?_
  have stays : Runs (bindRowMember r name) M p (.member (.rowRef r) name) p :=
    Runs.bindRowMember_stays_iff.2 (.inl many)
  exact (Prod.mk.inj (Except.ok.inj (h.symm.trans stays))).1

theorem Runs.bindRowMember_field {k : NodeId} (single : (p.forest.node r.node).isCollection = false)
    (hk : p.forest.fieldAt? r.node name = some k) : Runs (bindRowMember r name) M p (p.forest.ref k) p := by
  simp only [bindRowMember, Runs.bind_iff, Runs.forest_iff]
  refine ⟨_, _, ⟨rfl, rfl⟩, ?_⟩
  rw [if_neg (by simp [single]), show Option.filter _ _ = some k from hk]
  exact Runs.pure_iff.2 ⟨rfl, rfl⟩

theorem Runs.bindRowMember_entity_iff {entity : String} (hp : p.forest.Linked M.catalog)
    (single : (p.forest.node r.node).isCollection = false) (known : (p.forest.node r.node).entity = some entity) :
    Runs (bindRowMember r name) M p e p' ↔ Runs (bindNavigation r entity name) M p e p' := by
  have plain : (p.forest.child? r.node name).filter (fun c => (p.forest.node c).field.isSome) = none :=
    hp.fieldless known name
  simp only [bindRowMember, Runs.bind_iff, Runs.forest_iff]
  constructor
  · rintro ⟨_, _, ⟨rfl, rfl⟩, h⟩
    rwa [if_neg (by simp [single]), plain, known] at h
  · intro h
    refine ⟨_, _, ⟨rfl, rfl⟩, ?_⟩
    rwa [if_neg (by simp [single]), plain, known]

/-- Binding changes nothing where no member chain leads further. -/
theorem Runs.bind_of_members
    (h : ∀ {t name}, .member t name ∈ e.nodes → Runs (bindMember t name) M q (.member t name) q) :
    Runs (bind e) M q e q := by
  induction e using children_induction with
  | step e ih =>
    rw [bind_eq, Runs.bind_iff]
    refine ⟨e, q, Runs.mapChildren_fixed (SameHead.refl_of e fun d hd => ?_), ?_⟩
    · exact ih d hd fun ht => h (mem_nodes_of_child hd ht)
    · unfold bindNode
      split
      · exact h (self_mem_nodes _)
      · exact Runs.pure_iff.2 ⟨rfl, rfl⟩

/-- All references of the expression are into the forest, and no member chain leads further, whatever
navigations are followed elsewhere. -/
structure Expr.Normal (M : Model) (f : Forest) (e : Expr) : Prop where
  range : ∀ r ∈ e.rowRefs, r.node.index < f.size
  members : ∀ {t name}, .member t name ∈ e.nodes → ∀ {q : Progress}, f.Lasting q.forest →
    Runs (bindMember t name) M q (.member t name) q

theorem Expr.Normal.child (h : e.Normal M f) (hd : d ∈ e.children) : d.Normal M f :=
  ⟨fun r hr => h.range r (mem_rowRefs_of_child hd hr), fun ht => h.members (mem_nodes_of_child hd ht)⟩

theorem Expr.Normal.of_children (parts : ∀ d ∈ e.children, d.Normal M f)
    (ref : ∀ r, e = .rowRef r → r.node.index < f.size)
    (member : ∀ t name, e = .member t name → ∀ {q : Progress}, f.Lasting q.forest →
      Runs (bindMember t name) M q (.member t name) q) : e.Normal M f where
  range r hr := by
    rcases mem_rowRefs_iff.1 hr with heq | ⟨d, hd, hr⟩
    · exact ref r heq
    · exact (parts d hd).range r hr
  members ht := by
    rcases mem_nodes_iff.1 ht with heq | ⟨d, hd, ht⟩
    · exact member _ _ heq.symm
    · exact (parts d hd).members ht

theorem Expr.Normal.lasting (h : e.Normal M f) (hg : f.Lasting g) : e.Normal M g where
  range r hr := Nat.lt_of_lt_of_le (h.range r hr) hg.size
  members ht _ hq := h.members ht (hg.trans hq)

theorem Expr.Normal.rowRef (h : r.node.index < f.size) : (Expr.rowRef r).Normal M f :=
  .of_children (by simp [children]) (fun r hr => by cases hr; exact h) fun t name ht => by cases ht

/-- A member of something in normal form, if it leads nowhere. -/
theorem Expr.Normal.member (ht : t.Normal M f) (stays : ∀ {q : Progress}, f.Lasting q.forest →
    Runs (bindMember t name) M q (.member t name) q) : (Expr.member t name).Normal M f := by
  refine .of_children (fun d hd => ?_) (fun r heq => by cases heq) fun t' name' heq => ?_
  · obtain rfl := List.mem_singleton.1 hd
    exact ht
  · cases heq
    exact stays

/-- A member that has been bound is bound for good. -/
theorem bindMember_normal (h : Runs (bindMember t name) M p e p') (hp : p.forest.Closed)
    (ht : t.Normal M p.forest) : e.Normal M p'.forest := by
  unfold bindMember at h
  split at h
  · next fields =>
    obtain ⟨rfl, rfl⟩ := Runs.pure_iff.1 h
    cases hl : fields.lookup name with
    | none => exact ht.member fun _ => Runs.pure_iff.2 ⟨by rw [hl]; rfl, rfl⟩
    | some value =>
      obtain ⟨before, after, rfl, -⟩ := List.lookup_eq_some_iff.1 hl
      exact ht.child (by simp [children])
  · next r =>
    rcases Runs.bindRowMember_cases h with ⟨rfl, rfl, -⟩ | ⟨k, hk, rfl, rfl⟩ |
      ⟨entity, edge, child, forest, tally, -, known, -, hfollow, rfl, rfl⟩
    · have hrange := ht.range r (mem_rowRefs.2 (self_mem_nodes _))
      refine ht.member fun hq => ?_
      have keeps := hq.node hrange
      refine Runs.bindRowMember_stays_iff.2 ((Runs.bindRowMember_stays_iff.1 h).imp keeps.isCollection.trans ?_)
      rintro ⟨hnone, types⟩
      exact ⟨hq.fields hrange hnone, fun entity known => types entity (keeps.entity.symm.trans known)⟩
    · exact .rowRef (hp r.node k (List.mem_of_find?_eq_some (Option.filter_eq_some_iff.1 hk).1))
    · exact .rowRef (Forest.lasting_follow hp (Forest.Keeps.range_of_entity known) hfollow).2.2
  · next hrecord hrow =>
    obtain ⟨rfl, rfl⟩ := Runs.pure_iff.1 h
    refine ht.member fun _ => ?_
    cases t <;> first | exact Runs.pure_iff.2 ⟨rfl, rfl⟩ | exact absurd rfl (hrecord _) | exact absurd rfl (hrow _)

/-- What has been bound is bound for good. -/
theorem bind_normal (h : Runs (bind e) M p e' p') (hp : p.forest.Closed)
    (hrange : ∀ r ∈ e.rowRefs, r.node.index < p.forest.size) : e'.Normal M p'.forest := by
  induction e using children_induction generalizing p e' p' with
  | step e ih =>
    rw [bind_eq, Runs.bind_iff] at h
    obtain ⟨e₁, q, hparts, h⟩ := h
    obtain ⟨lasting, head⟩ := Runs.mapChildren_within
      (fun p q => p.forest.Closed → q.forest.Closed ∧ p.forest.Lasting q.forest)
      (fun _ hp => ⟨hp, .refl _⟩)
      (fun h k hp => ⟨(k (h hp).1).1, (h hp).2.trans (k (h hp).1).2⟩)
      (fun _ _ _ _ _ _ hrun hp => bind_lasting hrun hp) hparts
    obtain ⟨closed, lasting⟩ := lasting hp
    -- A part is bound before the parts after it, so what it becomes has to last.
    have parts : ∀ d ∈ e₁.children, d.Normal M q.forest := by
      intro d hd
      obtain ⟨b, -, hb, r, r', hr, hr', hrun⟩ := head.of_mem_children hd
      obtain ⟨hclosed, hr⟩ := hr hp
      refine (ih b hb hrun hclosed fun ref href => ?_).lasting (hr' (bind_lasting hrun hclosed).1).2
      exact Nat.lt_of_lt_of_le (hrange ref (mem_rowRefs_of_child hb href)) hr.size
    unfold bindNode at h
    split at h
    · exact bindMember_normal h closed (parts _ (.head _))
    · next hne =>
      obtain ⟨rfl, rfl⟩ := Runs.pure_iff.1 h
      refine .of_children parts (fun r heq => ?_) fun t name heq => absurd heq (hne t name)
      subst heq
      cases head
      exact Nat.lt_of_lt_of_le (hrange r (mem_rowRefs.2 (self_mem_nodes _))) lasting.size

theorem Expr.Normal.again (h : e.Normal M f) (hq : f.Lasting q.forest) : Runs (bind e) M q e q :=
  Runs.bind_of_members fun ht => h.members ht hq

/-- Binding what has been bound changes neither it nor the state, right away or after anything else has
been bound, or in any other later state in which the nodes last. So it adds no node and does not fail. -/
theorem bind_idempotent (hp : p.forest.Built) (hrange : ∀ r ∈ e.rowRefs, r.node.index < p.forest.size)
    (h : Runs (bind e) M p e' p') :
    Runs (bind e') M p' e' p' ∧
      (∀ d d' q, Runs (bind d) M p' d' q → Runs (bind e') M q e' q) ∧
      ∀ q, p'.forest.Lasting q.forest → Runs (bind e') M q e' q := by
  have normal := bind_normal h hp.closed hrange
  have closed := (bind_lasting h hp.closed).1
  exact ⟨normal.again (.refl _), fun d d' q hd => normal.again (bind_lasting hd closed).2,
    fun q hq => normal.again hq⟩

end Normality

namespace Shop

/-- The rows of all orders. -/
def allOrders : Progress := { forest := (Forest.empty.addSource (some "Order") false).2 }

/-- Who has referred the buyer of an order, read through a record, and how many orders the buyer has. -/
def buyerSummary : Expr :=
  let buyer := Expr.member (allOrders.forest.ref ⟨0⟩) "Buyer"
  .record [("ReferredBy", .member (.member (.member (.record [("Buyer", buyer)]) "Buyer") "Referrer") "Name"),
    ("Orders", .member (.member buyer "Orders") "Count")]

end Shop

/-- Three nodes are added at first, and then none. -/
theorem bind_buyerSummary : ∃ e p, Runs (bind Shop.buyerSummary) ⟨Shop.catalog, {}⟩ Shop.allOrders e p ∧
    p.tally.nodesBound = 3 ∧ Runs (bind e) ⟨Shop.catalog, {}⟩ p e p := by
  have computed : (bind Shop.buyerSummary ⟨Shop.catalog, {}⟩ Shop.allOrders).toOption.any
      (fun (_, p) => p.tally.nodesBound = 3) = true := by
    decide +kernel
  obtain ⟨⟨e, p⟩, h, count⟩ := Except.exists_of_any computed
  exact ⟨e, p, h, of_decide_eq_true count, (bind_idempotent (.addSource .empty _ _) (by decide +kernel) h).1⟩

end EntityQuery
