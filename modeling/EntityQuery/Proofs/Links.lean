import EntityQuery.Proofs.Development
import EntityQuery.Proofs.OpenForests

/-!
# Links of a forest

Every node below another one is reached by a declared navigation of that node's entity, or it is a field
of a record (`Forest.Link`). What a node is reached by, and the entity of its rows, never changes
(`Forest.Keeps`). Each step of an expansion, whatever the query, leaves a linked forest linked and keeps
what it says of its nodes (`Forest.Onward`).
-/

namespace EntityQuery

/-- The two nodes hang in the tree alike and stand for rows of the same entity. -/
structure Node.Stays (x y : Node) : Prop where
  source : y.source = x.source
  parent : y.parent = x.parent
  edge : y.edge = x.edge
  entity : y.entity = x.entity
  field : y.field = x.field

namespace Node.Stays

variable {x y z : Node}

theorem refl (x : Node) : x.Stays x := ⟨rfl, rfl, rfl, rfl, rfl⟩

theorem trans (h : x.Stays y) (k : y.Stays z) : x.Stays z :=
  ⟨k.source.trans h.source, k.parent.trans h.parent, k.edge.trans h.edge, k.entity.trans h.entity,
    k.field.trans h.field⟩

theorem isCollection (h : x.Stays y) : y.isCollection = x.isCollection := by
  rw [Node.isCollection, Node.isCollection, h.edge]

end Node.Stays

theorem Node.not_isCollection {x : Node} (h : x.edge = none) : x.isCollection = false := by
  rw [Node.isCollection, h, Option.any_none]

namespace Forest

/-- How a node hangs below another one. -/
inductive Link (c : Catalog) (parent child : Node) : Prop where
  | navigation {owner : String} {edge : NavigationEdge} (owner_eq : parent.entity = some owner)
    (single : parent.isCollection = false) (declared : c.navigation? owner edge.name = some edge)
    (edge_eq : child.edge = some edge) (target : child.entity = some edge.target)
    (plain : child.field = none)
  | field (record : parent.entity = none) (noEdge : child.edge = none)

/-- All nodes hang below their parents as they should. -/
structure Linked (c : Catalog) (f : Forest) : Prop where
  children : ∀ {n k}, k ∈ (f.node n).children → k.index < f.size ∧ (f.node k).parent = some n
  link : ∀ {n q}, (f.node n).parent = some q → q.index < n.index ∧ Link c (f.node q) (f.node n)
  /-- No root is beyond the last node, not even that of a source that is not there. -/
  root : ∀ m, (f.root m).index ≤ f.size - 1

/-- The second forest has the nodes of the first, and they are what they were. -/
structure Keeps (f g : Forest) : Prop where
  size : f.size ≤ g.size
  node : ∀ {n}, n.index < f.size → (f.node n).Stays (g.node n)

/-- What a linked forest becomes is linked and keeps its nodes. -/
def Onward (c : Catalog) (f g : Forest) : Prop := f.Linked c → g.Linked c ∧ f.Keeps g

variable {c : Catalog} {f g h : Forest} {n k q : NodeId}

theorem Link.stays {x x' y y' : Node} (h : Link c x y) (hx : x.Stays x') (hy : y.Stays y') :
    Link c x' y' := by
  cases h with
  | navigation owner single declared edge target plain =>
    exact .navigation (hx.entity.trans owner) (hx.isCollection.trans single) declared
      (hy.edge.trans edge) (hy.entity.trans target) (hy.field.trans plain)
  | field record noEdge => exact .field (hx.entity.trans record) (hy.edge.trans noEdge)

namespace Keeps

theorem refl (f : Forest) : f.Keeps f := ⟨Nat.le_refl _, fun _ => .refl _⟩

theorem trans (hf : f.Keeps g) (hg : g.Keeps h) : f.Keeps h where
  size := Nat.le_trans hf.size hg.size
  node hn := (hf.node hn).trans (hg.node (Nat.lt_of_lt_of_le hn hf.size))

/-- A node that is said to have something is there. -/
theorem range_of_entity {entity : String} (h : (f.node n).entity = some entity) :
    n.index < f.size := by
  refine Nat.lt_of_not_le fun hle => ?_
  rw [node_of_size_le hle] at h
  cases h

theorem entity (h : f.Keeps g) {entity : String} (hn : (f.node n).entity = some entity) :
    (g.node n).entity = some entity :=
  (h.node (range_of_entity hn)).entity.trans hn

theorem isCollection (h : f.Keeps g) (hn : (f.node n).isCollection = true) :
    (g.node n).isCollection = true := by
  have range : n.index < f.size := by
    refine Nat.lt_of_not_le fun hle => ?_
    rw [node_of_size_le hle] at hn
    cases hn
  exact (h.node range).isCollection.trans hn

end Keeps

/-- What leads to a node is a navigation that the catalog declares for the entity of its parent. -/
theorem Linked.declared (h : f.Linked c) {edge : NavigationEdge} (hedge : (f.node n).edge = some edge)
    (hq : (f.node n).parent = some q) : ∃ owner, (f.node q).entity = some owner ∧
      c.navigation? owner edge.name = some edge := by
  cases (h.link hq).2 with
  | navigation owner _ declared edge_eq =>
    obtain rfl := Option.some.inj (edge_eq.symm.trans hedge)
    exact ⟨_, owner, declared⟩
  | field _ noEdge =>
    rw [noEdge] at hedge
    cases hedge

/-- There is nothing to link at first. -/
theorem empty_linked (c : Catalog) : Forest.empty.Linked c := by
  have node (n : NodeId) : Forest.empty.node n = default := node_of_size_le (Nat.zero_le _)
  refine ⟨fun {n k} hk => ?_, fun {n q} hq => ?_, fun m => Nat.zero_le _⟩
  · rw [node] at hk
    exact absurd hk List.not_mem_nil
  · rw [node] at hq
    cases hq

namespace Onward

theorem refl (f : Forest) : f.Onward c f := fun hf => ⟨hf, .refl f⟩

theorem trans (hfg : f.Onward c g) (hgh : g.Onward c h) : f.Onward c h := by
  intro hf
  obtain ⟨hg, keeps⟩ := hfg hf
  obtain ⟨hh, keeps'⟩ := hgh hg
  exact ⟨hh, keeps.trans keeps'⟩

theorem of_eq (h : g = f) : f.Onward c g := by
  subst h
  exact refl g

theorem foldl {α : Type} {change : Forest → α → Forest}
    (h : ∀ (f : Forest) (a : α), f.Onward c (change f a))
    (l : List α) (f : Forest) : f.Onward c (l.foldl change f) := by
  induction l generalizing f with
  | nil => exact refl f
  | cons a l ih => exact (h f a).trans (ih _)

end Onward

section Changes

/-- A change of what happens to nodes: none hangs anywhere else for it. -/
theorem onward_of_stays (size : g.size = f.size) (stays : ∀ n, (f.node n).Stays (g.node n))
    (children : ∀ n k, k ∈ (g.node n).children → k ∈ (f.node n).children)
    (root : ∀ m, g.root m = f.root m) : f.Onward c g := by
  refine fun hf => ⟨⟨fun {n k} hk => ?_, fun {n q} hq => ?_, fun m => ?_⟩, Nat.le_of_eq size.symm,
    fun _ => stays _⟩
  · obtain ⟨hrange, hparent⟩ := hf.children (children n k hk)
    exact ⟨size ▸ hrange, (stays k).parent.trans hparent⟩
  · obtain ⟨older, link⟩ := hf.link ((stays n).parent.symm.trans hq)
    exact ⟨older, link.stays (stays q) (stays n)⟩
  · rw [root, size]
    exact hf.root m

theorem onward_modifyNode (n : NodeId) {change : Node → Node} (stays : ∀ x : Node, x.Stays (change x))
    (children : ∀ x k, k ∈ (change x).children → k ∈ x.children) :
    f.Onward c (f.modifyNode n change) := by
  refine onward_of_stays size_modifyNode (modifyNode_related .refl stays f n) ?_ fun _ => rfl
  exact modifyNode_related (R := fun x y => ∀ k ∈ y.children, k ∈ x.children) (fun _ _ => id) children f n

theorem onward_addAlias (n : NodeId) (path : List String) : f.Onward c (f.addAlias n path) := by
  refine onward_modifyNode n (fun x => ?_) fun x k hk => ?_
  · split <;> exact ⟨rfl, rfl, rfl, rfl, rfl⟩
  · split at hk <;> exact hk

theorem onward_makePresent (n : NodeId) (place : List String) : f.Onward c (f.makePresent n place) :=
  onward_modifyNode n (fun _ => ⟨rfl, rfl, rfl, rfl, rfl⟩) fun _ _ => id

theorem onward_wrap (path : List String) (m : SourceId) : f.Onward c (f.wrap path m) :=
  onward_of_stays rfl (fun _ => .refl _) (fun _ _ => id) fun k => (later_wrap f path m).root k

theorem onward_remove (n : NodeId) : f.Onward c (f.remove n) := by
  refine remove_induction n (.refl f) (fun hg => hg.trans ?_) fun hg => hg.trans ?_
  · exact onward_modifyNode _ (fun _ => ⟨rfl, rfl, rfl, rfl, rfl⟩) fun _ _ hk => (List.mem_filter.1 hk).1
  · exact onward_modifyNode _ (fun _ => ⟨rfl, rfl, rfl, rfl, rfl⟩) fun _ _ => id

theorem onward_makeOptional (m : SourceId) : f.Onward c (f.makeOptional m) := by
  refine onward_of_stays (List.length_map ..) (fun n => ?_) (fun n k hk => ?_) fun _ => rfl
  · rcases f.node_makeOptional m n with h | h <;> rw [h] <;> exact ⟨rfl, rfl, rfl, rfl, rfl⟩
  · rcases f.node_makeOptional m n with h | h <;> rw [h] at hk <;> exact hk

theorem onward_merged (outer inner : List SourceId) (kind : JoinKind) :
    f.Onward c (f.merged outer inner kind) := by
  refine (Onward.foldl (fun f m => onward_wrap kind.wrapPath m) outer f).trans
    (Onward.foldl (fun f m => ?_) inner _)
  split
  · exact (onward_wrap _ m).trans (onward_makeOptional m)
  · exact onward_wrap _ m

end Changes

section Additions

variable {x : Node}

theorem Added.keeps (h : Added f g x) : f.Keeps g where
  size := h.grows.size
  node hn := by
    rcases h.old hn with heq | ⟨-, heq⟩ <;> rw [heq] <;> exact ⟨rfl, rfl, rfl, rfl, rfl⟩

/-- A new node hangs below its parent as it should. -/
theorem Added.onward (h : Added f g x) (leaf : x.children = [])
    (link : ∀ q, x.parent = some q → q.index < f.size ∧ Link c (f.node q) x)
    (root : ∀ m, g.root m = f.root m ∨ (g.root m).index = f.size) : f.Onward c g := by
  intro hf
  have keeps := h.keeps
  refine ⟨⟨fun {n k} hk => ?_, fun {n q} hq => ?_, fun m => ?_⟩, keeps⟩
  · have old {n : NodeId} (hk : k ∈ (f.node n).children) :
        k.index < g.size ∧ (g.node k).parent = some n := by
      obtain ⟨hrange, hparent⟩ := hf.children hk
      exact ⟨Nat.lt_of_lt_of_le hrange keeps.size, (keeps.node hrange).parent.trans hparent⟩
    rcases h.cases n with hn | rfl | ⟨-, hn⟩
    · rcases h.old hn with heq | ⟨hparent, heq⟩ <;> rw [heq] at hk
      · exact old hk
      · rcases List.mem_append.1 hk with hk | hk
        · exact old hk
        · obtain rfl := List.mem_singleton.1 hk
          exact ⟨h.size ▸ Nat.lt_succ_self _, h.new ▸ hparent⟩
    · rw [h.new, leaf] at hk
      cases hk
    · rw [hn] at hk
      cases hk
  · rcases h.cases n with hn | rfl | ⟨-, hn⟩
    · obtain ⟨older, hlink⟩ := hf.link ((keeps.node hn).parent.symm.trans hq)
      exact ⟨older, hlink.stays (keeps.node (Nat.lt_trans older hn)) (keeps.node hn)⟩
    · rw [h.new] at hq ⊢
      obtain ⟨hrange, hlink⟩ := link q hq
      exact ⟨hrange, hlink.stays (keeps.node hrange) (.refl x)⟩
    · rw [hn] at hq
      cases hq
  · have := hf.root m
    rw [h.size]
    rcases root m with heq | heq <;> rw [heq] <;> omega

/-- The child that a navigation leads to, new or not, stands for rows of the navigation's target. -/
theorem follow_onward {entity : String} {edge : NavigationEdge} (hf : f.Linked c)
    (hq : (f.node q).entity = some entity) (hs : (f.node q).isCollection = false)
    (hedge : c.navigation? entity edge.name = some edge) (h : f.follow q edge = (k, g)) :
    g.Linked c ∧ f.Keeps g ∧ (g.node k).edge = some edge ∧ (g.node k).entity = some edge.target := by
  have hrange := Keeps.range_of_entity hq
  rcases follow_cases hrange h with ⟨hchild, rfl⟩ | ⟨-, rfl, rfl, added⟩
  · refine ⟨hf, .refl _, ?_⟩
    have hk := (hf.children (List.mem_of_find?_eq_some hchild)).2
    cases (hf.link hk).2 with
    | field record => simp [hq] at record
    | @navigation owner edge' howner _ hedge' he target =>
      obtain rfl : entity = owner := Option.some.inj (hq.symm.trans howner)
      have hname : edge'.name = edge.name := by
        simpa [Node.step?, he] using List.find?_some hchild
      obtain rfl : edge = edge' := by
        rw [hname, hedge] at hedge'
        exact Option.some.inj hedge'
      exact ⟨he, target⟩
  · have hsources : (f.addNode (f.target q edge)).2.sources = f.sources :=
      (added_addNode fun _ hq' => by cases hq'; exact hrange).2.1
    have onward : f.Onward c (f.addNode (f.target q edge)).2 := by
      refine added.onward rfl ?_ fun m => .inl (by rw [root, root, source, source, hsources])
      rintro _ ⟨⟩
      exact ⟨hrange, .navigation hq hs hedge rfl rfl rfl⟩
    obtain ⟨linked, keeps⟩ := onward hf
    refine ⟨linked, keeps, ?_⟩
    rw [added.new]
    exact ⟨rfl, rfl⟩

/-- The child that a navigation leads to hangs below the node. -/
theorem Linked.parent_follow {edge : NavigationEdge} (hf : f.Linked c)
    (hq : q.index < f.size) : ((f.follow q edge).2.node (f.follow q edge).1).parent = some q := by
  rcases follow_cases hq (Prod.eta _).symm with ⟨hchild, hg⟩ | ⟨-, hk, -, added⟩
  · rw [hg]
    exact (hf.children (List.mem_of_find?_eq_some hchild)).2
  · rw [hk, added.new]
    rfl

/-- A row of an entity has no fields besides what the entity declares. -/
theorem Linked.fieldless {entity : String} (hf : f.Linked c) (hn : (f.node n).entity = some entity)
    (name : String) : (f.child? n name).filter (fun c => (f.node c).field.isSome) = none := by
  refine Option.filter_eq_none_iff.2 fun k hk => ?_
  obtain ⟨-, hparent⟩ := hf.children (List.mem_of_find?_eq_some hk)
  cases (hf.link hparent).2 with
  | navigation _ _ _ _ _ plain => simp [plain]
  | field record _ =>
    rw [hn] at record
    cases record

/-- The root of a new source stands for the rows of the source. -/
theorem addSource_onward {entity? : Option String} {isOptional : Bool} {m : SourceId}
    (h : f.addSource entity? isOptional = (m, g)) : f.Onward c g ∧ (g.root m).index < g.size ∧
      (g.node (g.root m)).entity = entity? ∧ (g.node (g.root m)).edge = none := by
  have added := added_addSource f entity? isOptional
  have source (m : SourceId) := source_addSource f entity? isOptional m
  obtain ⟨rfl, rfl⟩ : (⟨f.sources.length⟩ : SourceId) = m ∧ (f.addSource entity? isOptional).2 = g :=
    ⟨congrArg Prod.fst h, congrArg Prod.snd h⟩
  have hroot : (f.addSource entity? isOptional).2.root ⟨f.sources.length⟩ = ⟨f.size⟩ :=
    congrArg RowSource.root ((source _).trans (if_pos rfl))
  rw [hroot, added.new, added.size]
  refine ⟨added.onward rfl (fun _ hq => by cases hq) fun m => ?_, Nat.lt_succ_self _, rfl, rfl⟩
  rcases Nat.lt_trichotomy m.index f.sources.length with hm | hm | hm
  · exact .inl (added.grows.root hm)
  · right
    obtain rfl : m = ⟨f.sources.length⟩ := congrArg SourceId.mk hm
    rw [hroot]
  · exact .inl (congrArg RowSource.root ((source m).trans (if_neg (Nat.ne_of_gt hm))))

/-- A record's field hangs below the record. -/
theorem addField_onward {field : String} {entity? : Option String} {isOptional : Bool}
    (hq : (f.node q).entity = none) (hrange : q.index < f.size)
    (h : f.addField q field entity? isOptional = (k, g)) :
    f.Onward c g ∧ f.Keeps g ∧ g.sources = f.sources := by
  obtain ⟨-, hsources, added⟩ := added_addNode (f := f) (x := f.fieldNode q field entity? isOptional)
    fun _ hq' => by cases hq'; exact hrange
  obtain rfl : (f.addNode (f.fieldNode q field entity? isOptional)).2 = g := congrArg Prod.snd h
  refine ⟨added.onward rfl ?_ fun m => .inl ?_, added.keeps, hsources⟩
  · rintro _ ⟨⟩
    exact ⟨hrange, .field hq rfl⟩
  · rw [root, root, source, source, hsources]

end Additions

end Forest

open EntityQuery.Expr EntityQuery.Forest

variable {M : Model} {p p' : Progress} {recur : Recur} {e e' : Expr} {s s' : Stream}

/-- The step leaves linked forests linked and keeps what they say of their nodes. -/
def KeepsLinks {α : Type} (M : Model) (x : Expansion α) : Prop :=
  ∀ {p a p'}, Runs x M p a p' → p.forest.Onward M.catalog p'.forest

section Walks

theorem Forest.onward_withFields {c : Catalog} {f : Forest} {record : NodeId} (fields : List EntityField)
    (hrecord : (f.node record).entity = none) (range : record.index < f.size) :
    f.Onward c (f.withFields record fields) := by
  induction fields generalizing f with
  | nil => exact .refl f
  | cons field fields ih =>
    have added : f.addField record field.name (some field.entity) field.isOptional = (_, _) := rfl
    obtain ⟨onward, keeps, -⟩ := addField_onward (c := c) hrecord range added
    exact onward.trans (ih ((keeps.node range).entity.trans hrecord) (Nat.lt_of_lt_of_le range keeps.size))

/-- No change that an expansion makes breaks a link. -/
theorem onward_development (c : Catalog) : Development c (Onward c) where
  refl := .refl
  trans := .trans
  follow hq single declared hf := by
    obtain ⟨linked, keeps, -⟩ := follow_onward hf hq single declared rfl
    exact ⟨linked, keeps⟩
  addSource _ _ _ := (addSource_onward rfl).1
  withRecord f fields := by
    have added : f.addSource none false = (_, _) := rfl
    obtain ⟨onward, range, record, -⟩ := addSource_onward (c := c) added
    exact onward.trans (onward_withFields fields record range)
  addAlias _ := onward_addAlias
  remove _ := onward_remove
  wrap _ := onward_wrap
  makePresent _ := onward_makePresent
  makeOptional _ := onward_makeOptional

theorem Runs.mapChildren_onward {f : Expr → Expansion Expr}
    (step : ∀ c ∈ e.children, KeepsLinks M (f c)) (h : Runs (e.mapChildren f) M p e' p') :
    p.forest.Onward M.catalog p'.forest := (onward_development _).mapChildren step h

/-- The parts are rewritten one after the other, each in a linked forest that keeps the nodes of the
first. -/
theorem Runs.mapChildren_linked {f : Expr → Expansion Expr}
    (links : ∀ c ∈ e.children, KeepsLinks M (f c)) (hp : p.forest.Linked M.catalog)
    (h : Runs (e.mapChildren f) M p e' p') :
    SameHead (fun c c' => c ∈ e.children ∧ ∃ q q', q.forest.Linked M.catalog ∧
      p.forest.Keeps q.forest ∧ q'.forest.Keeps p'.forest ∧ Runs (f c) M q c' q') e e' := by
  obtain ⟨-, head⟩ := Runs.mapChildren_within (fun p q => p.forest.Onward M.catalog q.forest)
    (fun p => .refl p.forest) .trans (fun c hc _ _ _ _ hrun => links c hc hrun) h
  refine head.mono fun c c' h => ?_
  obtain ⟨hc, q, q', hq, hq', hrun⟩ := h
  obtain ⟨linked, keeps⟩ := hq hp
  exact ⟨hc, q, q', linked, keeps, (hq' (links c hc hrun linked).1).2, hrun⟩

/-- Rewriting an expression keeps what each action on a node keeps. -/
theorem Runs.rewrite_within (le : Progress → Progress → Prop) (refl : ∀ p, le p p)
    (trans : ∀ {p q r}, le p q → le q r → le p r) {act : Expr → Expansion Expr}
    (step : ∀ {e p e' p'}, Runs (act e) M p e' p' → le p p') (h : Runs (e.rewrite act) M p e' p') :
    le p p' := by
  induction e using children_induction generalizing p e' p' with
  | step e ih =>
    rw [rewrite_eq, Runs.bind_iff] at h
    obtain ⟨e₁, q, hparts, h⟩ := h
    exact trans (Runs.mapChildren_within le refl trans (fun c hc _ _ _ _ hrun => ih c hc hrun) hparts).1
      (step h)

theorem rewrite_onward {act : Expr → Expansion Expr} (hact : ∀ e, KeepsLinks M (act e)) (e : Expr) :
    KeepsLinks M (e.rewrite act) := (onward_development _).rewrite hact e

theorem descend_onward {act? : Expr → Option (Expansion Expr)}
    (hact : ∀ e x, act? e = some x → KeepsLinks M x) (e : Expr) : KeepsLinks M (e.descend act?) :=
  (onward_development _).descend hact e

/-- What the actions of a descent do to an expression, and what it takes over from its parts elsewhere, is
done by the descent. The actions may rely on what is said of the nodes of a forest at first. -/
theorem Runs.descend_linked {R : Expr → Expr → Prop} {act? : Expr → Option (Expansion Expr)}
    (links : ∀ e x, act? e = some x → KeepsLinks M x)
    {f : Forest} (hact : ∀ {e x p e' p'}, act? e = some x → p.forest.Linked M.catalog → f.Keeps p.forest →
      Runs x M p e' p' → R e e')
    (parts : ∀ {e e'}, act? e = none → SameHead R e e' → R e e') (hp : p.forest.Linked M.catalog)
    (hf : f.Keeps p.forest) (h : Runs (e.descend act?) M p e' p') : R e e' := by
  induction e using children_induction generalizing p e' p' with
  | step e ih =>
    rw [descend_eq] at h
    cases hat : act? e with
    | some x =>
      rw [hat] at h
      exact hact hat hp hf h
    | none =>
      rw [hat] at h
      refine parts hat ((Runs.mapChildren_linked (fun c _ => descend_onward links c) hp h).mono ?_)
      rintro c c' ⟨hc, q, q', linked, keeps, -, hrun⟩
      exact ih c hc linked (hf.trans keeps) hrun

/-- A relation between an expression over one forest and what is made of it over a later one. -/
structure Passing (R : Forest → Forest → Expr → Expr → Prop) : Prop where
  refl {f g : Forest} (keeps : f.Keeps g) (e : Expr) : R f g e e
  trans {f g h : Forest} {e d e' : Expr} (hd : R f g e d) (he' : R g h d e') : R f h e e'

namespace Passing

variable {R : Forest → Forest → Expr → Expr → Prop} (hR : Passing R)

include hR

/-- What is done to the parts, one after the other, is done between the forests around them. -/
theorem mapChildren {act : Expr → Expansion Expr} (links : ∀ c ∈ e.children, KeepsLinks M (act c))
    (hp : p.forest.Linked M.catalog)
    (step : ∀ c ∈ e.children, ∀ {q c' q'}, q.forest.Linked M.catalog → p.forest.Keeps q.forest →
      Runs (act c) M q c' q' → R q.forest q'.forest c c')
    (h : Runs (e.mapChildren act) M p e' p') : SameHead (R p.forest p'.forest) e e' := by
  refine (Runs.mapChildren_linked links hp h).mono ?_
  rintro c c' ⟨hc, q, q', linked, before, after, hrun⟩
  exact hR.trans (hR.refl before c) (hR.trans (step c hc linked before hrun) (hR.refl after c'))

/-- Rewriting from the leaves upwards is passing if rewriting a node is. -/
theorem rewrite {act : Expr → Expansion Expr} (links : ∀ e, KeepsLinks M (act e))
    (parts : ∀ {f g e e'}, f.Keeps g → SameHead (R f g) e e' → R f g e e')
    (step : ∀ {e p e' p'}, p.forest.Linked M.catalog → Runs (act e) M p e' p' →
      R p.forest p'.forest e e')
    (hp : p.forest.Linked M.catalog) (h : Runs (e.rewrite act) M p e' p') : R p.forest p'.forest e e' := by
  induction e using children_induction generalizing p e' p' with
  | step e ih =>
    rw [rewrite_eq, Runs.bind_iff] at h
    obtain ⟨d, q, hparts, hnode⟩ := h
    have links (c : Expr) (_ : c ∈ e.children) : KeepsLinks M (c.rewrite act) := rewrite_onward links c
    obtain ⟨linked, keeps⟩ := Runs.mapChildren_onward links hparts hp
    exact hR.trans (parts keeps (hR.mapChildren links hp (fun c hc _ _ _ hq _ hrun => ih c hc hq hrun) hparts))
      (step linked hnode)

/-- A descent is passing if its actions are. They may rely on what is said of the nodes of a forest at
first. -/
theorem descend {act? : Expr → Option (Expansion Expr)} (links : ∀ e x, act? e = some x → KeepsLinks M x)
    {f : Forest} (hact : ∀ {e x p e' p'}, act? e = some x → p.forest.Linked M.catalog → f.Keeps p.forest →
      Runs x M p e' p' → R p.forest p'.forest e e')
    (parts : ∀ {g h e e'}, act? e = none → g.Keeps h → SameHead (R g h) e e' → R g h e e')
    (hp : p.forest.Linked M.catalog) (hf : f.Keeps p.forest) (h : Runs (e.descend act?) M p e' p') :
    R p.forest p'.forest e e' := by
  induction e using children_induction generalizing p e' p' with
  | step e ih =>
    have within (c : Expr) (_ : c ∈ e.children) : KeepsLinks M (c.descend act?) := descend_onward links c
    have keeps := (descend_onward links e h hp).2
    rw [descend_eq] at h
    cases hat : act? e with
    | some x =>
      rw [hat] at h
      exact hact hat hp hf h
    | none =>
      rw [hat] at h
      exact parts hat keeps (hR.mapChildren within hp
        (fun c hc _ _ _ hq before hrun => ih c hc hq (hf.trans before) hrun) h)

end Passing

end Walks

section Rewriting

variable {r : RowRef} {name : String}

theorem bindMember_onward (target : Expr) (name : String) : KeepsLinks M (bindMember target name) :=
  (onward_development _).bindMember target name

theorem bind_onward (e : Expr) : KeepsLinks M (bind e) := (onward_development _).bind e

theorem compareSides_onward (op : BinaryOp) (a b : Expr) : KeepsLinks M (compareSides op a b) :=
  (onward_development _).compareSides op a b

theorem compareByKeys_onward (e : Expr) : KeepsLinks M (compareByKeys e) :=
  (onward_development _).compareByKeys e

theorem collectionFilter_onward (r : RowRef) : KeepsLinks M (collectionFilter r) :=
  (onward_development _).collectionFilter r

theorem collectionAt_onward {f : Forest} {x : Expansion Expr} (hat : collectionAt f e = some x) :
    KeepsLinks M x := (onward_development _).collectionAt hat

theorem collections_onward (f : Forest) (e : Expr) : KeepsLinks M (e.descend (collectionAt f)) :=
  descend_onward (fun _ _ hat => collectionAt_onward hat) e

theorem rewriteBody_onward (e : Expr) : KeepsLinks M (rewriteBody e) := (onward_development _).rewriteBody e

/-- A body is bound, compared by keys and has its collections filtered, each over a linked forest. -/
theorem Runs.rewriteBody (h : Runs (EntityQuery.rewriteBody e) M p e' p') (hp : p.forest.Linked M.catalog) :
    ∃ e₁ q e₂ q', Runs (bind e) M p e₁ q ∧ q.forest.Linked M.catalog ∧ Runs (compareByKeys e₁) M q e₂ q' ∧
      q'.forest.Linked M.catalog ∧ Runs (filterCollections e₂) M q' e' p' := by
  simp only [EntityQuery.rewriteBody, Runs.bind_iff] at h
  obtain ⟨e₁, q, hbind, e₂, q', hcompare, hfilter⟩ := h
  have hq := (bind_onward e hbind hp).1
  exact ⟨e₁, q, e₂, q', hbind, hq, hcompare, (compareByKeys_onward e₁ hcompare hq).1, hfilter⟩

section Recursion

variable (hrec : ∀ e, KeepsLinks M (recur e))

include hrec

theorem subqueryAt_onward {x : Expansion Expr} (hat : subqueryAt recur e = some x) : KeepsLinks M x :=
  (onward_development _).subqueryAt hrec hat

theorem expandSubqueries_onward (e : Expr) : KeepsLinks M (expandSubqueries recur e) :=
  (onward_development _).expandSubqueries hrec e

theorem prepareBody_onward (e : Expr) : KeepsLinks M (prepareBody recur e) :=
  (onward_development _).prepareBody hrec e

end Recursion

end Rewriting

section Streams

variable {x : String} {body : Expr} {b : JoinedBody} {es : List Expr} {k : Nat}

theorem joinNode_onward {n : NodeId} (h : Runs (joinNode s n) M p s' p') :
    p.forest.Onward M.catalog p'.forest := (onward_development _).joinNode h

theorem joinReferenced_onward (h : Runs (joinReferenced s es) M p (s', k) p') :
    p.forest.Onward M.catalog p'.forest := (onward_development _).joinReferenced h

theorem joinBody_onward (hrec : ∀ e, KeepsLinks M (recur e))
    (h : Runs (joinBody recur s x body) M p b p') : p.forest.Onward M.catalog p'.forest :=
  (onward_development _).joinBody hrec h

theorem resolvedBody_onward (hrec : ∀ e, KeepsLinks M (recur e))
    (h : Runs (resolvedBody recur s x body) M p b p') : p.forest.Onward M.catalog p'.forest :=
  (onward_development _).resolvedBody hrec h

theorem expandSource_onward (hrec : ∀ e, KeepsLinks M (recur e)) (e : Expr) :
    KeepsLinks M (expandSource recur e) := Development.expandSource hrec e

theorem Brought.onward (hrec : ∀ e, KeepsLinks M (recur e)) {source lambda : Expr}
    (h : Brought recur M p source lambda b p') : p.forest.Onward M.catalog p'.forest :=
  (onward_development _).brought hrec h

theorem aliasFields_onward (e : Expr) : KeepsLinks M (aliasFields e) := (onward_development _).aliasFields e

theorem rootStream_onward (entity : String) : KeepsLinks M (rootStream entity) :=
  (onward_development _).rootStream entity

/-- A source for projected rows has rows of the entity that is asked for, or else of the entity that the
selector refers to. -/
theorem projectedSource_onward {selector : Expr} {entity? : Option String} {m : SourceId}
    (h : Runs (projectedSource selector entity?) M p m p') : p.forest.Onward M.catalog p'.forest ∧
      (p'.forest.root m).index < p'.forest.size ∧
      (p'.forest.node (p'.forest.root m)).edge = none ∧
      ∀ r entity, selector = .rowRef r → (p.forest.node r.node).entity = some entity → entity? = none →
        (p'.forest.node (p'.forest.root m)).entity = some entity := by
  simp only [projectedSource, Runs.bind_iff, Runs.forest_iff] at h
  obtain ⟨_, _, ⟨rfl, rfl⟩, h⟩ := h
  split at h
  · obtain ⟨rfl, rfl⟩ := Runs.growForest_iff.1 h
    obtain ⟨onward, range, -, edge⟩ := addSource_onward (c := M.catalog) rfl
    exact ⟨onward, range, edge, fun _ _ _ _ hnone => by simp at hnone⟩
  · next entity hentity =>
    obtain ⟨rfl, rfl⟩ := Runs.growForest_iff.1 h
    obtain ⟨onward, range, source, edge⟩ := addSource_onward (c := M.catalog) rfl
    refine ⟨onward, range, edge, ?_⟩
    rintro r entity' rfl hr -
    obtain rfl := Option.some.inj (hr.symm.trans (by simpa using hentity))
    exact source
  · next hentity =>
    simp only [Runs.bind_iff, Runs.growForest_iff, Runs.forest_iff, Runs.pure_iff] at h
    obtain ⟨m, _, ⟨rfl, rfl⟩, _, _, ⟨rfl, rfl⟩, _, q, hfields, rfl, rfl⟩ := h
    let f := (p.forest.addSource none false).2
    let m := (p.forest.addSource none false).1
    obtain ⟨onward, range, record, edge⟩ :=
      addSource_onward (c := M.catalog) (show p.forest.addSource none false = (m, f) from rfl)
    -- The fields are all added below the root, which stays where it is.
    obtain ⟨onward, keeps, hsources⟩ := Runs.forM_keeps
      (P := fun q => p.forest.Onward M.catalog q.forest ∧ f.Keeps q.forest ∧ q.forest.sources = f.sources)
      (fun field {q u q'} hq hrun => by
        obtain ⟨onward, keeps, hsources⟩ := hq
        simp only [Runs.bind_iff, Runs.growForest_iff, Runs.pure_iff] at hrun
        obtain ⟨_, _, ⟨rfl, rfl⟩, -, rfl⟩ := hrun
        obtain ⟨onward', keeps', hsources'⟩ := addField_onward (c := M.catalog)
          ((keeps.node range).entity.trans record) (Nat.lt_of_lt_of_le range keeps.size) rfl
        exact ⟨onward.trans onward', keeps.trans keeps', hsources'.trans hsources⟩)
      hfields ⟨onward, .refl f, rfl⟩
    have hroot : q.forest.root m = f.root m := by rw [root, root, source, source, hsources]
    rw [hroot]
    refine ⟨onward, Nat.lt_of_lt_of_le range keeps.size, (keeps.node range).edge.trans edge, ?_⟩
    rintro r entity rfl hr -
    simp [hr] at hentity

theorem materialize_onward {entity? : Option String} (h : Runs (materialize s entity?) M p s' p') :
    p.forest.Onward M.catalog p'.forest := (onward_development _).materialize h

end Streams

section Operators

variable {outer inner : Stream} {m : MergedStreams} {plan : HoistPlan} {collection : Expr}

theorem mergeStreams_keyed_onward {outerKey innerKey : Expr} {note : JoinNote}
    (h : Runs (mergeStreams outer inner (.keyed outerKey innerKey note)) M p m p') :
    p.forest.Onward M.catalog p'.forest := (onward_development _).mergeStreams_keyed h

theorem mergeStreams_correlated_onward (h : Runs (mergeStreams outer inner .correlated) M p m p') :
    p.forest.Onward M.catalog p'.forest := (onward_development _).mergeStreams_correlated h

theorem expandHoisted_onward (hrec : ∀ e, KeepsLinks M (recur e)) (plan : HoistPlan) :
    KeepsLinks M (expandHoisted recur plan) := (onward_development _).expandHoisted hrec plan

theorem hoist_onward (h : Runs (hoist outer inner plan) M p m p') :
    p.forest.Onward M.catalog p'.forest := (onward_development _).hoist h

theorem correlate_onward (hrec : ∀ e, KeepsLinks M (recur e))
    (h : Runs (correlate recur outer collection) M p m p') : p.forest.Onward M.catalog p'.forest :=
  (onward_development _).correlate hrec h

/-- However a collection is merged with the rows that it belongs to, a linked forest stays linked. -/
theorem merged_onward (hrec : ∀ e, KeepsLinks M (recur e)) (hp : p.forest.Linked M.catalog)
    (h : Runs (correlate recur outer collection) M q m p' ∧
        (q = p ∨ ∃ plan, HoistPlan.ofSelector collection = .ok plan ∧ Runs (expandHoisted recur plan) M p none q) ∨
      ∃ plan inner, HoistPlan.ofSelector collection = .ok plan ∧
        Runs (expandHoisted recur plan) M p (some inner) q ∧ Runs (hoist outer inner plan) M q m p') :
    q.forest.Linked M.catalog ∧ p.forest.Keeps q.forest ∧ p'.forest.Linked M.catalog ∧
      q.forest.Keeps p'.forest := by
  rcases h with ⟨hcorrelate, rfl | ⟨plan, -, hhoisted⟩⟩ | ⟨plan, inner, -, hhoisted, hhoist⟩
  · exact ⟨hp, .refl _, correlate_onward hrec hcorrelate hp⟩
  · obtain ⟨hq, keeps⟩ := expandHoisted_onward hrec plan hhoisted hp
    exact ⟨hq, keeps, correlate_onward hrec hcorrelate hq⟩
  · obtain ⟨hq, keeps⟩ := expandHoisted_onward hrec plan hhoisted hp
    exact ⟨hq, keeps, hoist_onward hhoist hq⟩

/-- Whatever the query, expanding it leaves a linked forest linked and keeps its nodes. -/
theorem expandWithin_onward (n : Nat) (e : Expr) : KeepsLinks M (expandWithin n e) :=
  (onward_development _).expandWithin n e

end Operators

end EntityQuery
