import EntityQuery.Forest.Basic
import EntityQuery.Proofs.Catalogs

/-!
# Forests of rows

`Forest.Sound` is the invariant of the forests that an expansion works on: every node below a root
is reached by a navigation of its parent's entity, collections are leaves that no row holds, and
only collections are ever removed. What a forest says of its nodes once, it says for good
(`Forest.Grows`); where their rows are can change, and `SamePaths` says for which sources it does
not.
-/

namespace EntityQuery

/-- The two nodes are the same apart from what happens to a node later. -/
structure Node.Same (x y : Node) : Prop where
  source : y.source = x.source
  parent : y.parent = x.parent
  edge : y.edge = x.edge
  entity : y.entity = x.entity
  field : y.field = x.field
  isOptional : y.isOptional = x.isOptional

namespace Node.Same

variable {x y z : Node}

theorem refl (x : Node) : x.Same x := ⟨rfl, rfl, rfl, rfl, rfl, rfl⟩

theorem trans (h : x.Same y) (k : y.Same z) : x.Same z :=
  ⟨k.source.trans h.source, k.parent.trans h.parent, k.edge.trans h.edge, k.entity.trans h.entity,
    k.field.trans h.field, k.isOptional.trans h.isOptional⟩

theorem isCollection (h : x.Same y) : y.isCollection = x.isCollection := by
  rw [Node.isCollection, Node.isCollection, h.edge]

theorem step? (h : x.Same y) : y.step? = x.step? := by
  rw [Node.step?, Node.step?, h.edge, h.field]

end Node.Same

namespace Forest

/-- What a node that is not a root is to its parent. -/
structure Below (c : Catalog) (f : Forest) (n q : NodeId) : Prop where
  older : q.index < n.index
  source : (f.node q).source = (f.node n).source
  single : (f.node q).isCollection = false
  edge : ∃ owner edge, (f.node q).entity = some owner ∧ c.navigation? owner edge.name = some edge ∧
    (f.node n).edge = some edge ∧ (f.node n).entity = some edge.target ∧
    ((f.node n).isOptional = false → (f.node q).isOptional = false ∧ edge.isOptional = false)

/-- The root of a source. -/
structure IsRoot (f : Forest) (m : SourceId) (n : NodeId) : Prop where
  range : n.index < f.size
  source : (f.node n).source = m
  parent : (f.node n).parent = none
  isPresent : (f.node n).isPresent = true

/-- The invariant of the forests of an expansion over a catalog. -/
structure Sound (c : Catalog) (f : Forest) : Prop where
  source : ∀ {n}, n.index < f.size → (f.node n).source.index < f.sources.length
  field : ∀ n, (f.node n).field = none
  top : ∀ {n}, n.index < f.size → (f.node n).parent = none →
    (f.node n).edge = none ∧ (f.node n).entity = (f.source (f.node n).source).entity
  below : ∀ {n q}, (f.node n).parent = some q → f.Below c n q
  children : ∀ {n k}, k ∈ (f.node n).children → k.index < f.size ∧ (f.node k).parent = some n
  collection : ∀ {n}, (f.node n).isCollection = true →
    (f.node n).children = [] ∧ (f.node n).isPresent = false
  removed : ∀ {n}, (f.node n).isRemoved = true → (f.node n).isCollection = true
  wraps : ∀ n, (f.node n).wrapsBefore ≤ (f.source (f.node n).source).wraps.length
  root : ∀ {m}, m.index < f.sources.length → f.IsRoot m (f.root m)
  entity : ∀ {m}, m.index < f.sources.length →
    ∃ entity t, (f.source m).entity = some entity ∧ c.type? entity = some t

/-- The second forest has all nodes and sources of the first. -/
structure Grows (f g : Forest) : Prop where
  size : f.size ≤ g.size
  sources : f.sources.length ≤ g.sources.length
  node : ∀ {n}, n.index < f.size → (f.node n).Same (g.node n)
  entity : ∀ {m}, m.index < f.sources.length → (g.source m).entity = (f.source m).entity
  root : ∀ {m}, m.index < f.sources.length → g.root m = f.root m

/-- The rows of the sources `P` are where they were. -/
def SamePaths (P : SourceId → Prop) (f g : Forest) : Prop :=
  ∀ n, P (g.node n).source → g.rowPath? n = f.rowPath? n

theorem node_of_size_le {f : Forest} {n : NodeId} (h : f.size ≤ n.index) : f.node n = default := by
  rw [node, List.getD_eq_getElem?_getD, List.getElem?_eq_none h]
  rfl

theorem source_of_length_le {f : Forest} {m : SourceId} (h : f.sources.length ≤ m.index) :
    f.source m = default := by
  rw [source, List.getD_eq_getElem?_getD, List.getElem?_eq_none h]
  rfl

/-- At the end of a list that grew by an element is the new element. -/
theorem getD_concat {α : Type} (l : List α) (x d : α) (i : Nat) :
    (l ++ [x]).getD i d = if i = l.length then x else l.getD i d := by
  simp only [List.getD_eq_getElem?_getD]
  rcases Nat.lt_trichotomy i l.length with h | h | h
  · rw [if_neg (Nat.ne_of_lt h), List.getElem?_append_left h]
  · rw [if_pos h, h, List.getElem?_concat_length, Option.getD_some]
  · rw [if_neg (Nat.ne_of_gt h), List.getElem?_eq_none (Nat.le_of_lt h), List.getElem?_eq_none]
    rwa [List.length_append]

theorem node_concat (f : Forest) (x : Node) (n : NodeId) :
    ({ f with nodes := f.nodes ++ [x] } : Forest).node n = if n.index = f.size then x else f.node n :=
  getD_concat ..

theorem source_concat (f : Forest) (s : RowSource) (m : SourceId) :
    ({ f with sources := f.sources ++ [s] } : Forest).source m =
      if m.index = f.sources.length then s else f.source m :=
  getD_concat ..

theorem rowPath?_of_size_le {f : Forest} {n : NodeId} (h : f.size ≤ n.index) :
    f.rowPath? n = none := by
  simp only [rowPath?, node_of_size_le h]
  rfl

namespace Grows

variable {f g h : Forest}

theorem refl (f : Forest) : f.Grows f :=
  ⟨Nat.le_refl _, Nat.le_refl _, fun _ => .refl _, fun _ => rfl, fun _ => rfl⟩

theorem trans (hf : f.Grows g) (hg : g.Grows h) : f.Grows h where
  size := Nat.le_trans hf.size hg.size
  sources := Nat.le_trans hf.sources hg.sources
  node hn := (hf.node hn).trans (hg.node (Nat.lt_of_lt_of_le hn hf.size))
  entity hm := (hg.entity (Nat.lt_of_lt_of_le hm hf.sources)).trans (hf.entity hm)
  root hm := (hg.root (Nat.lt_of_lt_of_le hm hf.sources)).trans (hf.root hm)

/-- A node stays below its parent. -/
theorem below {c : Catalog} {n q : NodeId} (hf : f.Grows g) (hn : n.index < f.size)
    (hb : f.Below c n q) : g.Below c n q where
  older := hb.older
  source := by
    rw [(hf.node hn).source, (hf.node (Nat.lt_trans hb.older hn)).source, hb.source]
  single := by rw [(hf.node (Nat.lt_trans hb.older hn)).isCollection, hb.single]
  edge := by
    obtain ⟨owner, edge, howner, hedge, he, hentity, hopt⟩ := hb.edge
    have same := hf.node hn
    have sameq := hf.node (Nat.lt_trans hb.older hn)
    refine ⟨owner, edge, sameq.entity.trans howner, hedge, same.edge.trans he,
      same.entity.trans hentity, fun ho => ?_⟩
    rw [sameq.isOptional]
    exact hopt (same.isOptional.symm.trans ho)

end Grows

theorem range_of_parent {f : Forest} {n q : NodeId} (h : (f.node n).parent = some q) :
    n.index < f.size := by
  refine Nat.lt_of_not_le fun hle => ?_
  rw [node_of_size_le hle] at h
  cases h

namespace SamePaths

variable {P Q : SourceId → Prop} {f g h : Forest}

theorem refl (P : SourceId → Prop) (f : Forest) : SamePaths P f f := fun _ _ => rfl

theorem mono (h : SamePaths P f g) (hQ : ∀ m, Q m → P m) : SamePaths Q f g :=
  fun n hn => h n (hQ _ hn)

theorem trans (hf : SamePaths P f g) (hg : SamePaths P g h) (hgrows : g.Grows h)
    (hsize : f.size ≤ g.size) : SamePaths P f h := by
  intro n hn
  rw [hg n hn]
  by_cases hr : n.index < g.size
  · exact hf n ((hgrows.node hr).source ▸ hn)
  · rw [rowPath?_of_size_le (Nat.le_of_not_lt hr),
      rowPath?_of_size_le (Nat.le_trans hsize (Nat.le_of_not_lt hr))]

end SamePaths

section MemberPaths

variable {c : Catalog} {f g : Forest} {n q : NodeId}

theorem lineage_top (h : (f.node n).parent = none) : f.lineage n = [n] := by
  rw [lineage, h]

theorem lineage_child (h : (f.node n).parent = some q) (older : q.index < n.index) :
    f.lineage n = n :: f.lineage q := by
  rw [lineage, h]
  dsimp only
  rw [if_pos older]

theorem memberPath_root (hp : (f.node n).parent = none) (hs : (f.node n).step? = none) :
    f.memberPath n = [] := by
  simp [memberPath, lineage_top hp, hs]

theorem memberPath_child {name : String} (hp : (f.node n).parent = some q) (older : q.index < n.index)
    (hs : (f.node n).step? = some name) : f.memberPath n = f.memberPath q ++ [name] := by
  simp only [memberPath, lineage_child hp older, List.filterMap_cons, hs, List.reverse_cons]

theorem memberPath_top (h : f.Sound c) (hn : n.index < f.size) (hp : (f.node n).parent = none) :
    f.memberPath n = [] := by
  refine memberPath_root hp ?_
  rw [Node.step?, (h.top hn hp).1]
  exact h.field n

theorem memberPath_below (h : f.Below c n q) (hp : (f.node n).parent = some q)
    {edge : NavigationEdge} (he : (f.node n).edge = some edge) :
    f.memberPath n = f.memberPath q ++ [edge.name] :=
  memberPath_child hp h.older (by rw [Node.step?, he])

/-- Nothing changes the members that lead to a node. -/
theorem Grows.memberPath (hf : f.Sound c) (hg : g.Sound c) (h : f.Grows g) (hn : n.index < f.size) :
    g.memberPath n = f.memberPath n := by
  obtain ⟨i⟩ := n
  induction i using Nat.strongRecOn with
  | _ i ih =>
    cases hp : (f.node ⟨i⟩).parent with
    | none =>
      have hp' := (h.node hn).parent.trans hp
      rw [memberPath_top hf hn hp, memberPath_top hg (Nat.lt_of_lt_of_le hn h.size) hp']
    | some q =>
      have hp' := (h.node hn).parent.trans hp
      have below := hf.below hp
      obtain ⟨_, edge, -, -, he, -⟩ := below.edge
      rw [memberPath_below below hp he,
        memberPath_below (hg.below hp') hp' ((h.node hn).edge.trans he),
        ih q.index below.older (Nat.lt_trans below.older hn)]

theorem Grows.ref (hf : f.Sound c) (hg : g.Sound c) (h : f.Grows g) (hn : n.index < f.size) :
    g.ref n = f.ref n := by
  rw [Forest.ref, Forest.ref, h.memberPath hf hg hn, (h.node hn).source]

end MemberPaths

section Changes

variable {f : Forest} {n k : NodeId} {change : Node → Node}

theorem NodeId.index_ne (h : k ≠ n) : n.index ≠ k.index := by
  cases n
  cases k
  exact fun hi => h (congrArg NodeId.mk hi.symm)

@[simp] theorem size_modifyNode : (f.modifyNode n change).size = f.size :=
  List.length_modify ..

theorem node_modifyNode_self (h : n.index < f.size) :
    (f.modifyNode n change).node n = change (f.node n) := by
  simp only [node, modifyNode, List.getD_eq_getElem?_getD, List.getElem?_modify_eq]
  rw [List.getElem?_eq_getElem h]
  rfl

theorem node_modifyNode_ne (h : k ≠ n) : (f.modifyNode n change).node k = f.node k := by
  simp only [node, modifyNode, List.getD_eq_getElem?_getD,
    List.getElem?_modify_ne change f.nodes (NodeId.index_ne h)]

/-- After a change of one node every node is what it was, or it is the changed one. -/
theorem node_modifyNode (f : Forest) (n k : NodeId) (change : Node → Node) :
    (f.modifyNode n change).node k = f.node k ∨
      k = n ∧ n.index < f.size ∧ (f.modifyNode n change).node k = change (f.node n) := by
  by_cases hk : k = n
  · subst hk
    by_cases hn : k.index < f.size
    · exact .inr ⟨rfl, hn, node_modifyNode_self hn⟩
    · left
      rw [node_of_size_le (Nat.le_of_not_lt hn),
        node_of_size_le (by rw [size_modifyNode]; exact Nat.le_of_not_lt hn)]
  · exact .inl (node_modifyNode_ne hk)

/-- What relates every node to itself and to what the change makes of it, relates it to what it becomes. -/
theorem modifyNode_related {R : Node → Node → Prop} (refl : ∀ x, R x x) (h : ∀ x, R x (change x)) (f : Forest)
    (n k : NodeId) : R (f.node k) ((f.modifyNode n change).node k) := by
  rcases f.node_modifyNode n k change with hk | ⟨rfl, -, hk⟩ <;> rw [hk]
  · exact refl _
  · exact h _

/-- At most, a node becomes optional. -/
theorem node_makeOptional (f : Forest) (m : SourceId) (n : NodeId) :
    (f.makeOptional m).node n = f.node n ∨
      (f.makeOptional m).node n = { f.node n with isOptional := true } := by
  simp only [node, makeOptional, List.getD_eq_getElem?_getD, List.getElem?_map]
  cases f.nodes[n.index]? with
  | none => exact .inl rfl
  | some x =>
    simp only [Option.map_some, Option.getD_some]
    split
    · exact .inr rfl
    · exact .inl rfl

end Changes

section Later

variable {c : Catalog} {f g : Forest}

/-- The second forest has the nodes and sources of the first, to which something has happened. -/
structure Later (f g : Forest) : Prop where
  size : g.size = f.size
  sources : g.sources.length = f.sources.length
  node : ∀ n, (f.node n).Same (g.node n)
  entity : ∀ m, (g.source m).entity = (f.source m).entity
  root : ∀ m, g.root m = f.root m
  children : ∀ {n k}, k ∈ (g.node n).children → k ∈ (f.node n).children
  kept : ∀ {n}, (f.node n).isPresent = true → (g.node n).isPresent = true
  joined : ∀ {n}, (g.node n).isPresent = true →
    (f.node n).isPresent = true ∨ (f.node n).isCollection = false
  removed : ∀ {n}, (g.node n).isRemoved = true →
    (f.node n).isRemoved = true ∨ (f.node n).isCollection = true
  wraps : ∀ n, (f.node n).wrapsBefore ≤ (f.source (f.node n).source).wraps.length →
    (g.node n).wrapsBefore ≤ (g.source (g.node n).source).wraps.length

namespace Later

theorem grows (h : f.Later g) : f.Grows g where
  size := Nat.le_of_eq h.size.symm
  sources := Nat.le_of_eq h.sources.symm
  node _ := h.node _
  entity _ := h.entity _
  root _ := h.root _

theorem trans {f' : Forest} (h : f.Later g) (k : g.Later f') : f.Later f' where
  size := k.size.trans h.size
  sources := k.sources.trans h.sources
  node n := (h.node n).trans (k.node n)
  entity m := (k.entity m).trans (h.entity m)
  root m := (k.root m).trans (h.root m)
  children hk := h.children (k.children hk)
  kept hp := k.kept (h.kept hp)
  joined hp := by
    rcases k.joined hp with hp | hp
    · exact h.joined hp
    · exact .inr ((h.node _).isCollection ▸ hp)
  removed hr := by
    rcases k.removed hr with hr | hr
    · exact h.removed hr
    · exact .inr ((h.node _).isCollection ▸ hr)
  wraps n hw := k.wraps n (h.wraps n hw)

/-- What happens to nodes and sources keeps the invariant. -/
theorem sound (h : f.Later g) (hf : f.Sound c) : g.Sound c where
  source hn := by
    rw [(h.node _).source, h.sources]
    exact hf.source (h.size ▸ hn)
  field n := (h.node n).field.trans (hf.field n)
  top hn hp := by
    have := hf.top (h.size ▸ hn) ((h.node _).parent.symm.trans hp)
    rw [(h.node _).edge, (h.node _).entity, (h.node _).source, h.entity]
    exact this
  below hp := by
    have hp := (h.node _).parent.symm.trans hp
    exact h.grows.below (range_of_parent hp) (hf.below hp)
  children hk := by
    rw [h.size, (h.node _).parent]
    exact hf.children (h.children hk)
  collection hc := by
    rw [(h.node _).isCollection] at hc
    obtain ⟨hchildren, hpresent⟩ := hf.collection hc
    refine ⟨List.eq_nil_iff_forall_not_mem.2 fun k hk => ?_, Bool.eq_false_iff.2 fun hp => ?_⟩
    · have := h.children hk
      rw [hchildren] at this
      cases this
    · rcases h.joined hp with hp | hs
      · rw [hpresent] at hp
        cases hp
      · rw [hc] at hs
        cases hs
  removed hr := by
    rw [(h.node _).isCollection]
    exact (h.removed hr).elim hf.removed id
  wraps n := h.wraps n (hf.wraps n)
  root {m} hm := by
    have hroot := hf.root (h.sources ▸ hm)
    rw [h.root]
    exact ⟨h.size.symm ▸ hroot.range, (h.node _).source.trans hroot.source,
      (h.node _).parent.trans hroot.parent, h.kept hroot.isPresent⟩
  entity hm := by
    rw [h.entity]
    exact hf.entity (h.sources ▸ hm)

end Later

/-- A change of a node that only says more of it, or removes a collection. -/
structure Mild (f : Forest) (n : NodeId) (x y : Node) : Prop where
  same : x.Same y
  children : ∀ {k}, k ∈ y.children → k ∈ x.children
  kept : x.isPresent = true → y.isPresent = true
  joined : y.isPresent = true → x.isPresent = true ∨ x.isCollection = false
  removed : y.isRemoved = true → x.isRemoved = true ∨ x.isCollection = true
  wraps : y.wrapsBefore = x.wrapsBefore ∨ y.wrapsBefore ≤ (f.source x.source).wraps.length

theorem Mild.refl (f : Forest) (n : NodeId) (x : Node) : f.Mild n x x :=
  ⟨.refl x, id, id, .inl, .inl, .inl rfl⟩

theorem Later.modifyNode {n : NodeId} {change : Node → Node}
    (h : f.Mild n (f.node n) (change (f.node n))) : f.Later (f.modifyNode n change) := by
  have mild (k : NodeId) : f.Mild k (f.node k) ((f.modifyNode n change).node k) := by
    rcases f.node_modifyNode n k change with hk | ⟨rfl, -, hk⟩
    · rw [hk]
      exact .refl f k _
    · rw [hk]
      exact h
  exact {
    size := size_modifyNode
    sources := rfl
    node k := (mild k).same
    entity _ := rfl
    root _ := rfl
    children {k} := (mild k).children
    kept {k} := (mild k).kept
    joined {k} := (mild k).joined
    removed {k} := (mild k).removed
    wraps k hk := by
      rw [(mild k).same.source]
      rcases (mild k).wraps with heq | hle
      · rw [heq]
        exact hk
      · exact hle }

end Later

section Operations

variable {c : Catalog} {f : Forest} {n k q : NodeId} {m : SourceId}

/-- A change that leaves the place of the rows alone. -/
theorem samePaths_modifyNode {P : SourceId → Prop} {change : Node → Node}
    (h : ∀ x, (change x).source = x.source ∧ (change x).isPresent = x.isPresent ∧
      (change x).isRemoved = x.isRemoved ∧ (change x).place = x.place ∧
      (change x).wrapsBefore = x.wrapsBefore) : SamePaths P f (f.modifyNode n change) := by
  intro k _
  rcases f.node_modifyNode n k change with hk | ⟨rfl, -, hk⟩
  · simp only [rowPath?, hk]
    rfl
  · obtain ⟨hs, hp, hr, hplace, hw⟩ := h (f.node k)
    simp only [rowPath?, hk, hs, hp, hr, hplace, hw]
    rfl

theorem later_addAlias (f : Forest) (n : NodeId) (path : List String) :
    f.Later (f.addAlias n path) ∧ SamePaths (fun _ => True) f (f.addAlias n path) := by
  have cases (x : Node) : (if path ∈ x.aliases then x else
      { x with aliases := x.aliases ++ [path] }) = { x with aliases :=
        if path ∈ x.aliases then x.aliases else x.aliases ++ [path] } := by
    split <;> rfl
  rw [addAlias, funext cases]
  exact ⟨.modifyNode ⟨⟨rfl, rfl, rfl, rfl, rfl, rfl⟩, id, id, .inl, .inl, .inl rfl⟩,
    samePaths_modifyNode fun _ => ⟨rfl, rfl, rfl, rfl, rfl⟩⟩

/-- A node is removed by changes of single nodes: its parent loses it, and what is below it is marked. What
each of these changes keeps holds after it. -/
@[elab_as_elim] theorem remove_induction {motive : Forest → Prop} (n : NodeId) (start : motive f)
    (detach : ∀ {g q}, motive g →
      motive (g.modifyNode q fun x => { x with children := x.children.filter (· ≠ n) }))
    (mark : ∀ {g m}, motive g → motive (g.modifyNode m fun x => { x with isRemoved := true })) :
    motive (f.remove n) := by
  unfold remove
  refine List.foldlRecOn _ _ ?_ fun g hg m _ => mark hg
  split
  · exact start
  · exact detach start

theorem range_of_isCollection (h : (f.node n).isCollection = true) : n.index < f.size := by
  refine Nat.lt_of_not_le fun hle => ?_
  rw [node_of_size_le hle] at h
  cases h

/-- A collection is a leaf, so nothing else goes with it. -/
theorem subtree_collection (hf : f.Sound c) (h : (f.node n).isCollection = true) :
    f.subtree n = [n] := by
  rw [subtree, ← Nat.succ_pred_eq_of_pos (Nat.zero_lt_of_lt (range_of_isCollection h)),
    subtreeWithin, (hf.collection h).1]
  rfl

theorem later_remove (hf : f.Sound c) (h : (f.node n).isCollection = true) :
    f.Later (f.remove n) ∧ SamePaths (fun _ => True) f (f.remove n) := by
  have mark {g : Forest} (hg : f.Later g) (hpaths : SamePaths (fun _ => True) f g) :
      f.Later (g.modifyNode n fun x => { x with isRemoved := true }) ∧
        SamePaths (fun _ => True) f (g.modifyNode n fun x => { x with isRemoved := true }) := by
    have hc : (g.node n).isCollection = true := (hg.node n).isCollection.trans h
    refine ⟨hg.trans (.modifyNode ⟨⟨rfl, rfl, rfl, rfl, rfl, rfl⟩, id, id, .inl, fun _ => .inr hc,
      .inl rfl⟩), fun k _ => ?_⟩
    rw [← hpaths k trivial]
    rcases g.node_modifyNode n k fun x => { x with isRemoved := true } with hk | ⟨rfl, -, hk⟩
    · simp only [rowPath?, hk]
      rfl
    · simp only [rowPath?, hk, ((hg.sound hf).collection hc).2, Bool.false_and, Bool.false_eq_true,
        if_false]
  rw [remove, subtree_collection hf h]
  cases hp : (f.node n).parent with
  | none => exact mark ⟨rfl, rfl, fun _ => .refl _, fun _ => rfl, fun _ => rfl, id, id, .inl, .inl, fun _ => id⟩ (.refl _ f)
  | some q =>
    refine mark (.modifyNode ?_) (samePaths_modifyNode fun _ => ⟨rfl, rfl, rfl, rfl, rfl⟩)
    exact ⟨⟨rfl, rfl, rfl, rfl, rfl, rfl⟩, fun hk => (List.mem_filter.1 hk).1, id, .inl, .inl, .inl rfl⟩

theorem source_wrap_self (hm : m.index < f.sources.length) (path : List String) :
    (f.wrap path m).source m = { f.source m with wraps := (f.source m).wraps ++ [path] } := by
  simp only [source, wrap, modifySource, List.getD_eq_getElem?_getD, List.getElem?_modify_eq]
  rw [List.getElem?_eq_getElem hm]
  rfl

theorem source_wrap_ne {k : SourceId} (hk : k ≠ m) (path : List String) :
    (f.wrap path m).source k = f.source k := by
  have hi : m.index ≠ k.index := by
    cases m
    cases k
    exact fun hi => hk (congrArg SourceId.mk hi.symm)
  simp only [source, wrap, modifySource, List.getD_eq_getElem?_getD,
    List.getElem?_modify_ne _ f.sources hi]

theorem source_wrap (f : Forest) (path : List String) (m k : SourceId) :
    (f.wrap path m).source k = f.source k ∨
      (f.wrap path m).source k = { f.source k with wraps := (f.source k).wraps ++ [path] } := by
  by_cases hk : k = m
  · subst hk
    by_cases hm : k.index < f.sources.length
    · exact .inr (source_wrap_self hm path)
    · left
      simp only [source, wrap, modifySource, List.getD_eq_getElem?_getD]
      rw [List.getElem?_eq_none (Nat.le_of_not_lt hm), List.getElem?_eq_none]
      rw [List.length_modify]
      exact Nat.le_of_not_lt hm
  · exact .inl (source_wrap_ne hk path)

theorem later_wrap (f : Forest) (path : List String) (m : SourceId) : f.Later (f.wrap path m) where
  size := rfl
  sources := List.length_modify ..
  node n := .refl _
  entity k := by rcases f.source_wrap path m k with h | h <;> rw [h]
  root k := by rcases f.source_wrap path m k with h | h <;> rw [root, root, h]
  children := id
  kept := id
  joined := .inl
  removed := .inl
  wraps n hw := by
    change (f.node n).wrapsBefore ≤ ((f.wrap path m).source (f.node n).source).wraps.length
    rcases f.source_wrap path m (f.node n).source with h | h
    · rw [h]
      exact hw
    · rw [h, List.length_append]
      exact Nat.le_add_right_of_le hw

/-- A wrapped row is found under the new path, if its node is not dated after all that has happened to
its source. -/
theorem rowPath?_wrap_of_le {n : NodeId}
    (hw : (f.node n).wrapsBefore ≤ (f.source (f.node n).source).wraps.length)
    (hm : m.index < f.sources.length) (path : List String) : (f.wrap path m).rowPath? n =
      if (f.node n).source = m then (f.rowPath? n).map (path ++ ·) else f.rowPath? n := by
  have hnode : (f.wrap path m).node n = f.node n := rfl
  by_cases hs : (f.node n).source = m
  · rw [hs] at hw
    simp only [rowPath?, hnode, hs, source_wrap_self hm path, if_true]
    split
    · rw [List.drop_append_of_le_length hw, List.foldl_append]
      rfl
    · rfl
  · simp only [rowPath?, hnode, source_wrap_ne hs path, if_neg hs]

theorem rowPath?_wrap (hf : f.Sound c) (hm : m.index < f.sources.length) (path : List String)
    (n : NodeId) : (f.wrap path m).rowPath? n =
      if (f.node n).source = m then (f.rowPath? n).map (path ++ ·) else f.rowPath? n :=
  rowPath?_wrap_of_le (hf.wraps n) hm path

theorem later_makePresent (place : List String) (h : (f.node n).isCollection = false) :
    f.Later (f.makePresent n place) :=
  .modifyNode ⟨⟨rfl, rfl, rfl, rfl, rfl, rfl⟩, id, fun _ => rfl, fun _ => .inr h, .inl,
    .inr (Nat.le_refl _)⟩

theorem rowPath?_makePresent (place : List String) (k : NodeId) :
    (f.makePresent n place).rowPath? k =
      if k = n ∧ n.index < f.size ∧ (f.node n).isRemoved = false then some place
      else f.rowPath? k := by
  rw [makePresent]
  by_cases hk : k = n
  · subst hk
    by_cases hn : k.index < f.size
    · have hlen : ((f.source (f.node k).source).wraps.drop
          (f.source (f.node k).source).wraps.length) = [] := List.drop_length
      cases hr : (f.node k).isRemoved with
      | true => simp [rowPath?, node_modifyNode_self hn, hr]
      | false =>
        simp only [rowPath?, node_modifyNode_self hn, hn, hr, Bool.not_false, Bool.and_self, if_true,
          and_self]
        exact congrArg (fun ws => some (List.foldl _ place ws)) hlen
    · rw [if_neg fun h => hn h.2.1, rowPath?_of_size_le (Nat.le_of_not_lt hn),
        rowPath?_of_size_le (by rw [size_modifyNode]; exact Nat.le_of_not_lt hn)]
  · rw [if_neg fun h => hk h.1]
    simp only [rowPath?, node_modifyNode_ne hk]
    rfl

end Operations

section Additions

variable {c : Catalog} {f g : Forest} {x : Node}

/-- The second forest has one more node, at the end. -/
structure Added (f g : Forest) (x : Node) : Prop where
  size : g.size = f.size + 1
  sources : ∃ extra, g.sources = f.sources ++ extra
  new : g.node ⟨f.size⟩ = x
  old : ∀ {n}, n.index < f.size → g.node n = f.node n ∨ x.parent = some n ∧
    g.node n = { f.node n with children := (f.node n).children ++ [⟨f.size⟩] }

theorem added_addNode (hq : ∀ q, x.parent = some q → q.index < f.size) :
    (f.addNode x).1 = ⟨f.size⟩ ∧ (f.addNode x).2.sources = f.sources ∧
      Added f (f.addNode x).2 x := by
  have hsize : ({ f with nodes := f.nodes ++ [x] } : Forest).size = f.size + 1 := by
    rw [size, List.length_append]
    rfl
  have hnew : ({ f with nodes := f.nodes ++ [x] } : Forest).node ⟨f.size⟩ = x := by
    rw [node_concat, if_pos rfl]
  have hold {n : NodeId} (hn : n.index < f.size) :
      ({ f with nodes := f.nodes ++ [x] } : Forest).node n = f.node n := by
    rw [node_concat, if_neg (Nat.ne_of_lt hn)]
  rw [addNode]
  cases hp : x.parent with
  | none => exact ⟨rfl, rfl, hsize, ⟨[], (List.append_nil _).symm⟩, hnew, fun hn => .inl (hold hn)⟩
  | some q =>
    have hq := hq q hp
    refine ⟨rfl, rfl, size_modifyNode.trans hsize, ⟨[], (List.append_nil _).symm⟩, ?_, fun {n} hn => ?_⟩
    · refine (node_modifyNode_ne ?_).trans hnew
      rintro rfl
      exact Nat.lt_irrefl _ hq
    · by_cases hnq : n = q
      · subst hnq
        refine .inr ⟨hp, ?_⟩
        refine (node_modifyNode_self (hsize ▸ Nat.lt_succ_of_lt hn)).trans ?_
        rw [hold hn]
        rfl
      · exact .inl ((node_modifyNode_ne hnq).trans (hold hn))

namespace Added

theorem cases (h : Added f g x) (n : NodeId) :
    n.index < f.size ∨ n = ⟨f.size⟩ ∨ g.size ≤ n.index ∧ g.node n = default := by
  by_cases hn : n.index < f.size
  · exact .inl hn
  · by_cases heq : n.index = f.size
    · refine .inr (.inl ?_)
      cases n
      exact congrArg NodeId.mk heq
    · have hle : g.size ≤ n.index := by
        rw [h.size]
        omega
      exact .inr (.inr ⟨hle, node_of_size_le hle⟩)

theorem source_eq (h : Added f g x) {m : SourceId} (hm : m.index < f.sources.length) :
    g.source m = f.source m := by
  obtain ⟨extra, hextra⟩ := h.sources
  simp only [source, hextra, List.getD_eq_getElem?_getD, List.getElem?_append_left hm]

theorem sources_le (h : Added f g x) : f.sources.length ≤ g.sources.length := by
  obtain ⟨extra, hextra⟩ := h.sources
  rw [hextra, List.length_append]
  exact Nat.le_add_right _ _

theorem same (h : Added f g x) {n : NodeId} (hn : n.index < f.size) : (f.node n).Same (g.node n) := by
  rcases h.old hn with heq | ⟨-, heq⟩ <;> rw [heq] <;> exact ⟨rfl, rfl, rfl, rfl, rfl, rfl⟩

theorem grows (h : Added f g x) : f.Grows g where
  size := by rw [h.size]; exact Nat.le_succ _
  sources := h.sources_le
  node := h.same
  entity hm := by rw [h.source_eq hm]
  root hm := by rw [root, root, h.source_eq hm]

/-- The rows of no old source have moved. -/
theorem samePaths (h : Added f g x) (hf : f.Sound c)
    (hx : x.source.index < f.sources.length → x.isPresent = false) :
    SamePaths (fun m => m.index < f.sources.length) f g := by
  intro n hn
  rcases h.cases n with hr | rfl | ⟨hle, -⟩
  · have hrange := hf.source hr
    rcases h.old hr with heq | ⟨-, heq⟩
    all_goals simp only [rowPath?, heq, h.source_eq hrange]
  · rw [h.new] at hn
    have hle : f.size ≤ (⟨f.size⟩ : NodeId).index := Nat.le_refl _
    rw [rowPath?_of_size_le hle, rowPath?, h.new]
    simp only [hx hn, Bool.false_and, Bool.false_eq_true, if_false]
  · rw [rowPath?_of_size_le hle, rowPath?_of_size_le (Nat.le_trans h.grows.size hle)]

theorem children (h : Added f g x) (hf : f.Sound c) (hchildren : x.children = []) {n k : NodeId}
    (hk : k ∈ (g.node n).children) : k.index < g.size ∧ (g.node k).parent = some n := by
  have old {n : NodeId} (hr : n.index < f.size) (hk : k ∈ (f.node n).children) :
      k.index < g.size ∧ (g.node k).parent = some n := by
    obtain ⟨hkr, hkp⟩ := hf.children hk
    exact ⟨Nat.lt_of_lt_of_le hkr h.grows.size, (h.same hkr).parent.trans hkp⟩
  rcases h.cases n with hr | rfl | ⟨-, hd⟩
  · rcases h.old hr with heq | ⟨hp, heq⟩
    · exact old hr (heq ▸ hk)
    · rw [heq] at hk
      rcases List.mem_append.1 hk with hk | hk
      · exact old hr hk
      · obtain rfl := List.mem_singleton.1 hk
        refine ⟨?_, h.new ▸ hp⟩
        rw [h.size]
        exact Nat.lt_succ_self _
  · rw [h.new, hchildren] at hk
    cases hk
  · rw [hd] at hk
    cases hk

/-- The root of an old source is still its root. -/
theorem isRoot (h : Added f g x) (hf : f.Sound c) {m : SourceId} (hold : m.index < f.sources.length) :
    g.IsRoot m (g.root m) := by
  have hroot := hf.root hold
  have same := h.same hroot.range
  rw [h.grows.root hold]
  refine ⟨Nat.lt_of_lt_of_le hroot.range h.grows.size, same.source.trans hroot.source,
    same.parent.trans hroot.parent, ?_⟩
  rcases h.old hroot.range with heq | ⟨-, heq⟩ <;> rw [heq] <;> exact hroot.isPresent

/-- A new node keeps the invariant if it, and its source if that is new as well, keep to it. -/
theorem sound (h : Added f g x) (hf : f.Sound c) (hsource : x.source.index < g.sources.length)
    (hfield : x.field = none)
    (htop : x.parent = none → x.edge = none ∧ x.entity = (g.source x.source).entity)
    (hbelow : ∀ q, x.parent = some q → g.Below c ⟨f.size⟩ q) (hchildren : x.children = [])
    (hcollection : x.isCollection = true → x.isPresent = false) (hremoved : x.isRemoved = false)
    (hwraps : x.wrapsBefore = 0)
    (hroot : ∀ m : SourceId, f.sources.length ≤ m.index → m.index < g.sources.length →
      g.IsRoot m (g.root m) ∧ ∃ entity t, (g.source m).entity = some entity ∧ c.type? entity = some t) :
    g.Sound c where
  source {n} hn := by
    rcases h.cases n with hr | rfl | ⟨hle, -⟩
    · rw [(h.same hr).source]
      exact Nat.lt_of_lt_of_le (hf.source hr) h.sources_le
    · rw [h.new]
      exact hsource
    · exact absurd hn (Nat.not_lt_of_le hle)
  field n := by
    rcases h.cases n with hr | rfl | ⟨-, hd⟩
    · exact (h.same hr).field.trans (hf.field n)
    · rw [h.new]
      exact hfield
    · rw [hd]
      rfl
  top {n} hn hp := by
    rcases h.cases n with hr | rfl | ⟨hle, -⟩
    · have same := h.same hr
      have := hf.top hr (same.parent.symm.trans hp)
      rw [same.edge, same.entity, same.source, h.source_eq (hf.source hr)]
      exact this
    · rw [h.new] at hp ⊢
      exact htop hp
    · exact absurd hn (Nat.not_lt_of_le hle)
  below {n q} hp := by
    rcases h.cases n with hr | rfl | ⟨-, hd⟩
    · exact h.grows.below hr (hf.below ((h.same hr).parent.symm.trans hp))
    · rw [h.new] at hp
      exact hbelow q hp
    · rw [hd] at hp
      cases hp
  children := h.children hf hchildren
  collection {n} hc := by
    rcases h.cases n with hr | rfl | ⟨-, hd⟩
    · rw [(h.same hr).isCollection] at hc
      rcases h.old hr with heq | ⟨hp, heq⟩
      · rw [heq]
        exact hf.collection hc
      · have := (hbelow n hp).single
        rw [(h.same hr).isCollection, hc] at this
        cases this
    · rw [h.new] at hc ⊢
      exact ⟨hchildren, hcollection hc⟩
    · rw [hd] at hc
      cases hc
  removed {n} hn := by
    rcases h.cases n with hr | rfl | ⟨-, hd⟩
    · rw [(h.same hr).isCollection]
      rcases h.old hr with heq | ⟨-, heq⟩
      all_goals
        rw [heq] at hn
        exact hf.removed hn
    · rw [h.new, hremoved] at hn
      cases hn
    · rw [hd] at hn
      cases hn
  wraps n := by
    rcases h.cases n with hr | rfl | ⟨-, hd⟩
    · rw [(h.same hr).source, h.source_eq (hf.source hr)]
      rcases h.old hr with heq | ⟨-, heq⟩ <;> rw [heq] <;> exact hf.wraps n
    · rw [h.new, hwraps]
      exact Nat.zero_le _
    · rw [hd]
      exact Nat.zero_le _
  root {m} hm := by
    by_cases hold : m.index < f.sources.length
    · exact h.isRoot hf hold
    · exact (hroot m (Nat.le_of_not_lt hold) hm).1
  entity {m} hm := by
    by_cases hold : m.index < f.sources.length
    · rw [h.source_eq hold]
      exact hf.entity hold
    · exact (hroot m (Nat.le_of_not_lt hold) hm).2

end Added

/-- The node for the whole row of a new source. -/
def wholeRow (f : Forest) (entity : Option String) (isOptional : Bool) : Node where
  source := ⟨f.sources.length⟩
  parent := none
  edge := none
  entity := entity
  field := none
  children := []
  isOptional := isOptional
  isPresent := true
  isRemoved := false
  aliases := [[]]
  place := []
  wrapsBefore := 0

/-- The node to which a new navigation leads. -/
def target (f : Forest) (parent : NodeId) (edge : NavigationEdge) : Node where
  source := (f.node parent).source
  parent := some parent
  edge := some edge
  entity := some edge.target
  field := none
  children := []
  isOptional := (f.node parent).isOptional || edge.isOptional
  isPresent := false
  isRemoved := false
  aliases := [f.memberPath parent ++ [edge.name]]
  place := []
  wrapsBefore := 0

/-- The node for a new field of a record. -/
def fieldNode (f : Forest) (parent : NodeId) (field : String) (entity : Option String) (isOptional : Bool) :
    Node where
  source := (f.node parent).source
  parent := some parent
  edge := none
  entity := entity
  field := some field
  children := []
  isOptional := isOptional || (f.node parent).isOptional
  isPresent := true
  isRemoved := false
  aliases := [[field]]
  place := [field]
  wrapsBefore := (f.source (f.node parent).source).wraps.length

theorem added_addSource (f : Forest) (entity : Option String) (isOptional : Bool) :
    Added f (f.addSource entity isOptional).2 (f.wholeRow entity isOptional) := by
  obtain ⟨-, -, added⟩ := added_addNode (f := f) (x := f.wholeRow entity isOptional) (fun _ hq => by cases hq)
  exact ⟨added.size, ⟨_, rfl⟩, added.new, added.old⟩

theorem source_addSource (f : Forest) (entity : Option String) (isOptional : Bool) (m : SourceId) :
    (f.addSource entity isOptional).2.source m =
      if m.index = f.sources.length then ⟨entity, ⟨f.size⟩, []⟩ else f.source m :=
  source_concat f _ m

/-- A new source has a root of its own. -/
theorem addSource_spec (hf : f.Sound c) {entity : String} {t : EntityType}
    (he : c.type? entity = some t) :
    (f.addSource (some entity) false).1 = ⟨f.sources.length⟩ ∧
      (f.addSource (some entity) false).2.Sound c ∧
      f.Grows (f.addSource (some entity) false).2 ∧
      SamePaths (fun m => m.index < f.sources.length) f (f.addSource (some entity) false).2 ∧
      (f.addSource (some entity) false).2.sources.length = f.sources.length + 1 ∧
      ((f.addSource (some entity) false).2.source ⟨f.sources.length⟩).entity = some entity ∧
      (f.addSource (some entity) false).2.rowPath?
        ((f.addSource (some entity) false).2.root ⟨f.sources.length⟩) = some [] ∧
      ∀ n, n.index < (f.addSource (some entity) false).2.size →
        ((f.addSource (some entity) false).2.node n).source = ⟨f.sources.length⟩ →
        n = (f.addSource (some entity) false).2.root ⟨f.sources.length⟩ := by
  have added := added_addSource f (some entity) false
  have hsource : (f.addSource (some entity) false).2.source ⟨f.sources.length⟩ = ⟨some entity, ⟨f.size⟩, []⟩ :=
    (source_addSource f _ false _).trans (if_pos rfl)
  generalize hg : (f.addSource (some entity) false).2 = g at added hsource ⊢
  have hlen : g.sources.length = f.sources.length + 1 := by
    rw [← hg]
    exact List.length_append
  have hpath : g.rowPath? ⟨f.size⟩ = some [] := by
    rw [rowPath?, added.new, show (f.wholeRow (some entity) false).source = ⟨f.sources.length⟩ from rfl, hsource]
    rfl
  have hroot : g.root ⟨f.sources.length⟩ = ⟨f.size⟩ := congrArg RowSource.root hsource
  have only (n : NodeId) (hn : n.index < g.size) (hs : (g.node n).source = ⟨f.sources.length⟩) :
      n = ⟨f.size⟩ := by
    rcases added.cases n with hr | rfl | ⟨hle, -⟩
    · have hold := hf.source hr
      rw [← (added.same hr).source, hs] at hold
      exact absurd hold (Nat.lt_irrefl _)
    · rfl
    · exact absurd hn (Nat.not_lt_of_le hle)
  rw [hroot]
  refine ⟨rfl, ?_, added.grows, added.samePaths hf fun h => absurd h (Nat.lt_irrefl _), hlen,
    congrArg RowSource.entity hsource, hpath, only⟩
  refine added.sound hf (hlen ▸ Nat.lt_succ_self _) rfl (fun _ => ⟨rfl, ?_⟩) (fun q hq => nomatch hq)
    rfl (fun hc => nomatch hc) rfl rfl fun m hle hlt => ?_
  · exact (congrArg RowSource.entity hsource).symm
  · have hindex : m.index = f.sources.length := by omega
    obtain rfl : m = ⟨f.sources.length⟩ := by
      cases m
      exact congrArg SourceId.mk hindex
    rw [hroot, hsource]
    refine ⟨⟨?_, ?_, ?_, ?_⟩, entity, t, rfl, he⟩
    · rw [added.size]
      exact Nat.lt_succ_self _
    all_goals
      rw [added.new]
      rfl

/-- Following a navigation finds its child, or adds one. -/
theorem follow_cases {q k : NodeId} {edge : NavigationEdge} (hq : q.index < f.size)
    (h : f.follow q edge = (k, g)) : f.child? q edge.name = some k ∧ g = f ∨
      f.child? q edge.name = none ∧ k = ⟨f.size⟩ ∧ g = (f.addNode (f.target q edge)).2 ∧
        Added f g (f.target q edge) := by
  rw [follow] at h
  split at h
  · next hchild =>
    cases h
    exact .inl ⟨hchild, rfl⟩
  · next hnone =>
    obtain ⟨hid, -, added⟩ := added_addNode (f := f) (x := f.target q edge) fun _ hq' => by cases hq'; exact hq
    obtain ⟨rfl, rfl⟩ :=
      Prod.mk.inj (show ((f.addNode (f.target q edge)).1, (f.addNode (f.target q edge)).2) = (k, g) from h)
    exact .inr ⟨hnone, hid, rfl, added⟩

/-- A child that a navigation leads to, new or not. -/
theorem follow_spec {q : NodeId} {owner : String} {edge : NavigationEdge} (hf : f.Sound c)
    (hq : q.index < f.size) (howner : (f.node q).entity = some owner)
    (hedge : c.navigation? owner edge.name = some edge) (hs : (f.node q).isCollection = false) :
    (f.follow q edge).2.Sound c ∧ f.Grows (f.follow q edge).2 ∧
      SamePaths (fun m => m.index < f.sources.length) f (f.follow q edge).2 ∧
      (f.follow q edge).2.sources = f.sources ∧
      (f.follow q edge).1.index < (f.follow q edge).2.size ∧
      ((f.follow q edge).2.node (f.follow q edge).1).parent = some q ∧
      ((f.follow q edge).2.node (f.follow q edge).1).edge = some edge := by
  generalize hfollow : f.follow q edge = r
  obtain ⟨k, g⟩ := r
  rcases follow_cases hq hfollow with ⟨hchild, rfl⟩ | ⟨-, rfl, rfl, added⟩
  · have hk := hf.children (List.mem_of_find?_eq_some hchild)
    obtain ⟨owner', edge', howner', hedge', he, -⟩ := (hf.below hk.2).edge
    have hname : edge'.name = edge.name := by
      have := List.find?_some hchild
      simpa [Node.step?, he] using this
    obtain rfl : owner = owner' := Option.some.inj (howner.symm.trans howner')
    obtain rfl : edge = edge' := by
      rw [hname, hedge] at hedge'
      exact Option.some.inj hedge'
    exact ⟨hf, .refl _, .refl _ _, rfl, hk.1, hk.2, he⟩
  · have hsources : (f.addNode (f.target q edge)).2.sources = f.sources :=
      (added_addNode fun _ hq' => by cases hq'; exact hq).2.1
    dsimp only
    rw [added.new]
    refine ⟨?_, added.grows, added.samePaths hf fun _ => rfl, hsources, ?_, rfl, rfl⟩
    · refine added.sound hf ?_ rfl (fun hp => nomatch hp) (fun q' hq' => ?_) rfl (fun _ => rfl) rfl rfl
        fun m hle hlt => ?_
      · rw [hsources]
        exact hf.source hq
      · cases hq'
        have same := added.same hq
        refine ⟨hq, ?_, same.isCollection.trans hs, owner, edge, same.entity.trans howner, hedge, ?_⟩
        · rw [added.new]
          exact same.source
        · rw [added.new, same.isOptional]
          refine ⟨rfl, rfl, fun ho => ?_⟩
          exact Bool.or_eq_false_iff.1 ho
      · rw [hsources] at hlt
        exact absurd hlt (Nat.not_lt_of_le hle)
    · rw [added.size]
      exact Nat.lt_succ_self _

end Additions

end Forest

end EntityQuery
