import EntityQuery.Proofs.Forests
import Mathlib.Data.Finset.Card
import Mathlib.Data.List.Find

/-!
# The tree of a source

In a forest with one source, every node is at the path that leads to it from the root, and at no other
(`Forest.Tree`). Following a navigation puts one more node into the tree, at the path of its parent and
the navigation's name, and moves none (`Forest.Tree.nodeAt?_follow`). So there are as many nodes as there
are distinct paths.
-/

namespace EntityQuery

/-- The entity that a path of navigations leads to. -/
def Catalog.destination? (c : Catalog) (entity : String) (path : List String) : Option String :=
  path.foldlM (fun owner name => (c.navigation? owner name).map (·.target)) entity

theorem Catalog.destination?_concat {c : Catalog} {entity name : String} {path : List String} :
    c.destination? entity (path ++ [name]) =
      (c.destination? entity path).bind fun owner => (c.navigation? owner name).map (·.target) := by
  simp [destination?, List.foldlM_append]

namespace Forest

variable {c : Catalog} {f g : Forest} {m : SourceId} {n k q : NodeId} {path l : List String}
  {entity owner name : String} {edge : NavigationEdge}

theorem nodeAt?_concat :
    f.nodeAt? m (path ++ [name]) = (f.nodeAt? m path).bind fun n => f.child? n name := by
  simp [nodeAt?, List.foldlM_append]

theorem nodeAt?_congr (root : g.root m = f.root m) (children : ∀ n, (g.node n).children = (f.node n).children)
    (step : ∀ n, (g.node n).step? = (f.node n).step?) : g.nodeAt? m l = f.nodeAt? m l := by
  have child : g.child? = f.child? := by
    funext n name
    simp only [child?, children, step]
  rw [nodeAt?, nodeAt?, child, root]

/-- A member of a row leads to a child of its node, by a navigation of that name. -/
theorem child?_spec (hf : f.Sound c) (h : f.child? q name = some k) :
    k.index < f.size ∧ (f.node k).parent = some q ∧
      ∃ edge, (f.node k).edge = some edge ∧ edge.name = name := by
  obtain ⟨hrange, hparent⟩ := hf.children (List.mem_of_find?_eq_some h)
  obtain ⟨_, edge, -, -, hedge, -⟩ := (hf.below hparent).edge
  refine ⟨hrange, hparent, edge, hedge, ?_⟩
  simpa [Node.step?, hedge] using List.find?_some h

/-- A node is at no other path than the one that leads to it. -/
theorem memberPath_of_nodeAt? (hf : f.Sound c) (hm : m.index < f.sources.length)
    (h : f.nodeAt? m path = some n) : n.index < f.size ∧ f.memberPath n = path := by
  induction path using List.reverseRecOn generalizing n with
  | nil =>
    obtain rfl : f.root m = n := Option.some.inj h
    have isRoot := hf.root hm
    exact ⟨isRoot.range, memberPath_top hf isRoot.range isRoot.parent⟩
  | append_singleton path name ih =>
    rw [nodeAt?_concat, Option.bind_eq_some_iff] at h
    obtain ⟨q, hq, h⟩ := h
    obtain ⟨hrange, hparent, edge, hedge, rfl⟩ := child?_spec hf h
    refine ⟨hrange, ?_⟩
    rw [memberPath_below (hf.below hparent) hparent hedge, (ih hq).2]

/-- Paths are no longer than the nodes that they lead to are old. -/
theorem length_memberPath_le (hf : f.Sound c) (hn : n.index < f.size) :
    (f.memberPath n).length ≤ n.index := by
  obtain ⟨i⟩ := n
  induction i using Nat.strongRecOn with
  | _ i ih =>
    cases hp : (f.node ⟨i⟩).parent with
    | none =>
      rw [memberPath_top hf hn hp]
      exact Nat.zero_le _
    | some q =>
      have below := hf.below hp
      obtain ⟨_, edge, -, -, hedge, -⟩ := below.edge
      have older : q.index < i := below.older
      have := ih q.index older (Nat.lt_trans older hn)
      rw [memberPath_below below hp hedge, List.length_append, List.length_singleton]
      exact Nat.lt_of_le_of_lt this older

/-- Where parents are what they were, so is all that is above a node. -/
theorem lineage_of_parents (h : ∀ {n}, n.index < f.size → (g.node n).parent = (f.node n).parent)
    (hn : n.index < f.size) : g.lineage n = f.lineage n := by
  obtain ⟨i⟩ := n
  induction i using Nat.strongRecOn with
  | _ i ih =>
    rw [Forest.lineage, Forest.lineage, h hn]
    cases (f.node ⟨i⟩).parent with
    | none => rfl
    | some q =>
      by_cases older : q.index < i
      · simp only [older, if_true, ih q.index older (Nat.lt_trans older hn)]
      · simp only [older, if_false]

/-- Nothing changes what is above a node. -/
theorem Grows.lineage (h : f.Grows g) (hn : n.index < f.size) : g.lineage n = f.lineage n :=
  lineage_of_parents (fun hn => (h.node hn).parent) hn

/-- The forest is the tree of one source, with rows of an entity and no collections. -/
structure Tree (c : Catalog) (entity : String) (m : SourceId) (f : Forest) : Prop where
  sound : f.Sound c
  range : m.index < f.sources.length
  entity : (f.source m).entity = some entity
  single : ∀ n, (f.node n).isCollection = false
  reached : ∀ {n}, n.index < f.size → f.nodeAt? m (f.memberPath n) = some n

namespace Tree

/-- A path leads to rows of the entity that its navigations lead to. -/
theorem destination (h : f.Tree c entity m) (hn : f.nodeAt? m path = some n) :
    c.destination? entity path = (f.node n).entity := by
  induction path using List.reverseRecOn generalizing n with
  | nil =>
    obtain rfl : f.root m = n := Option.some.inj hn
    have isRoot := h.sound.root h.range
    rw [(h.sound.top isRoot.range isRoot.parent).2, isRoot.source, h.entity]
    rfl
  | append_singleton path name ih =>
    rw [nodeAt?_concat, Option.bind_eq_some_iff] at hn
    obtain ⟨q, hq, hn⟩ := hn
    obtain ⟨-, hparent, edge, hedge, rfl⟩ := child?_spec h.sound hn
    obtain ⟨owner, edge', howner, hnavigation, hedge', htarget, -⟩ := (h.sound.below hparent).edge
    obtain rfl := Option.some.inj (hedge'.symm.trans hedge)
    rw [Catalog.destination?_concat, ih hq, howner, htarget]
    simp [hnavigation]

theorem exists_entity (h : f.Tree c entity m) (hn : f.nodeAt? m path = some n) :
    ∃ entity', (f.node n).entity = some entity' := by
  have hrange := (memberPath_of_nodeAt? h.sound h.range hn).1
  cases hp : (f.node n).parent with
  | none =>
    obtain ⟨entity', -, hentity, -⟩ := h.sound.entity (h.sound.source hrange)
    exact ⟨entity', (h.sound.top hrange hp).2.trans hentity⟩
  | some q =>
    obtain ⟨-, edge, -, -, -, htarget, -⟩ := (h.sound.below hp).edge
    exact ⟨edge.target, htarget⟩

theorem destination_isSome (h : f.Tree c entity m) (hn : f.nodeAt? m path = some n) :
    (c.destination? entity path).isSome = true := by
  obtain ⟨entity', hentity⟩ := h.exists_entity hn
  rw [h.destination hn, hentity]
  rfl

theorem source (h : f.Tree c entity m) (hn : n.index < f.size) : (f.node n).source = m := by
  have along {path : List String} {n : NodeId} (hn : f.nodeAt? m path = some n) : (f.node n).source = m := by
    induction path using List.reverseRecOn generalizing n with
    | nil =>
      obtain rfl : f.root m = n := Option.some.inj hn
      exact (h.sound.root h.range).source
    | append_singleton path name ih =>
      rw [nodeAt?_concat, Option.bind_eq_some_iff] at hn
      obtain ⟨q, hq, hn⟩ := hn
      obtain ⟨-, hparent, -⟩ := child?_spec h.sound hn
      rw [← (h.sound.below hparent).source, ih hq]
  exact along (h.reached hn)

theorem ref_root (h : f.Tree c entity m) : f.ref (f.root m) = .rowRef ⟨m, f.root m, []⟩ := by
  have isRoot := h.sound.root h.range
  rw [Forest.ref, isRoot.source, memberPath_top h.sound isRoot.range isRoot.parent]

/-- The nodes above a node are those above its parent, and the node itself. -/
theorem lineage_concat (h : f.Tree c entity m) (hq : f.nodeAt? m path = some q)
    (hn : f.nodeAt? m (path ++ [name]) = some n) : f.lineage n = n :: f.lineage q := by
  rw [nodeAt?_concat, hq, Option.bind_some] at hn
  obtain ⟨-, hparent, -⟩ := child?_spec h.sound hn
  have older := (h.sound.below hparent).older
  rw [Forest.lineage, hparent]
  simp only [older, if_true]

/-- No node is removed from the tree. -/
theorem mem_live (h : f.Tree c entity m) (hn : n.index < f.size) : n ∈ f.live (f.root m) := by
  have kept (n : NodeId) : (f.node n).isRemoved = false := by
    refine Bool.eq_false_iff.2 fun hremoved => ?_
    have := h.sound.removed hremoved
    rw [h.single] at this
    cases this
  have along {fuel : Nat} {q : NodeId} {path : List String} (hfuel : path.length < fuel)
      (hpath : path.foldlM f.child? q = some n) : n ∈ f.liveWithin fuel q := by
    induction path generalizing fuel q with
    | nil =>
      obtain ⟨fuel, rfl⟩ := Nat.exists_eq_succ_of_ne_zero (Nat.ne_of_gt hfuel)
      obtain rfl : q = n := Option.some.inj hpath
      simp [liveWithin, kept]
    | cons name path ih =>
      obtain ⟨fuel, rfl⟩ := Nat.exists_eq_succ_of_ne_zero (Nat.ne_of_gt (Nat.zero_lt_of_lt hfuel))
      rw [List.foldlM_cons] at hpath
      obtain ⟨k, hk, hpath⟩ := Option.bind_eq_some_iff.1 hpath
      rw [liveWithin, kept, if_neg Bool.false_ne_true]
      refine .tail _ (List.mem_flatMap.2 ⟨k, List.mem_of_find?_eq_some hk, ?_⟩)
      exact ih (Nat.lt_of_succ_lt_succ hfuel) hpath
  exact along (Nat.lt_of_le_of_lt (length_memberPath_le h.sound hn) hn) (h.reached hn)

/-- There are as many nodes as paths. -/
theorem size_eq (h : f.Tree c entity m) {paths : List (List String)}
    (located : ∀ path, (f.nodeAt? m path).isSome = true ↔ path ∈ paths) :
    f.size = paths.dedup.length := by
  have image : paths.toFinset = (Finset.range f.size).image fun i => f.memberPath ⟨i⟩ := by
    ext path
    rw [List.mem_toFinset, ← located, Finset.mem_image, Option.isSome_iff_exists]
    constructor
    · rintro ⟨n, hn⟩
      obtain ⟨hrange, hpath⟩ := memberPath_of_nodeAt? h.sound h.range hn
      exact ⟨n.index, Finset.mem_range.2 hrange, hpath⟩
    · rintro ⟨i, hi, rfl⟩
      exact ⟨_, h.reached (Finset.mem_range.1 hi)⟩
  have injective : Set.InjOn (fun i => f.memberPath ⟨i⟩) (Finset.range f.size) := by
    intro i hi j hj hij
    have hi := h.reached (n := ⟨i⟩) (Finset.mem_range.1 hi)
    have hj := h.reached (n := ⟨j⟩) (Finset.mem_range.1 hj)
    rw [show f.memberPath ⟨i⟩ = f.memberPath ⟨j⟩ from hij, hj] at hi
    exact congrArg NodeId.index (Option.some.inj hi).symm
  rw [← List.card_toFinset, image, Finset.card_image_of_injOn injective, Finset.card_range]

/-- What happens to nodes later leaves them where they are. -/
theorem later (h : f.Tree c entity m) (hlater : f.Later g)
    (children : ∀ n, (g.node n).children = (f.node n).children) :
    g.Tree c entity m ∧ ∀ path, g.nodeAt? m path = f.nodeAt? m path := by
  have same (path : List String) : g.nodeAt? m path = f.nodeAt? m path :=
    nodeAt?_congr (hlater.root m) children fun n => (hlater.node n).step?
  have sound := hlater.sound h.sound
  refine ⟨⟨sound, hlater.sources ▸ h.range, (hlater.entity m).trans h.entity, fun n => ?_, fun hn => ?_⟩, same⟩
  · rw [(hlater.node n).isCollection, h.single]
  · have hn := hlater.size ▸ hn
    rw [same, hlater.grows.memberPath h.sound sound hn, h.reached hn]

end Tree

section Following

/-- No node has a child that is not there. -/
def Closed (f : Forest) : Prop := ∀ n, ∀ k ∈ (f.node n).children, k.index < f.size

theorem Sound.closed (h : f.Sound c) : f.Closed := fun _ _ hk => (h.children hk).1

/-- A new node is the last child of its parent. -/
theorem children_addNode {x : Node} (hx : x.parent = some q) (hn : n.index < f.size) :
    ((f.addNode x).2.node n).children =
      if n = q then (f.node n).children ++ [⟨f.size⟩] else (f.node n).children := by
  have old : ({ f with nodes := f.nodes ++ [x] } : Forest).node n = f.node n := by
    rw [node_concat, if_neg (Nat.ne_of_lt hn)]
  have range : n.index < ({ f with nodes := f.nodes ++ [x] } : Forest).size := by
    rw [size, List.length_append]
    exact Nat.lt_add_right _ hn
  simp only [addNode, hx]
  split
  · next heq =>
    subst heq
    rw [node_modifyNode_self range, old]
    rfl
  · next hne => rw [node_modifyNode_ne hne, old]

/-- The children of old nodes are what they were, but for the new node. -/
theorem child?_addNode {x : Node} (hf : f.Closed) (hq : q.index < f.size) (hx : x.parent = some q)
    (hn : n.index < f.size) : (f.addNode x).2.child? n name =
      (f.child? n name).or (if n = q ∧ x.step? = some name then some ⟨f.size⟩ else none) := by
  obtain ⟨-, -, added⟩ := added_addNode (f := f) (x := x) fun _ hq' => by
    rw [hx] at hq'
    cases hq'
    exact hq
  have kept : (f.node n).children.find? (fun k => ((f.addNode x).2.node k).step? == some name) =
      f.child? n name := by
    refine List.find?_congr fun k hk => ?_
    rw [(added.same (hf n k hk)).step?]
  rw [child?, children_addNode hx hn]
  split
  · next heq =>
    rw [List.find?_append, kept, List.find?_singleton, added.new]
    simp [heq]
  · next hne => simp [kept, hne]

namespace Tree

variable (h : f.Tree c entity m) (hq : f.nodeAt? m path = some q)
include h hq

/-- Following a navigation puts a node at one more path. -/
theorem nodeAt?_follow (hfollow : f.follow q edge = (k, g)) (l : List String) :
    g.nodeAt? m l = if l = path ++ [edge.name] then some k else f.nodeAt? m l := by
  obtain ⟨hqrange, rfl⟩ := memberPath_of_nodeAt? h.sound h.range hq
  rcases follow_cases hqrange hfollow with ⟨hchild, rfl⟩ | ⟨hnone, rfl, hg, added⟩
  · split
    · next heq => rw [heq, nodeAt?_concat, hq, Option.bind_some, hchild]
    · rfl
  · have hstep : (f.target q edge).step? = some edge.name := rfl
    have child {n : NodeId} (hn : n.index < f.size) (a : String) :
        g.child? n a = (f.child? n a).or (if n = q ∧ (f.target q edge).step? = some a then some ⟨f.size⟩ else none) := by
      rw [hg, child?_addNode h.sound.closed hqrange rfl hn]
    have leaf (a : String) : g.child? ⟨f.size⟩ a = none := by
      rw [child?, added.new]
      rfl
    induction l using List.reverseRecOn with
    | nil =>
      rw [if_neg (by simp)]
      exact congrArg some (added.grows.root h.range)
    | append_singleton l a ih =>
      have last : l ++ [a] = f.memberPath q ++ [edge.name] ↔ l = f.memberPath q ∧ a = edge.name :=
        List.append_singleton_inj
      rw [nodeAt?_concat, ih, nodeAt?_concat]
      by_cases hl : l = f.memberPath q ++ [edge.name]
      · subst hl
        simp [leaf, nodeAt?_concat, hq, hnone]
      · rw [if_neg hl]
        cases hn : f.nodeAt? m l with
        | none =>
          rw [if_neg]
          · rfl
          · rw [last]
            rintro ⟨rfl, -⟩
            rw [hq] at hn
            cases hn
        | some n =>
          obtain ⟨hrange, rfl⟩ := memberPath_of_nodeAt? h.sound h.range hn
          rw [Option.bind_some, Option.bind_some, child hrange]
          by_cases hnew : n = q ∧ a = edge.name
          · obtain ⟨rfl, rfl⟩ := hnew
            rw [if_pos ⟨rfl, hstep⟩, if_pos rfl, hnone]
            rfl
          · rw [if_neg fun hx => hnew ⟨hx.1, ?_⟩, Option.or_none, if_neg fun heq => hnew ?_]
            · obtain ⟨hpath, ha⟩ := last.1 heq
              rw [hpath, hq] at hn
              exact ⟨(Option.some.inj hn).symm, ha⟩
            · rw [hstep] at hx
              exact (Option.some.inj hx.2).symm

theorem follow (howner : (f.node q).entity = some owner) (hedge : c.navigation? owner edge.name = some edge)
    (hs : edge.isCollection = false) (hfollow : f.follow q edge = (k, g)) :
    g.Tree c entity m ∧ f.Grows g := by
  have located := h.nodeAt?_follow hq hfollow
  obtain ⟨hqrange, rfl⟩ := memberPath_of_nodeAt? h.sound h.range hq
  rcases follow_cases hqrange hfollow with ⟨-, rfl⟩ | ⟨hnone, rfl, -, added⟩
  · exact ⟨h, .refl _⟩
  · obtain ⟨sound, grows, -, hsources, -⟩ := follow_spec h.sound hqrange howner hedge (h.single q)
    rw [hfollow] at sound grows hsources
    refine ⟨⟨sound, hsources ▸ h.range, (grows.entity h.range).trans h.entity, fun n => ?_, fun {n} hn => ?_⟩,
      grows⟩
    · rcases added.cases n with hn | rfl | ⟨-, hn⟩
      · rw [(added.same hn).isCollection, h.single]
      · rw [added.new]
        exact hs
      · rw [hn]
        rfl
    · rcases added.cases n with hold | rfl | ⟨hle, -⟩
      · rw [located, grows.memberPath h.sound sound hold, h.reached hold, if_neg]
        intro heq
        have := h.reached hold
        rw [heq, nodeAt?_concat, hq, Option.bind_some, hnone] at this
        cases this
      · have hparent : (g.node ⟨f.size⟩).parent = some q := by rw [added.new]; rfl
        have hx : (g.node ⟨f.size⟩).edge = some edge := by rw [added.new]; rfl
        rw [memberPath_below (sound.below hparent) hparent hx, grows.memberPath h.sound sound hqrange, located,
          if_pos rfl]
      · exact absurd hn (Nat.not_lt_of_le hle)

end Tree

end Following

end Forest

end EntityQuery
