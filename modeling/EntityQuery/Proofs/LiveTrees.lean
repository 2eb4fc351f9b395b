import EntityQuery.Proofs.Comparing
import EntityQuery.Proofs.Histories
import Mathlib.Logic.Relation

/-!
# Live trees

Whatever operations have built a forest, every child is younger than its parent, and a row that is not present
can be joined: a navigation leads to it (`Built.rooted`). A tree is listed with parents before their children
(`Rooted.parentsFirst_live`), so the nodes above a listed one are listed, too, and they are its lineage
(`Above.of_mem_live`).
-/

namespace EntityQuery

/-- A node that has lost nothing but children. -/
structure Node.Keeps (x y : Node) : Prop where
  parent : y.parent = x.parent
  edge : y.edge = x.edge
  children : ∀ c ∈ y.children, c ∈ x.children
  isPresent : x.isPresent = true → y.isPresent = true

theorem Node.Keeps.refl (x : Node) : x.Keeps x := ⟨rfl, rfl, fun _ h => h, id⟩

namespace Forest

variable {f g : Forest} {n q c : NodeId} {m : SourceId} {x : Node}

/-- How the trees of a forest hang together. A node may only be its own child, but then it is in no tree. -/
structure Rooted (f : Forest) : Prop where
  children : ∀ {n c}, c ∈ (f.node n).children → (f.node c).parent = some n ∧ n.index ≤ c.index
  root : ∀ {m}, m.index < f.sources.length →
    (f.root m).index < f.size ∧ (f.node (f.root m)).parent = none
  absent : ∀ {n}, n.index < f.size → (f.node n).isPresent = false →
    ∃ edge q, (f.node n).edge = some edge ∧ (f.node n).parent = some q

namespace Rooted

theorem empty : Forest.empty.Rooted where
  children {n c} hc := by
    rw [node_of_size_le (Nat.zero_le _)] at hc
    cases hc
  root hm := absurd hm (Nat.not_lt_zero _)
  absent hn := absurd hn (Nat.not_lt_zero _)

theorem of_keeps (hf : f.Rooted) (size : g.size = f.size) (sources : g.sources.length = f.sources.length)
    (root : ∀ m, g.root m = f.root m) (node : ∀ n, (f.node n).Keeps (g.node n)) : g.Rooted where
  children hc := by
    rw [(node _).parent]
    exact hf.children ((node _).children _ hc)
  root hm := by
    rw [root, size, (node _).parent]
    exact hf.root (sources ▸ hm)
  absent {n} hn hp := by
    rw [(node n).edge, (node n).parent]
    refine hf.absent (size ▸ hn) (Bool.eq_false_iff.2 fun h => ?_)
    rw [(node n).isPresent h] at hp
    cases hp

theorem modifyNode (hf : f.Rooted) (n : NodeId) {change : Node → Node} (h : ∀ x : Node, x.Keeps (change x)) :
    (f.modifyNode n change).Rooted :=
  hf.of_keeps size_modifyNode rfl (fun _ => rfl) (modifyNode_related .refl h f n)

/-- A node that is no child yet. -/
theorem concat (hf : f.Rooted) (children : x.children = [])
    (absent : x.isPresent = false → ∃ edge q, x.edge = some edge ∧ x.parent = some q) :
    ({ f with nodes := f.nodes ++ [x] } : Forest).Rooted := by
  have old {k : NodeId} (hk : k.index < f.size) :
      ({ f with nodes := f.nodes ++ [x] } : Forest).node k = f.node k := by
    rw [node_concat, if_neg (Nat.ne_of_lt hk)]
  have size : ({ f with nodes := f.nodes ++ [x] } : Forest).size = f.size + 1 := List.length_append
  refine ⟨fun {n c} hc => ?_, fun hm => ?_, fun {n} hn hp => ?_⟩
  · rw [node_concat] at hc
    split at hc
    · rw [children] at hc
      cases hc
    · obtain ⟨parent, older⟩ := hf.children hc
      rw [old (range_of_parent parent)]
      exact ⟨parent, older⟩
  · obtain ⟨range, parent⟩ := hf.root hm
    exact ⟨size ▸ Nat.lt_succ_of_lt range, (congrArg Node.parent (old range)).trans parent⟩
  · rw [node_concat] at hp ⊢
    split at hp
    · next h =>
      rw [if_pos h]
      exact absent hp
    · next h =>
      rw [if_neg h]
      exact hf.absent (Nat.lt_of_le_of_ne (Nat.le_of_lt_succ (by rwa [size] at hn)) h) hp

/-- A node takes a younger one, which knows it as its parent, for its child. -/
theorem adopt (hf : f.Rooted) (hc : (f.node c).parent = some q) (older : q.index < f.size → q.index ≤ c.index) :
    (f.modifyNode q fun p => { p with children := p.children ++ [c] }).Rooted := by
  have node (k : NodeId) := f.node_modifyNode q k fun p => { p with children := p.children ++ [c] }
  generalize hg : (f.modifyNode q fun p => { p with children := p.children ++ [c] }) = g at node ⊢
  have size : g.size = f.size := hg ▸ size_modifyNode
  have same (k : NodeId) : (g.node k).parent = (f.node k).parent ∧ (g.node k).edge = (f.node k).edge ∧
      (g.node k).isPresent = (f.node k).isPresent := by
    rcases node k with hk | ⟨rfl, -, hk⟩ <;> rw [hk] <;> exact ⟨rfl, rfl, rfl⟩
  refine ⟨fun {n k} hk => ?_, fun {m} hm => ?_, fun {n} hn hp => ?_⟩
  · rw [(same k).1]
    rcases node n with hn | ⟨rfl, range, hn⟩ <;> rw [hn] at hk
    · exact hf.children hk
    · rcases List.mem_append.1 hk with hk | hk
      · exact hf.children hk
      · obtain rfl := List.mem_singleton.1 hk
        exact ⟨hc, older range⟩
  · have root : g.root m = f.root m := hg ▸ rfl
    rw [root, size, (same _).1]
    exact hf.root (by rwa [← hg] at hm)
  · rw [(same n).1, (same n).2.1]
    exact hf.absent (size ▸ hn) ((same n).2.2 ▸ hp)

/-- A new node is the youngest one, so it may become the child of any node. -/
theorem addNode (hf : f.Rooted) (children : x.children = [])
    (absent : x.isPresent = false → ∃ edge q, x.edge = some edge ∧ x.parent = some q) :
    (f.addNode x).2.Rooted := by
  have added := hf.concat children absent
  rw [Forest.addNode]
  split
  · exact added
  · next q hq =>
    refine added.adopt ?_ fun range => ?_
    · rw [node_concat]
      exact (congrArg Node.parent (if_pos rfl)).trans hq
    · have size : ({ f with nodes := f.nodes ++ [x] } : Forest).size = f.nodes.length + 1 := List.length_append
      exact Nat.le_of_lt_succ (by rwa [size] at range)

/-- The root of a new source is the node that has just been added. -/
theorem addSource (hf : f.Rooted) (entity : Option String) (isOptional : Bool) :
    (f.addSource entity isOptional).2.Rooted := by
  let x : Node := {
    source := ⟨f.sources.length⟩, parent := none, edge := none, entity, field := none, children := []
    isOptional, isPresent := true, isRemoved := false, aliases := [[]], place := [], wrapsBefore := 0 }
  have added : (f.addNode x).2.Rooted := hf.addNode rfl nofun
  refine ⟨added.children, fun {m} hm => ?_, added.absent⟩
  have hroot : (f.addSource entity isOptional).2.root m =
      if m.index = f.sources.length then ⟨f.size⟩ else f.root m := by
    refine (congrArg RowSource.root (source_concat ⟨f.nodes ++ [x], f.sources⟩ _ m)).trans ?_
    split <;> rfl
  rw [hroot]
  split
  · have size : (f.addNode x).2.size = f.size + 1 := List.length_append
    refine ⟨size ▸ Nat.lt_succ_self _, ?_⟩
    exact congrArg Node.parent ((node_concat f x ⟨f.size⟩).trans (if_pos rfl))
  · next h =>
    refine added.root (m := m) (Nat.lt_of_le_of_ne (Nat.le_of_lt_succ ?_) h)
    have sources : (f.addSource entity isOptional).2.sources.length = f.sources.length + 1 :=
      List.length_append
    rwa [sources] at hm

theorem follow (hf : f.Rooted) (q : NodeId) (edge : NavigationEdge) : (f.follow q edge).2.Rooted := by
  rw [Forest.follow]
  split
  · exact hf
  · exact hf.addNode rfl fun _ => ⟨_, _, rfl, rfl⟩

theorem addField (hf : f.Rooted) (q : NodeId) (field : String) (entity : Option String) (isOptional : Bool) :
    (f.addField q field entity isOptional).2.Rooted :=
  hf.addNode rfl nofun

theorem addAlias (hf : f.Rooted) (n : NodeId) (path : List String) : (f.addAlias n path).Rooted :=
  hf.modifyNode n fun x => by split <;> exact ⟨rfl, rfl, fun _ h => h, id⟩

theorem remove (hf : f.Rooted) (n : NodeId) : (f.remove n).Rooted := by
  refine remove_induction n hf (fun hg => hg.modifyNode _ fun _ => ⟨rfl, rfl, fun _ h => ?_, id⟩) fun hg =>
    hg.modifyNode _ fun _ => ⟨rfl, rfl, fun _ h => h, id⟩
  exact (List.mem_filter.1 h).1

theorem wrap (hf : f.Rooted) (path : List String) (m : SourceId) : (f.wrap path m).Rooted :=
  hf.of_keeps rfl (later_wrap f path m).sources (later_wrap f path m).root fun _ => .refl _

theorem makePresent (hf : f.Rooted) (n : NodeId) (place : List String) : (f.makePresent n place).Rooted :=
  hf.modifyNode n fun _ => ⟨rfl, rfl, fun _ h => h, fun _ => rfl⟩

theorem makeOptional (hf : f.Rooted) (m : SourceId) : (f.makeOptional m).Rooted := by
  refine hf.of_keeps (List.length_map ..) rfl (fun _ => rfl) fun n => ?_
  rcases f.node_makeOptional m n with h | h <;> rw [h]
  · exact .refl _
  · exact ⟨rfl, rfl, fun _ h => h, id⟩

end Rooted

theorem Built.rooted (h : f.Built) : f.Rooted := by
  induction h with
  | empty => exact .empty
  | addSource _ entity isOptional ih => exact ih.addSource entity isOptional
  | follow _ parent edge ih => exact ih.follow parent edge
  | addField _ parent field entity isOptional ih => exact ih.addField parent field entity isOptional
  | addAlias _ n path ih => exact ih.addAlias n path
  | remove _ n ih => exact ih.remove n
  | wrap _ path m ih => exact ih.wrap path m
  | makePresent _ n place ih => exact ih.makePresent n place
  | makeOptional _ m ih => exact ih.makeOptional m

section Listing

variable {above above' l l' : List NodeId} {k : NodeId} {fuel : Nat}

/-- Every listed node comes after its parent, and is younger. The parents of the first ones are `above`. -/
def ParentsFirst (f : Forest) : List NodeId → List NodeId → Prop
  | _, [] => True
  | above, n :: ns =>
    (∀ q, (f.node n).parent = some q → q ∈ above ∧ q.index < n.index) ∧ f.ParentsFirst (n :: above) ns

namespace ParentsFirst

theorem mono (h : f.ParentsFirst above l) (hsub : above ⊆ above') : f.ParentsFirst above' l := by
  induction l generalizing above above' with
  | nil => trivial
  | cons n l ih =>
    exact ⟨fun q hq => (h.1 q hq).imp_left fun hq => hsub hq, ih h.2 (List.cons_subset_cons n hsub)⟩

theorem append (h : f.ParentsFirst above l) (h' : f.ParentsFirst above l') :
    f.ParentsFirst above (l ++ l') := by
  induction l generalizing above with
  | nil => exact h'
  | cons n l ih => exact ⟨h.1, ih h.2 (h'.mono (List.subset_cons_self n above))⟩

theorem flatMap {list : NodeId → List NodeId} (h : ∀ n ∈ l, f.ParentsFirst above (list n)) :
    f.ParentsFirst above (l.flatMap list) := by
  induction l with
  | nil => trivial
  | cons n l ih =>
    rw [List.flatMap_cons]
    exact (h n (.head _)).append (ih fun k hk => h k (.tail _ hk))

theorem of_mem (h : f.ParentsFirst above l) (hn : n ∈ l) (hq : (f.node n).parent = some q) :
    (q ∈ above ∨ q ∈ l) ∧ q.index < n.index := by
  induction l generalizing above with
  | nil => cases hn
  | cons k l ih =>
    rcases List.mem_cons.1 hn with rfl | hn
    · exact (h.1 q hq).imp_left .inl
    · refine (ih h.2 hn).imp_left ?_
      rintro (hmem | hmem)
      · exact (List.mem_cons.1 hmem).elim (fun heq => .inr (heq ▸ .head _)) .inl
      · exact .inr (.tail _ hmem)

end ParentsFirst

/-- A listed subtree has parents first. The induction is on the depth to which it is listed. -/
theorem Rooted.parentsFirst (hf : f.Rooted)
    (hn : ∀ q, (f.node n).parent = some q → q ∈ above ∧ q.index < n.index) :
    f.ParentsFirst above (f.liveWithin fuel n) := by
  induction fuel generalizing n above with
  | zero => trivial
  | succ fuel ih =>
    rw [liveWithin]
    split
    · trivial
    · refine ⟨hn, .flatMap fun c hc => ih fun q hq => ?_⟩
      obtain ⟨parent, older⟩ := hf.children hc
      obtain rfl : n = q := Option.some.inj (parent.symm.trans hq)
      refine ⟨.head _, Nat.lt_of_le_of_ne older fun heq => ?_⟩
      -- A node that is its own child would have itself as parent.
      obtain rfl : n = c := by
        cases n
        cases c
        exact congrArg NodeId.mk heq
      exact absurd (hn n hq).2 (Nat.lt_irrefl _)

theorem Rooted.parentsFirst_live (hf : f.Rooted) (hm : m.index < f.sources.length) :
    f.ParentsFirst [] (f.live (f.root m)) :=
  hf.parentsFirst fun q hq => by
    rw [(hf.root hm).2] at hq
    cases hq

/-- Listed nodes are in the forest and not removed. -/
theorem Rooted.of_mem_liveWithin (hf : f.Rooted) (hn : n.index < f.size) (hk : k ∈ f.liveWithin fuel n) :
    k.index < f.size ∧ (f.node k).isRemoved = false := by
  induction fuel generalizing n with
  | zero => cases hk
  | succ fuel ih =>
    rw [liveWithin] at hk
    split at hk
    · cases hk
    · next kept =>
      rcases List.mem_cons.1 hk with rfl | hk
      · exact ⟨hn, Bool.of_not_eq_true kept⟩
      · obtain ⟨c, hc, hk⟩ := List.mem_flatMap.1 hk
        exact ih (range_of_parent (hf.children hc).1) hk

theorem Rooted.of_mem_live (hf : f.Rooted) (hm : m.index < f.sources.length)
    (hn : n ∈ f.live (f.root m)) : n.index < f.size ∧ (f.node n).isRemoved = false :=
  hf.of_mem_liveWithin (hf.root hm).1 hn

end Listing

section Ancestors

variable {k : NodeId}

/-- The node `q` is `n`, or it is above it. -/
def Above (f : Forest) (q n : NodeId) : Prop :=
  Relation.ReflTransGen (fun a b => (f.node a).parent = some b) n q

/-- The lineage of a node goes on with the parent of each node in it. -/
theorem mem_lineage_parent (hn : n ∈ f.lineage k) (hq : (f.node n).parent = some q)
    (older : q.index < n.index) : q ∈ f.lineage k := by
  obtain ⟨i⟩ := k
  induction i using Nat.strongRecOn with
  | _ i ih =>
    rw [Forest.lineage] at hn ⊢
    rcases List.mem_cons.1 hn with rfl | hn
    · rw [hq]
      dsimp only
      rw [if_pos older, Forest.lineage]
      exact .tail _ (.head _)
    · split at hn
      · cases hn
      · next r hr =>
        split at hn
        · next hlt =>
          obtain ⟨j⟩ := r
          rw [if_pos hlt]
          exact .tail _ (ih j hlt hn)
        · cases hn

theorem above_of_mem_lineage (hn : n ∈ f.lineage k) : f.Above n k := by
  obtain ⟨i⟩ := k
  induction i using Nat.strongRecOn with
  | _ i ih =>
    rw [Forest.lineage] at hn
    rcases List.mem_cons.1 hn with rfl | hn
    · exact .refl
    · split at hn
      · cases hn
      · next r hr =>
        split at hn
        · next hlt =>
          obtain ⟨j⟩ := r
          exact .head hr (ih j hlt hn)
        · cases hn

/-- What is above a listed node is listed, too, and in the lineage of the node. -/
theorem Above.of_mem_live (h : f.Above q n) (first : f.ParentsFirst [] (f.live k)) (hn : n ∈ f.live k) :
    q ∈ f.live k ∧ q ∈ f.lineage n := by
  induction h with
  | refl =>
    rw [Forest.lineage]
    exact ⟨hn, .head _⟩
  | tail _ hq ih =>
    obtain ⟨hlive, hlineage⟩ := ih
    obtain ⟨hmem, older⟩ := first.of_mem hlive hq
    exact ⟨hmem.resolve_left List.not_mem_nil, mem_lineage_parent hlineage hq older⟩

end Ancestors

end Forest

end EntityQuery
