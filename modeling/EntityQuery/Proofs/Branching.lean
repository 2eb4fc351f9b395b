import EntityQuery.Proofs.Operations
import EntityQuery.Proofs.Tables

/-!
# Trees after operations

Operations may come in any order: a node is removed, its name is used again, and children are added below
removed nodes. Still, nodes and their parents agree on who is whose child, siblings are told apart by their
steps, and a removed child has a removed parent (`Branching`). So the list of a tree has each of its nodes
once, after its parent, and a listed node is found at the path that leads to it, and nowhere else
(`trees_after`).
-/

namespace EntityQuery

namespace Forest

variable {f g : Forest} {n q c d k : NodeId} {m : SourceId} {x : Node} {ops : List Operation} {op : Operation}
  {path : List String} {name : String} {fuel : Nat}

/-- Children lead from the first node down to the second. -/
def Attached (f : Forest) (q n : NodeId) : Prop :=
  Relation.ReflTransGen (fun a b => b ∈ (f.node a).children) q n

/-- Siblings differ in their steps. -/
def Distinct (f : Forest) : Prop :=
  ∀ n, ∀ c ∈ (f.node n).children, ∀ d ∈ (f.node n).children, (f.node c).step? = (f.node d).step? → c = d

/-- What the trees of a forest are like, whatever has been done to it. -/
structure Branching (f : Forest) : Prop where
  source : ∀ {n}, n.index < f.size → (f.node n).source.index < f.sources.length
  parent : ∀ {n q}, (f.node n).parent = some q →
    q.index < n.index ∧ (f.node q).source = (f.node n).source ∧ ∃ name, (f.node n).step? = some name
  children : ∀ {n c}, c ∈ (f.node n).children → (f.node c).parent = some n
  removed : ∀ {n c}, c ∈ (f.node n).children → (f.node c).isRemoved = true → (f.node n).isRemoved = true
  nodup : ∀ n, (f.node n).children.Nodup
  root : ∀ {m}, m.index < f.sources.length → (f.root m).index < f.size ∧
    (f.node (f.root m)).parent = none ∧ (f.node (f.root m)).step? = none ∧ (f.node (f.root m)).source = m

namespace Branching

section Steps

theorem empty : Forest.empty.Branching where
  source hn := absurd hn (Nat.not_lt_zero _)
  parent h := by
    rw [node_of_size_le (Nat.zero_le _)] at h
    cases h
  children hc := by
    rw [node_of_size_le (Nat.zero_le _)] at hc
    cases hc
  removed hc := by
    rw [node_of_size_le (Nat.zero_le _)] at hc
    cases hc
  nodup n := by
    rw [node_of_size_le (Nat.zero_le _)]
    exact .nil
  root hm := absurd hm (Nat.not_lt_zero _)

/-- A change that at most takes children away. -/
theorem of_kept (hf : f.Branching) (kept : f.Kept g)
    (removed : ∀ {n c}, c ∈ (g.node n).children → (g.node c).isRemoved = true → (g.node n).isRemoved = true) :
    g.Branching where
  source hn := by
    rw [(kept.node _).source, kept.sources]
    exact hf.source (kept.size ▸ hn)
  parent h := by
    rw [(kept.node _).parent] at h
    rw [(kept.node _).source, (kept.node _).source, (kept.node _).step?]
    exact hf.parent h
  children hc := by
    rw [(kept.node _).parent]
    exact hf.children ((kept.node _).children.subset hc)
  removed := removed
  nodup n := (hf.nodup n).sublist (kept.node n).children
  root hm := by
    rw [kept.root, kept.size, (kept.node _).parent, (kept.node _).step?, (kept.node _).source]
    exact hf.root (kept.sources ▸ hm)

/-- A change that takes no node away. -/
theorem of_isRemoved (hf : f.Branching) (kept : f.Kept g)
    (same : ∀ n, (g.node n).isRemoved = (f.node n).isRemoved) : g.Branching :=
  hf.of_kept kept fun {n c} hc hr => by
    rw [same] at hr ⊢
    exact hf.removed ((kept.node n).children.subset hc) hr

theorem modifyNode (hf : f.Branching) (n : NodeId) {change : Node → Node}
    (h : ∀ x : Node, x.Alike (change x) ∧ (change x).isRemoved = x.isRemoved) : (f.modifyNode n change).Branching :=
  hf.of_isRemoved (.modifyNode (fun x => (h x).1) f n)
    (modifyNode_related (R := fun x y => y.isRemoved = x.isRemoved) (fun _ => rfl) (fun x => (h x).2) f n)

/-- A subtree is left by nobody: a removed node below another one has a removed parent. -/
theorem parent_mem_subtree (hf : f.Branching) (hk : k ∈ f.subtreeWithin fuel n) (hne : k ≠ n)
    (hq : (f.node k).parent = some q) : q ∈ f.subtreeWithin fuel n := by
  induction fuel generalizing n with
  | zero => cases hk
  | succ fuel ih =>
    rw [subtreeWithin] at hk ⊢
    obtain ⟨c, hc, hmem⟩ := List.mem_flatMap.1 ((List.mem_cons.1 hk).resolve_left hne)
    by_cases hkc : k = c
    · subst hkc
      obtain rfl : n = q := Option.some.inj ((hf.children hc).symm.trans hq)
      exact .head _
    · exact .tail _ (List.mem_flatMap.2 ⟨c, hc, ih hmem hkc⟩)

theorem remove (hf : f.Branching) (n : NodeId) : (f.remove n).Branching := by
  have kept := kept_remove f n
  have range {k c : NodeId} (hc : c ∈ ((f.remove n).node k).children) : k.index < f.size := by
    refine Nat.lt_of_not_le fun hle => ?_
    rw [node_of_size_le (kept.size ▸ hle)] at hc
    cases hc
  refine hf.of_kept kept fun {k c} hc hr => ?_
  have hk := range hc
  have hold := (kept.node k).children.subset hc
  have parent := hf.children hold
  rw [node_remove (range_of_parent parent)] at hr
  rw [node_remove hk] at hc ⊢
  rcases Bool.or_eq_true_iff.1 hr with hr | hr
  · exact Bool.or_eq_true_iff.2 (.inl (hf.removed hold hr))
  · refine Bool.or_eq_true_iff.2 (.inr (decide_eq_true ?_))
    refine hf.parent_mem_subtree (of_decide_eq_true hr) ?_ parent
    -- The removed node itself is no longer among the children of its parent.
    rintro rfl
    rw [if_pos parent] at hc
    exact of_decide_eq_true (List.mem_filter.1 hc).2 rfl

/-- A new node, at the end of its parent's children if it has a parent. -/
theorem added (hf : f.Branching) (h : Added f g x) (leaf : x.children = []) (kept : x.isRemoved = false)
    (source : x.source.index < g.sources.length)
    (parent : ∀ q, x.parent = some q → q.index < f.size ∧ (f.node q).source = x.source ∧
      ∃ name, x.step? = some name)
    (root : ∀ m : SourceId, f.sources.length ≤ m.index → m.index < g.sources.length →
      g.root m = ⟨f.size⟩ ∧ x.parent = none ∧ x.step? = none ∧ x.source = m) : g.Branching := by
  have older {n c : NodeId} (hc : c ∈ (f.node n).children) : c.index < f.size :=
    range_of_parent (hf.children hc)
  have removed {n : NodeId} (hn : n.index < f.size) : (g.node n).isRemoved = (f.node n).isRemoved := by
    rcases h.old hn with heq | ⟨-, heq⟩ <;> rw [heq]
  refine ⟨fun {n} hn => ?_, fun {n q} hq => ?_, fun {n c} hc => ?_, fun {n c} hc hr => ?_, fun n => ?_,
    fun {m} hm => ?_⟩
  · rcases h.cases n with hn | rfl | ⟨hle, -⟩
    · rw [(h.same hn).source]
      exact Nat.lt_of_lt_of_le (hf.source hn) h.sources_le
    · rwa [h.new]
    · exact absurd hn (Nat.not_lt_of_le hle)
  · rcases h.cases n with hn | rfl | ⟨-, hd⟩
    · rw [(h.same hn).parent] at hq
      obtain ⟨hlt, hs, hname⟩ := hf.parent hq
      rw [(h.same hn).source, (h.same hn).step?, (h.same (Nat.lt_trans hlt hn)).source]
      exact ⟨hlt, hs, hname⟩
    · rw [h.new] at hq ⊢
      obtain ⟨hlt, hs, hname⟩ := parent q hq
      exact ⟨hlt, (h.same hlt).source.trans hs, hname⟩
    · rw [hd] at hq
      cases hq
  · obtain ⟨-, hc | ⟨hp, rfl⟩⟩ := h.mem_children leaf hc
    · exact (h.same (older hc)).parent.trans (hf.children hc)
    · rw [h.new, hp]
  · obtain ⟨hn, hc | ⟨-, rfl⟩⟩ := h.mem_children leaf hc
    · rw [removed (older hc)] at hr
      rw [removed hn]
      exact hf.removed hc hr
    · rw [h.new, kept] at hr
      cases hr
  · rcases h.cases n with hn | rfl | ⟨-, hd⟩
    · rcases h.old hn with heq | ⟨-, heq⟩ <;> rw [heq]
      · exact hf.nodup n
      · refine List.Nodup.append (hf.nodup n) (List.nodup_singleton _) ?_
        exact List.disjoint_singleton.2 fun hmem => Nat.lt_irrefl _ (older hmem)
    · rw [h.new, leaf]
      exact .nil
    · rw [hd]
      exact .nil
  · by_cases hold : m.index < f.sources.length
    · obtain ⟨hrange, hp, hs, hsource⟩ := hf.root hold
      have same := h.same hrange
      rw [h.grows.root hold, same.parent, same.step?, same.source]
      exact ⟨Nat.lt_of_lt_of_le hrange h.grows.size, hp, hs, hsource⟩
    · obtain ⟨hroot, hx⟩ := root m (Nat.le_of_not_lt hold) hm
      rw [hroot, h.new, h.size]
      exact ⟨Nat.lt_succ_self _, hx⟩

theorem makeOptional (hf : f.Branching) (m : SourceId) : (f.makeOptional m).Branching :=
  hf.of_isRemoved (kept_makeOptional f m) fun n => by
    rcases f.node_makeOptional m n with h | h <;> rw [h]

/-- No operation on known nodes breaks a tree. -/
theorem perform (hf : f.Branching) (known : op.Known f) : (f.perform op).Branching := by
  have root {x : Node} {g : Forest} (hg : g.sources = f.sources) (m : SourceId) (hle : f.sources.length ≤ m.index)
      (hlt : m.index < g.sources.length) : g.root m = ⟨f.size⟩ ∧ x.parent = none ∧ x.step? = none ∧ x.source = m :=
    absurd (hg ▸ hlt) (Nat.not_lt_of_le hle)
  cases op with
  | addSource entity isOptional =>
    have length : (f.addSource entity isOptional).2.sources.length = f.sources.length + 1 := List.length_append
    refine hf.added (added_addSource f entity isOptional) rfl rfl (length ▸ Nat.lt_succ_self _) nofun ?_
    intro m hle hlt
    obtain rfl : m = ⟨f.sources.length⟩ := by
      cases m
      exact congrArg SourceId.mk (Nat.le_antisymm (Nat.le_of_lt_succ (Nat.lt_of_lt_of_eq hlt length)) hle)
    refine ⟨?_, rfl, rfl, rfl⟩
    change ((f.addSource entity isOptional).2.source _).root = _
    rw [source_addSource, if_pos rfl]
  | follow q edge =>
    change (f.follow q edge).2.Branching
    rw [follow]
    split
    · exact hf
    · obtain ⟨-, sources, added⟩ := added_addNode (f := f) (x := f.target q edge) fun q' hq' => by
        cases hq'
        exact known
      refine hf.added added rfl rfl (sources ▸ hf.source known) (fun q' hq' => ?_) (root sources)
      cases hq'
      exact ⟨known, rfl, _, rfl⟩
  | addField q field entity isOptional =>
    obtain ⟨-, sources, added⟩ := added_addNode (f := f) (x := f.fieldNode q field entity isOptional)
      fun q' hq' => by
        cases hq'
        exact known
    refine hf.added added rfl rfl (sources ▸ hf.source known) (fun q' hq' => ?_) (root sources)
    cases hq'
    exact ⟨known, rfl, _, rfl⟩
  | addAlias n path => exact hf.modifyNode n fun x => by split <;> exact ⟨⟨rfl, rfl, rfl, rfl, .refl _⟩, rfl⟩
  | remove n => exact hf.remove n
  | wrap path m => exact hf.of_isRemoved (kept_wrap f path m) fun _ => rfl
  | makePresent n place => exact hf.modifyNode n fun _ => ⟨⟨rfl, rfl, rfl, rfl, .refl _⟩, rfl⟩
  | makeOptional m => exact hf.makeOptional m

/-- Siblings stay distinct if no field is added under the name of one. -/
theorem distinct_perform (hf : f.Branching) (hd : f.Distinct) (known : op.Known f) (fresh : op.Fresh f) :
    (f.perform op).Distinct := by
  rcases perform_cases known with ⟨x, hx, added⟩ | ⟨-, kept⟩
  · have old {n c : NodeId} (hc : c ∈ (f.node n).children) := (added.same (range_of_parent (hf.children hc))).step?
    have new {n c : NodeId} (hp : x.parent = some n) (hc : c ∈ (f.node n).children) :
        ((f.perform op).node c).step? ≠ ((f.perform op).node ⟨f.size⟩).step? := by
      obtain ⟨name, hname, hnone⟩ : ∃ name, x.step? = some name ∧ f.child? n name = none := by
        rcases adds_cases hx with ⟨_, _, -, rfl⟩ | ⟨_, _, -, hnone, rfl⟩ | ⟨_, _, _, _, rfl, rfl⟩ <;> cases hp
        · exact ⟨_, rfl, hnone⟩
        · exact ⟨_, rfl, fresh⟩
      rw [old hc, added.new, hname]
      intro heq
      have := List.find?_eq_none.1 hnone c hc
      simp [heq] at this
    intro n c hc d hd' hs
    have leaf := (leaf_of_adds hx).1
    obtain ⟨-, hc | ⟨hp, rfl⟩⟩ := added.mem_children leaf hc <;>
      obtain ⟨-, hd' | ⟨hp', rfl⟩⟩ := added.mem_children leaf hd'
    · rw [old hc, old hd'] at hs
      exact hd n c hc d hd' hs
    · exact absurd hs (new hp' hc)
    · exact absurd hs.symm (new hp hd')
    · rfl
  · intro n c hc d hd' hs
    rw [(kept.node c).step?, (kept.node d).step?] at hs
    exact hd n c ((kept.node n).children.subset hc) d ((kept.node n).children.subset hd') hs

end Steps

section Listing

/-- What is attached to a node is below it by the links to parents, too. -/
theorem above (hf : f.Branching) (h : f.Attached q n) : f.Above q n :=
  Relation.ReflTransGen.mono (fun _ _ hc => hf.children hc) _ _ h.swap

theorem mem_lineage_iff (hf : f.Branching) : q ∈ f.lineage n ↔ f.Above q n := by
  refine ⟨above_of_mem_lineage, fun h => ?_⟩
  induction h with
  | refl =>
    rw [lineage]
    exact .head _
  | tail _ hq ih => exact mem_lineage_parent ih hq (hf.parent hq).1

theorem index_le (hf : f.Branching) (h : f.Above q n) : q.index ≤ n.index := by
  induction h with
  | refl => exact Nat.le_refl _
  | tail _ hq ih => exact Nat.le_trans (Nat.le_of_lt (hf.parent hq).1) ih

/-- No node is below two siblings: of two nodes above it one is above the other. -/
theorem apart (hf : f.Branching) (hc : c ∈ (f.node q).children) (hd : d ∈ (f.node q).children) (hne : c ≠ d)
    (hcn : f.Attached c n) : ¬f.Attached d n := by
  intro hdn
  have below {c d : NodeId} (hc : c ∈ (f.node q).children) (hd : d ∈ (f.node q).children) (hne : c ≠ d)
      (h : f.Above c d) : False := by
    rcases Relation.ReflTransGen.cases_head h with heq | ⟨p, hp, h⟩
    · exact hne heq.symm
    · obtain rfl : q = p := Option.some.inj ((hf.children hd).symm.trans hp)
      exact absurd (hf.index_le h) (Nat.not_le_of_lt (hf.parent (hf.children hc)).1)
  have unique : Relator.RightUnique fun a b => (f.node a).parent = some b :=
    fun _ _ _ h h' => Option.some.inj (h.symm.trans h')
  rcases Relation.ReflTransGen.total_of_right_unique unique (hf.above hcn) (hf.above hdn) with h | h
  · exact below hd hc hne.symm h
  · exact below hc hd hne h

theorem attached_of_mem (h : n ∈ f.liveWithin fuel k) : f.Attached k n := by
  induction fuel generalizing k with
  | zero => cases h
  | succ fuel ih =>
    rw [liveWithin] at h
    split at h
    · cases h
    · rcases List.mem_cons.1 h with rfl | h
      · exact .refl
      · obtain ⟨c, hc, h⟩ := List.mem_flatMap.1 h
        exact .head hc (ih h)

/-- A list of a tree has no node twice. The induction is on the depth to which it is listed. -/
theorem nodup_liveWithin (hf : f.Branching) (fuel : Nat) (k : NodeId) : (f.liveWithin fuel k).Nodup := by
  induction fuel generalizing k with
  | zero => exact .nil
  | succ fuel ih =>
    rw [liveWithin]
    split
    · exact .nil
    · refine List.nodup_cons.2 ⟨fun h => ?_, List.nodup_flatMap.2 ⟨fun c _ => ih c, ?_⟩⟩
      · obtain ⟨c, hc, h⟩ := List.mem_flatMap.1 h
        have older := (hf.parent (hf.children hc)).1
        exact absurd (hf.index_le (hf.above (attached_of_mem h))) (Nat.not_le_of_lt older)
      · refine (hf.nodup k).imp_of_mem fun {c d} hc hd hne n hcn hdn => ?_
        exact hf.apart hc hd hne (attached_of_mem hcn) (attached_of_mem hdn)

/-- What is attached to a node that is not removed is not removed either. -/
theorem kept (hf : f.Branching) (h : f.Attached k n) (hk : (f.node k).isRemoved = false) :
    (f.node n).isRemoved = false := by
  induction h with
  | refl => exact hk
  | tail _ hc ih =>
    refine Bool.eq_false_iff.2 fun hr => ?_
    rw [hf.removed hc hr] at ih
    cases ih

theorem range (hf : f.Branching) (h : f.Attached k n) (hk : k.index < f.size) : n.index < f.size := by
  induction h with
  | refl => exact hk
  | tail _ hc _ => exact range_of_parent (hf.children hc)

/-- The list goes deep enough: children are younger than their parents, so no line of them is longer than the
forest. -/
theorem mem_liveWithin (hf : f.Branching) (h : f.Attached k n) (hk : (f.node k).isRemoved = false)
    (hrange : n.index < f.size) (hfuel : f.size ≤ k.index + fuel) : n ∈ f.liveWithin fuel k := by
  induction h using Relation.ReflTransGen.head_induction_on generalizing fuel with
  | refl =>
    obtain ⟨fuel, rfl⟩ := Nat.exists_eq_succ_of_ne_zero (n := fuel) (by omega)
    rw [liveWithin, hk]
    exact .head _
  | @head k c hc h ih =>
    have older := (hf.parent (hf.children hc)).1
    have := hf.index_le (hf.above h)
    obtain ⟨fuel, rfl⟩ := Nat.exists_eq_succ_of_ne_zero (n := fuel) (by omega)
    rw [liveWithin, hk]
    refine .tail _ (List.mem_flatMap.2 ⟨c, hc, ih ?_ (by omega)⟩)
    exact hf.kept (.single hc) hk

theorem mem_live_iff (hf : f.Branching) (hk : k.index < f.size) : n ∈ f.live k ↔
    (f.node k).isRemoved = false ∧ f.Attached k n := by
  refine ⟨fun h => ⟨?_, attached_of_mem h⟩, fun ⟨hr, h⟩ => ?_⟩
  · rw [live, ← Nat.succ_pred_eq_of_pos (Nat.zero_lt_of_lt hk), liveWithin] at h
    split at h
    · cases h
    · next hr => exact Bool.of_not_eq_true hr
  · exact hf.mem_liveWithin h hr (hf.range h hk) (Nat.le_add_left _ _)

theorem live_eq_nil (hr : (f.node k).isRemoved = true) : f.live k = [] := by
  cases hfuel : f.size with
  | zero => rw [live, hfuel, liveWithin]
  | succ fuel => rw [live, hfuel, liveWithin, if_pos hr]

end Listing

section Paths

/-- A child is what its step leads to, and nothing else is. -/
theorem child?_iff (hd : f.Distinct) : f.child? q name = some c ↔
    c ∈ (f.node q).children ∧ (f.node c).step? = some name := by
  have spec {d : NodeId} (h : f.child? q name = some d) :
      d ∈ (f.node q).children ∧ (f.node d).step? = some name :=
    ⟨List.mem_of_find?_eq_some h, by simpa using List.find?_some h⟩
  refine ⟨spec, fun ⟨hc, hs⟩ => ?_⟩
  cases h : f.child? q name with
  | none =>
    have := List.find?_eq_none.1 h c hc
    simp [hs] at this
  | some d =>
    obtain ⟨hmem, hds⟩ := spec h
    rw [hd q _ hmem _ hc (hds.trans hs.symm)]

/-- What is attached to a root is at the path that leads to it. -/
theorem nodeAt?_memberPath (hf : f.Branching) (hd : f.Distinct) (hm : m.index < f.sources.length)
    (h : f.Attached (f.root m) n) : f.nodeAt? m (f.memberPath n) = some n := by
  obtain ⟨-, hp, hs, -⟩ := hf.root hm
  induction h with
  | refl =>
    rw [memberPath_root hp hs]
    rfl
  | @tail q n _ hc ih =>
    have parent := hf.children hc
    obtain ⟨older, -, name, hname⟩ := hf.parent parent
    rw [memberPath_child parent older hname, nodeAt?_concat, ih]
    exact (child?_iff hd).2 ⟨hc, hname⟩

/-- Nothing is at another path than the one that leads to it. -/
theorem memberPath_of_nodeAt? (hf : f.Branching) (hd : f.Distinct) (hm : m.index < f.sources.length)
    (h : f.nodeAt? m path = some n) : f.memberPath n = path := by
  obtain ⟨-, hp, hs, -⟩ := hf.root hm
  induction path using List.reverseRecOn generalizing n with
  | nil =>
    obtain rfl : f.root m = n := Option.some.inj h
    exact memberPath_root hp hs
  | append_singleton path name ih =>
    rw [nodeAt?_concat, Option.bind_eq_some_iff] at h
    obtain ⟨q, hq, h⟩ := h
    obtain ⟨hc, hname⟩ := (child?_iff hd).1 h
    have parent := hf.children hc
    rw [memberPath_child parent (hf.parent parent).1 hname, ih hq]

end Paths

end Branching

theorem branching_after (h : Performable Operation.Known .empty ops) : (after ops).Branching :=
  h.invariant .empty fun hf known => hf.perform known

theorem distinct_after (h : Performable (fun f op => op.Known f ∧ op.Fresh f) .empty ops) :
    (after ops).Distinct := by
  have first : Forest.empty.Distinct := fun n c hc => by
    rw [node_of_size_le (Nat.zero_le _)] at hc
    cases hc
  have both : (after ops).Branching ∧ (after ops).Distinct :=
    h.invariant (I := fun f => f.Branching ∧ f.Distinct) ⟨.empty, first⟩ fun hf allowed =>
      ⟨hf.1.perform allowed.1, hf.1.distinct_perform hf.2 allowed.1 allowed.2⟩
  exact both.2

/-- After any operations on known nodes that add only fresh fields: parents and children agree, siblings
differ in their steps, a tree whose root has not been removed is listed completely, without repetition and
parents first, and each listed node is at its own path and no other. -/
theorem trees_after (h : Performable (fun f op => op.Known f ∧ op.Fresh f) .empty ops) :
    (∀ n, ∀ c ∈ ((after ops).node n).children, ((after ops).node c).parent = some n ∧
      ((after ops).node c).source = ((after ops).node n).source ∧ n.index < c.index) ∧
    (∀ n, ((after ops).node n).children.Nodup) ∧
    (∀ n, ∀ c ∈ ((after ops).node n).children, (∃ name, ((after ops).node c).step? = some name) ∧
      ∀ d ∈ ((after ops).node n).children, c ≠ d → ((after ops).node c).step? ≠ ((after ops).node d).step?) ∧
    ∀ m : SourceId, m.index < (after ops).sources.length →
      ((after ops).live ((after ops).root m)).Nodup ∧
      (after ops).ParentsFirst [] ((after ops).live ((after ops).root m)) ∧
      (((after ops).node ((after ops).root m)).isRemoved = false → ∀ n,
        n ∈ (after ops).live ((after ops).root m) ↔
          (after ops).Attached ((after ops).root m) n ∧ ((after ops).node n).isRemoved = false) ∧
      (((after ops).node ((after ops).root m)).isRemoved = true →
        (after ops).live ((after ops).root m) = []) ∧
      ∀ n ∈ (after ops).live ((after ops).root m), ((after ops).node n).isRemoved = false ∧
        ∀ path, (after ops).nodeAt? m path = some n ↔ path = (after ops).memberPath n := by
  have hf := branching_after (h.mono fun _ _ => And.left)
  have distinct := distinct_after h
  have rooted := (built_after ops).rooted
  generalize after ops = f at hf distinct rooted
  refine ⟨fun n c hc => ?_, hf.nodup, fun n c hc => ⟨?_, fun d hd hne hs => hne (distinct n c hc d hd hs)⟩, fun m hm => ?_⟩
  · obtain ⟨older, source, -⟩ := hf.parent (hf.children hc)
    exact ⟨hf.children hc, source.symm, older⟩
  · exact (hf.parent (hf.children hc)).2.2
  · have range := (hf.root hm).1
    refine ⟨hf.nodup_liveWithin _ _, rooted.parentsFirst_live hm, fun hr n => ?_, Branching.live_eq_nil, fun n hn => ?_⟩
    · rw [hf.mem_live_iff range]
      exact ⟨fun ⟨_, h⟩ => ⟨h, hf.kept h hr⟩, fun ⟨h, _⟩ => ⟨hr, h⟩⟩
    · obtain ⟨hr, attached⟩ := (hf.mem_live_iff range).1 hn
      refine ⟨hf.kept attached hr, fun path => ⟨fun h => (hf.memberPath_of_nodeAt? distinct hm h).symm, ?_⟩⟩
      rintro rfl
      exact hf.nodeAt?_memberPath distinct hm attached

end Forest

namespace Shop

open Forest

/-- A customer is taken out of its tree, and who referred the customer is read after that. -/
def removedCustomer : List Operation := [.addSource (some "Customer") false, .remove ⟨0⟩, .follow ⟨0⟩ referrer]

/-- A tree whose root has been removed is listed as empty, and yet nodes are attached to its root. -/
theorem not_listed_below_removed_root : Performable (fun f op => op.Known f ∧ op.Fresh f) .empty removedCustomer ∧
    (after removedCustomer).Attached ((after removedCustomer).root ⟨0⟩) ⟨1⟩ ∧
    ((after removedCustomer).node ⟨1⟩).isRemoved = false ∧
    ⟨1⟩ ∉ (after removedCustomer).live ((after removedCustomer).root ⟨0⟩) := by
  refine ⟨by decide +kernel, .single ?_, by decide +kernel, by decide +kernel⟩
  decide +kernel

/-- The buyer of an order is removed and read again, and so is who referred the removed one. -/
def buyerTwice : List Operation := [.addSource (some "Order") false, .follow ⟨0⟩ buyer, .follow ⟨1⟩ referrer,
  .remove ⟨1⟩, .follow ⟨0⟩ buyer, .follow ⟨1⟩ referrer, .addField ⟨3⟩ "Note" none false, .makeOptional ⟨0⟩]

theorem trees_after_buyerTwice :
    Performable (fun f op => op.Known f ∧ op.Fresh f) .empty buyerTwice ∧
    (after buyerTwice).live ⟨0⟩ = [⟨0⟩, ⟨3⟩, ⟨4⟩] ∧
    ∀ path, (after buyerTwice).nodeAt? ⟨0⟩ path = some ⟨3⟩ ↔
      path = (after buyerTwice).memberPath ⟨3⟩ := by
  have possible : Performable (fun f op => op.Known f ∧ op.Fresh f) .empty buyerTwice := by decide +kernel
  refine ⟨possible, by decide +kernel, ?_⟩
  obtain ⟨-, -, -, trees⟩ := trees_after possible
  obtain ⟨-, -, -, -, listed⟩ := trees ⟨0⟩ (by decide +kernel)
  exact (listed ⟨3⟩ (by decide +kernel)).2

end Shop

end EntityQuery
