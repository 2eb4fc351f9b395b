import Mathlib
import EntityQuery.Proofs.JoinCounts
import EntityQuery.Proofs.LiveTrees
import EntityQuery.Proofs.Simulation

/-!
# Joining what is needed

An expression needs the nodes that it refers to and all above them. `joinReferenced` makes exactly those
present that are not, with one join for each, and leaves the trees as they are (`MadePresent`, `JoinsNeeded`).
A node is joined after its parent, so no row is missing for the join (`joinNodes_complete`), and once that is
done, there is nothing left to do.
-/

namespace EntityQuery

open EntityQuery.Expr

variable {M : Model} {p p' q : Progress} {f g : Forest} {s s' s'' : Stream} {k l : Nat} {n : NodeId}
  {needed ns : List NodeId} {es : List Expr}

/-- A reference is left that cannot be read where it stands, or a row that cannot be joined. -/
def ExpansionError.isLeftover : ExpansionError → Bool
  | .leftoverRow .. | .noEdge .. | .absentParent .. => true
  | _ => false

namespace Forest

/-- The trees of two forests are the same. What may differ is where the rows are. -/
structure SameTrees (f g : Forest) : Prop where
  size : g.size = f.size
  sources : g.sources.length = f.sources.length
  root : ∀ m, g.root m = f.root m
  node : ∀ n, (f.node n).Same (g.node n)
  children : ∀ n, (g.node n).children = (f.node n).children
  removed : ∀ n, (g.node n).isRemoved = (f.node n).isRemoved

namespace SameTrees

theorem refl (f : Forest) : f.SameTrees f :=
  ⟨rfl, rfl, fun _ => rfl, fun _ => .refl _, fun _ => rfl, fun _ => rfl⟩

theorem trans {f' : Forest} (h : f.SameTrees g) (i : g.SameTrees f') : f.SameTrees f' where
  size := i.size.trans h.size
  sources := i.sources.trans h.sources
  root m := (i.root m).trans (h.root m)
  node n := (h.node n).trans (i.node n)
  children n := (i.children n).trans (h.children n)
  removed n := (i.removed n).trans (h.removed n)

theorem liveWithin (h : f.SameTrees g) (fuel : Nat) (n : NodeId) :
    g.liveWithin fuel n = f.liveWithin fuel n := by
  induction fuel generalizing n with
  | zero => rfl
  | succ fuel ih => rw [Forest.liveWithin, Forest.liveWithin, h.removed, h.children, funext ih]

/-- The same nodes are in the tree of a source. -/
theorem live (h : f.SameTrees g) (m : SourceId) : g.live (g.root m) = f.live (f.root m) := by
  rw [Forest.live, Forest.live, h.size, h.root, h.liveWithin]

theorem neededNodes (h : f.SameTrees g) (sources : List SourceId) (es : List Expr) :
    neededNodes g sources es = neededNodes f sources es := by
  simp only [EntityQuery.neededNodes, lineage_same h.node]

theorem wraps (path : List String) (sources : List SourceId) (f : Forest) :
    f.SameTrees (sources.foldl (·.wrap path) f) := by
  induction sources generalizing f with
  | nil => exact .refl f
  | cons m sources ih =>
    refine .trans ?_ (ih (f.wrap path m))
    exact ⟨rfl, (later_wrap f path m).sources, (later_wrap f path m).root, fun _ => .refl _, fun _ => rfl,
      fun _ => rfl⟩

theorem makePresent (f : Forest) (n : NodeId) (place : List String) : f.SameTrees (f.makePresent n place) := by
  have node (k : NodeId) := f.node_modifyNode n k
    fun x => { x with isPresent := true, place, wrapsBefore := (f.source (f.node n).source).wraps.length }
  refine ⟨size_modifyNode, rfl, fun _ => rfl, fun k => ?_, fun k => ?_, fun k => ?_⟩ <;>
    rcases node k with h | ⟨rfl, -, h⟩ <;> rw [Forest.makePresent, h]
  · exact .refl _
  · exact ⟨rfl, rfl, rfl, rfl, rfl, rfl⟩

end SameTrees

end Forest

/-- From one point to the next, joins have made the nodes `J` present, and nothing else has changed in the
trees. -/
structure MadePresent (J : NodeId → Prop) (p : Progress) (s : Stream) (p' : Progress) (s' : Stream) : Prop where
  trees : p.forest.SameTrees p'.forest
  sources : s'.sources = s.sources
  present : ∀ n, (p'.forest.node n).isPresent = true ↔ (p.forest.node n).isPresent = true ∨ J n

namespace MadePresent

variable {J K : NodeId → Prop}

theorem refl (p : Progress) (s : Stream) : MadePresent (fun _ => False) p s p s :=
  ⟨.refl _, rfl, fun _ => (or_iff_left id).symm⟩

theorem trans (h : MadePresent J p s p' s') (i : MadePresent K p' s' q s'') :
    MadePresent (fun n => J n ∨ K n) p s q s'' where
  trees := h.trees.trans i.trees
  sources := i.sources.trans h.sources
  present n := by rw [i.present, h.present, or_assoc]

/-- What was present before need not be mentioned. -/
theorem congr (h : MadePresent J p s p' s')
    (i : ∀ n, (p.forest.node n).isPresent = true ∨ (J n ↔ K n)) : MadePresent K p s p' s' where
  trees := h.trees
  sources := h.sources
  present n := by
    rw [h.present]
    rcases i n with i | i
    · simp only [i, true_or]
    · rw [i]

end MadePresent

section Steps

/-- A join makes one node present. -/
theorem joinNode_made (h : Runs (joinNode s n) M p s' p') : MadePresent (· = n) p s p' s' := by
  obtain ⟨owner, edge, path, outerKey, innerKey, target, note, rows, q, found, rfl, hforest, -⟩ :=
    Runs.joinNode h
  have hq : q.forest = p.forest := (Runs.keyedJoin_cases found.joined).1
  rw [hq] at hforest
  have range : n.index < p.forest.size := Forest.range_of_parent found.above
  refine ⟨?_, rfl, fun k => ?_⟩ <;> rw [hforest]
  · exact (Forest.SameTrees.wraps _ _ _).trans (.makePresent _ _ _)
  · rw [Forest.isPresent_makePresent k _ (by rwa [Forest.size_wraps]), Forest.node_wraps, Bool.or_eq_true,
      beq_iff_eq, or_comm]

/-- A list of nodes is gone through, and those are joined that are needed. -/
theorem joinNodes_made (h : Runs (joinNodes needed s ns) M p (s', k) p') :
    MadePresent (fun n => n ∈ needed ∧ n ∈ ns) p s p' s' := by
  induction ns generalizing p s k with
  | nil =>
    obtain ⟨heq, rfl⟩ := Runs.pure_iff.1 h
    cases heq
    exact (MadePresent.refl p s').congr fun n => .inr (by simp)
  | cons n ns ih =>
    simp only [joinNodes, Runs.bind_iff, Runs.node_iff] at h
    obtain ⟨_, _, ⟨rfl, rfl⟩, h⟩ := h
    split at h
    · next hneeded =>
      simp only [Bool.and_eq_true, List.contains_iff_mem] at hneeded
      simp only [Runs.bind_iff, Runs.pure_iff, Prod.exists] at h
      obtain ⟨s₁, q, hjoin, s₂, l, _, hrest, heq, rfl⟩ := h
      cases heq
      refine ((joinNode_made hjoin).trans (ih hrest)).congr fun k => .inr ?_
      rw [List.mem_cons, and_or_left]
      exact or_congr_left (iff_and_self.2 fun heq => heq.symm ▸ hneeded.1)
    · next hneeded =>
      refine (ih h).congr fun k => ?_
      -- The node itself may be needed, but then it is present already.
      by_cases hk : k ∈ needed ∧ k = n
      · obtain ⟨hk, rfl⟩ := hk
        exact .inl (by simpa [hk] using hneeded)
      · refine .inr ?_
        rw [List.mem_cons, and_or_left, or_iff_right hk]

/-- The trees of the sources are gone through one after the other, and every join is counted. -/
theorem joinSources_made {sources : List SourceId} (h : Runs (joinSources needed s sources) M p (s', k) p') :
    MadePresent (fun n => n ∈ needed ∧ ∃ m ∈ sources, n ∈ p.forest.live (p.forest.root m)) p s p' s' ∧
      JoinsCounted p s p' s' k := by
  induction sources generalizing p s k with
  | nil =>
    obtain ⟨heq, rfl⟩ := Runs.pure_iff.1 h
    cases heq
    exact ⟨(MadePresent.refl p s').congr fun n => .inr (by simp), .refl _ _⟩
  | cons m sources ih =>
    simp only [joinSources, Runs.bind_iff, Runs.forest_iff, Runs.pure_iff, Prod.exists] at h
    obtain ⟨_, _, ⟨rfl, rfl⟩, s₁, k₁, q, hnodes, s₂, k₂, _, hrest, heq, rfl⟩ := h
    cases heq
    have first := joinNodes_made hnodes
    obtain ⟨rest, counted⟩ := ih hrest
    refine ⟨(first.trans rest).congr fun n => .inr ?_, (joinNodes_counted hnodes).1.trans counted⟩
    simp only [first.trees.live, List.exists_mem_cons_iff, and_or_left]

/-- What a join needs is there: a navigation to the row, and the row that the navigation starts from. -/
theorem joinNode_complete {edge : NavigationEdge} {owner : NodeId} (hedge : (p.forest.node n).edge = some edge)
    (howner : (p.forest.node n).parent = some owner) (present : (p.forest.node owner).isPresent = true)
    (kept : (p.forest.node owner).isRemoved = false) :
    Ends (·.isLeftover = false) (joinNode s n) M p fun _ _ => True := by
  obtain ⟨path, hpath⟩ : ∃ path, p.forest.rowPath? owner = some path := by
    simp [Forest.rowPath?, present, kept]
  simp only [joinNode, Ends.bind_iff, Ends.forest_iff, hedge, howner, hpath]
  refine Ends.entityType_of (fun ownerType _ => ?_) fun _ => rfl
  refine Ends.entityType_of (fun targetType _ => ?_) fun _ => rfl
  refine Ends.ofCatalog_of (fun outerKey _ => ?_) fun _ => rfl
  refine Ends.ofCatalog_of (fun innerKey _ => ?_) fun _ => rfl
  split
  · rfl
  · simp only [Ends.bind_iff, Ends.freshName_iff, Ends.pure_iff]
    unfold keyedJoin
    split <;> simp [leftOuterJoin]

variable {above : List NodeId}

/-- Nodes that are listed after their parents can be joined one after the other. The forest `f` is the one
that the list was made of, and all needed nodes before the list are present by now. -/
theorem joinNodes_complete (hf : f.Rooted) (first : f.ParentsFirst above ns)
    (kept : ∀ n, n ∈ above ∨ n ∈ ns → n.index < f.size ∧ (f.node n).isRemoved = false)
    (closed : ∀ n ∈ ns, n ∈ needed → ∀ q, (f.node n).parent = some q → q ∈ needed)
    (trees : f.SameTrees p.forest)
    (onward : ∀ n, (f.node n).isPresent = true → (p.forest.node n).isPresent = true)
    (done : ∀ n ∈ above, n ∈ needed → (p.forest.node n).isPresent = true) :
    Ends (·.isLeftover = false) (joinNodes needed s ns) M p fun _ _ => True := by
  induction ns generalizing p s above with
  | nil => trivial
  | cons n ns ih =>
    have kept' : ∀ k, k ∈ n :: above ∨ k ∈ ns → k.index < f.size ∧ (f.node k).isRemoved = false := by
      intro k hk
      refine kept k ?_
      simp only [List.mem_cons] at hk ⊢
      tauto
    have closed' := fun k hk => closed k (.tail _ hk)
    simp only [joinNodes, Ends.bind_iff, Ends.node_iff]
    split
    · next hneeded =>
      simp only [Bool.and_eq_true, List.contains_iff_mem, Bool.not_eq_true'] at hneeded
      -- Joins only add rows, so what is not present now was not in `f`, and a navigation leads to it.
      have absent : (f.node n).isPresent = false :=
        Bool.eq_false_iff.2 fun h => by rw [onward n h] at hneeded; cases hneeded.2
      obtain ⟨edge, owner, hedge, howner⟩ := hf.absent (kept n (.inr (.head _))).1 absent
      have hmem := (first.1 owner howner).1
      have hjoin := joinNode_complete (M := M) (s := s) ((trees.node n).edge.trans hedge)
        ((trees.node n).parent.trans howner) (done owner hmem (closed n (.head _) hneeded.1 owner howner))
        ((trees.removed owner).trans (kept owner (.inl hmem)).2)
      simp only [Ends.bind_iff]
      refine (hjoin.and_runs fun _ _ hrun => joinNode_made hrun).both fun s₁ q _ made => ?_
      refine (ih first.2 kept' closed' (trees.trans made.trees)
        (fun k hk => (made.present k).2 (.inl (onward k hk))) fun k hk hneed => ?_).mono fun _ _ _ => trivial
      exact (made.present k).2 ((List.mem_cons.1 hk).elim .inr fun hk => .inl (done k hk hneed))
    · next hneeded =>
      refine ih first.2 kept' closed' trees onward fun k hk hneed => ?_
      rcases List.mem_cons.1 hk with rfl | hk
      · simpa [hneed] using hneeded
      · exact done k hk hneed

theorem joinSources_complete {sources : List SourceId} (hf : f.Rooted)
    (range : ∀ m ∈ sources, m.index < f.sources.length)
    (closed : ∀ m ∈ sources, ∀ n ∈ f.live (f.root m), n ∈ needed → ∀ q, (f.node n).parent = some q → q ∈ needed)
    (trees : f.SameTrees p.forest)
    (onward : ∀ n, (f.node n).isPresent = true → (p.forest.node n).isPresent = true) :
    Ends (·.isLeftover = false) (joinSources needed s sources) M p fun _ _ => True := by
  induction sources generalizing p s with
  | nil => trivial
  | cons m sources ih =>
    have hm := range m (.head _)
    simp only [joinSources, Ends.bind_iff, Ends.forest_iff]
    rw [trees.live]
    have hnodes := joinNodes_complete (M := M) (s := s) hf (hf.parentsFirst_live hm)
      (fun n hn => hf.of_mem_live hm (hn.resolve_left List.not_mem_nil)) (closed m (.head _)) trees onward
      fun _ hn => absurd hn List.not_mem_nil
    refine (hnodes.and_runs fun _ _ hrun => joinNodes_made hrun).both fun r q _ made => ?_
    exact (ih (fun k hk => range k (.tail _ hk)) (fun k hk => closed k (.tail _ hk)) (trees.trans made.trees)
      fun k hk => (made.present k).2 (.inl (onward k hk))).mono fun _ _ _ => trivial

/-- Where everything needed is present, nothing is joined. -/
theorem joinNodes_idle (h : ∀ n ∈ ns, n ∈ needed → (p.forest.node n).isPresent = true) :
    Runs (joinNodes needed s ns) M p (s, 0) p := by
  induction ns with
  | nil => exact Runs.pure_iff.2 ⟨rfl, rfl⟩
  | cons n ns ih =>
    have idle : (needed.contains n && !(p.forest.node n).isPresent) = false := by
      simpa using h n (.head _)
    simp only [joinNodes, Runs.bind_iff, Runs.node_iff]
    refine ⟨_, _, ⟨rfl, rfl⟩, ?_⟩
    rw [idle]
    exact ih fun k hk => h k (.tail _ hk)

theorem joinSources_idle {sources : List SourceId} (h : ∀ m ∈ sources, ∀ n ∈ p.forest.live (p.forest.root m),
    n ∈ needed → (p.forest.node n).isPresent = true) :
    Runs (joinSources needed s sources) M p (s, 0) p := by
  induction sources with
  | nil => exact Runs.pure_iff.2 ⟨rfl, rfl⟩
  | cons m sources ih =>
    simp only [joinSources, Runs.bind_iff, Runs.forest_iff, Runs.pure_iff]
    exact ⟨_, _, ⟨rfl, rfl⟩, _, _, joinNodes_idle (h m (.head _)), _, _,
      ih fun k hk => h k (.tail _ hk), rfl, rfl⟩

end Steps

section Needed

variable {sources : List SourceId}

/-- The expressions refer to the node, or to one below it. -/
def Forest.Needs (f : Forest) (sources : List SourceId) (es : List Expr) (n : NodeId) : Prop :=
  ∃ r ∈ es.flatMap rowRefs, r.source ∈ sources ∧ f.Above n r.node

/-- If the node is present, its parent is. -/
def Forest.ParentPresent (f : Forest) (n : NodeId) : Prop :=
  (f.node n).isPresent = true → ∀ q, (f.node n).parent = some q → (f.node q).isPresent = true

/-- The parent of what is needed is needed. -/
theorem Forest.Needs.parent (h : f.Needs sources es n) {q : NodeId} (hq : (f.node n).parent = some q) :
    f.Needs sources es q := by
  obtain ⟨r, hr, hsource, habove⟩ := h
  exact ⟨r, hr, hsource, habove.tail hq⟩

/-- The sources are those of a forest that operations have built, and what the expressions refer to in them
are nodes of their trees. -/
structure RefersWithin (f : Forest) (sources : List SourceId) (es : List Expr) : Prop where
  built : f.Built
  range : ∀ m ∈ sources, m.index < f.sources.length
  live : ∀ r ∈ es.flatMap rowRefs, r.source ∈ sources → ∃ m ∈ sources, r.node ∈ f.live (f.root m)

theorem mem_neededNodes :
    n ∈ neededNodes f sources es ↔ ∃ r ∈ es.flatMap rowRefs, r.source ∈ sources ∧ n ∈ f.lineage r.node := by
  simp only [neededNodes, List.mem_flatMap, List.mem_filter, List.contains_iff_mem, and_assoc]

namespace RefersWithin

theorem first (h : RefersWithin f sources es) {m : SourceId} (hm : m ∈ sources) :
    f.ParentsFirst [] (f.live (f.root m)) :=
  h.built.rooted.parentsFirst_live (h.range m hm)

theorem needs_iff (h : RefersWithin f sources es) : f.Needs sources es n ↔ n ∈ neededNodes f sources es := by
  rw [mem_neededNodes]
  refine exists_congr fun r => and_congr_right fun hr => and_congr_right fun hsource => ⟨fun habove => ?_, ?_⟩
  · obtain ⟨m, hm, hlive⟩ := h.live r hr hsource
    exact (habove.of_mem_live (h.first hm) hlive).2
  · exact Forest.above_of_mem_lineage

/-- What is needed is in the tree of a source. -/
theorem exists_live (h : RefersWithin f sources es) (hn : f.Needs sources es n) :
    ∃ m ∈ sources, n ∈ f.live (f.root m) := by
  obtain ⟨r, hr, hsource, habove⟩ := hn
  obtain ⟨m, hm, hlive⟩ := h.live r hr hsource
  exact ⟨m, hm, (habove.of_mem_live (h.first hm) hlive).1⟩

end RefersWithin

/-- From one point to the next, exactly what the expressions need has been joined into the rows of the
stream, with `k` joins. -/
structure JoinsNeeded (p : Progress) (s : Stream) (es : List Expr) (p' : Progress) (s' : Stream) (k : Nat) :
    Prop where
  size : p'.forest.size = p.forest.size
  live : ∀ m, p'.forest.live (p'.forest.root m) = p.forest.live (p.forest.root m)
  /-- What has become present is what was needed. -/
  present : ∀ n, (p'.forest.node n).isPresent = true ↔
    (p.forest.node n).isPresent = true ∨ p.forest.Needs s.sources es n
  count : (p.forest.absent \ p'.forest.absent).card = k
  joins : p'.tally.joins = p.tally.joins + k
  closed : ∀ n, p.forest.ParentPresent n → p'.forest.ParentPresent n
  /-- Nothing is left to do, whatever the catalog and the settings are. -/
  again : ∀ M, Runs (joinReferenced s' es) M p' (s', 0) p'

/-- If everything succeeds that is joined for expressions, exactly what they need has been joined. -/
theorem RefersWithin.joinsNeeded (h : RefersWithin p.forest s.sources es)
    (hrun : Runs (joinReferenced s es) M p (s', k) p') : JoinsNeeded p s es p' s' k := by
  simp only [joinReferenced, Runs.bind_iff, Runs.forest_iff, Runs.pure_iff, Prod.exists] at hrun
  obtain ⟨_, _, ⟨rfl, rfl⟩, s₁, l, q, hrun, heq, rfl⟩ := hrun
  obtain ⟨made, counted⟩ := joinSources_made hrun
  have present (n : NodeId) : (q.forest.node n).isPresent = true ↔
      (p.forest.node n).isPresent = true ∨ p.forest.Needs s.sources es n := by
    rw [made.present, ← h.needs_iff, and_iff_left_of_imp h.exists_live]
  have kept : q.forest.absent ⊆ p.forest.absent := fun i hi => by
    rw [show i = (⟨i⟩ : NodeId).index from rfl, Forest.mem_absent] at hi ⊢
    refine hi.imp (counted.size ▸ ·) fun absent => Bool.eq_false_iff.2 fun hp => ?_
    rw [(present _).2 (.inl hp)] at absent
    cases absent
  obtain ⟨hs', rfl⟩ := Prod.mk.inj heq
  have sources : s'.sources = s.sources := by
    rw [hs', ← made.sources]
    split <;> rfl
  refine ⟨counted.size, made.trees.live, present, ?_, counted.joins, fun n hn hp q' hq' => ?_, fun M => ?_⟩
  · rw [Finset.card_sdiff_of_subset kept]
    have := counted.absent
    omega
  · rw [(made.trees.node n).parent] at hq'
    refine (present q').2 ?_
    exact ((present n).1 hp).imp (fun hp => hn hp q' hq') fun hneeds => hneeds.parent hq'
  · simp only [joinReferenced, Runs.bind_iff, Runs.forest_iff, Runs.pure_iff, sources]
    refine ⟨_, _, ⟨rfl, rfl⟩, (s', 0), q, joinSources_idle fun m _ n _ hn => ?_, rfl, rfl⟩
    rw [made.trees.neededNodes, ← h.needs_iff] at hn
    exact (present n).2 (.inr hn)

/-- For expressions that refer to nodes in the trees of a stream's sources, joins never stop at a row that
cannot be joined, and if they succeed, exactly what is needed has been joined: the nodes that the expressions
refer to and all above them. -/
theorem joinReferenced_joinsNeeded (h : RefersWithin p.forest s.sources es) :
    (∀ cause, joinReferenced s es M p = .error cause → cause.isLeftover = false) ∧
      ∀ s' k p', Runs (joinReferenced s es) M p (s', k) p' → JoinsNeeded p s es p' s' k := by
  have complete : Ends (·.isLeftover = false) (joinReferenced s es) M p fun _ _ => True := by
    simp only [joinReferenced, Ends.bind_iff, Ends.forest_iff, Ends.pure_iff]
    refine joinSources_complete h.built.rooted h.range (fun m _ n _ hn q hq => ?_) (.refl _) fun _ hn => hn
    exact h.needs_iff.1 ((h.needs_iff.2 hn).parent hq)
  exact ⟨(Ends.iff_runs.1 complete).2, fun _ _ _ hrun => h.joinsNeeded hrun⟩

end Needed

namespace Shop

/-- Where customers are the rows of the only source, with their referrers and the referrers of these. -/
def twiceReferred : Progress where
  forest := (referred.forest.follow ⟨1⟩ referrer).2

/-- The name of the referrer's referrer. -/
def secondReferrer : Expr := .member (.rowRef ⟨⟨0⟩, ⟨2⟩, ["Referrer", "Referrer"]⟩) "Name"

theorem refersWithin_secondReferrer :
    RefersWithin twiceReferred.forest (customers [⟨0⟩]).sources [secondReferrer] where
  built := .follow (.follow (.addSource .empty _ _) _ _) _ _
  range := by decide
  live := by decide

end Shop

/-- Only the second referrer is mentioned, and both are joined. -/
theorem joinsNeeded_secondReferrer : ∃ s' p',
    Runs (joinReferenced (Shop.customers [⟨0⟩]) [Shop.secondReferrer]) ⟨Shop.catalog, {}⟩ Shop.twiceReferred
      (s', 2) p' ∧
    JoinsNeeded Shop.twiceReferred (Shop.customers [⟨0⟩]) [Shop.secondReferrer] p' s' 2 := by
  obtain ⟨⟨⟨s', k⟩, p'⟩, h, count⟩ := Except.exists_of_any
    (show (joinReferenced (Shop.customers [⟨0⟩]) [Shop.secondReferrer] ⟨Shop.catalog, {}⟩
      Shop.twiceReferred).toOption.any (fun done => done.1.2 == 2) = true by decide +kernel)
  obtain rfl : k = 2 := eq_of_beq count
  exact ⟨s', p', h, (joinReferenced_joinsNeeded Shop.refersWithin_secondReferrer).2 s' 2 p' h⟩

namespace Shop

/-- Customers, who are told apart by their referrer, and orders. -/
def referrerKeyed : List EntityType := [
  { name := "Customer"
    primaryKey := ["Referrer"]
    properties := [⟨"Referrer", .int, false⟩]
    navigations := [{ referrer with
      foreignKey := ["Referrer"], principalKey := ["Referrer"], isRequired := true }] },
  { name := "Order"
    primaryKey := ["Id"]
    properties := [⟨"Id", .int, false⟩, ⟨"CustomerId", .int, false⟩]
    navigations := [{ buyer with principalKey := ["Referrer"] }] }]

/-- For each order which orders have no buyer, read through a record. -/
def buyerless : Expr :=
  let all := Expr.call .select [.entitySet "Order",
    .lambda ["p"] (.binary .equal (.member (.param "p") "Buyer") (.const .null))] none
  .call .select [.call .select [.entitySet "Order", .lambda ["o"] (.record [("Unknown", all)])] none,
    .lambda ["x"] (.member (.param "x") "Unknown")] none

end Shop

/-- The comparison with null reads the buyer's key. When the record is read the key is taken for the
navigation that has its name, and that is needed by a stream that has had its joins. -/
theorem expandQuery_buyerless : Catalog.checked Shop.referrerKeyed = .ok ⟨Shop.referrerKeyed⟩ ∧
    expandQuery ⟨Shop.referrerKeyed⟩ {} Shop.buyerless =
      .error (.expansion (.leftoverRow .reduction ⟨⟨1⟩, ⟨3⟩, ["Buyer", "Referrer"]⟩)) :=
  ⟨by rfl, by cbv⟩

end EntityQuery
