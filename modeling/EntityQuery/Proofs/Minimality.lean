import EntityQuery.Proofs.JoinCounts
import EntityQuery.Proofs.Paths
import EntityQuery.Proofs.Resolution
import EntityQuery.Proofs.Roots
import EntityQuery.Proofs.Tables
import Mathlib.Order.Interval.Finset.Nat

/-!
# One join for each path

A filter or an ordering adds to the tree of its source the navigation paths that its lambda reads, and
joins exactly those that are new (`Counts.body`). So a query of such operators is expanded with one join
for each distinct path that its lambdas read, however often and in however many of them it is read
(`joins_expandQuery`).
-/

namespace EntityQuery

open EntityQuery.Expr

variable {M : Model} {p p' q : Progress} {entity x : String} {m : SourceId} {n : NodeId}
  {path : List String} {e e' row : Expr} {s s' : Stream} {recur : Recur}

section Bodies

/-- Comparing scalars reads rows that were read before, and leaves everything else alone. -/
theorem compareByKeys_scalars (flat : e.Flat) (scalars : ∀ d ∈ e.nodes, d.ComparesScalars)
    (h : Runs (compareByKeys e) M p e' p') :
    p = p' ∧ e'.isRef = e.isRef ∧ e'.Flat ∧ ∀ r ∈ e.rowRefs, r ∈ e'.rowRefs := by
  induction e using children_induction generalizing p p' e' with
  | step e ih =>
    have part {c : Expr} (hc : c ∈ e.children) {q q' : Progress} {c' : Expr}
        (h : Runs (compareByKeys c) M q c' q') :
        q = q' ∧ c'.isRef = c.isRef ∧ c'.Flat ∧ ∀ r ∈ c.rowRefs, r ∈ c'.rowRefs :=
      ih c hc (flat.child hc) (fun d hd => scalars d (mem_nodes_of_child hc hd)) h
    rw [compareByKeys_eq, Runs.bind_iff] at h
    obtain ⟨d, q, hparts, hnode⟩ := h
    obtain ⟨rfl, head⟩ := Runs.mapChildren_within Eq (fun _ => rfl) Eq.trans
      (fun c hc _ _ _ _ hrun => (part hc hrun).1) hparts
    have head : SameHead (fun c c' => c'.isRef = c.isRef ∧ c'.Flat ∧ ∀ r ∈ c.rowRefs, r ∈ c'.rowRefs) e d :=
      head.mono fun c c' ran => by
        obtain ⟨hc, _, _, _, _, hrun⟩ := ran
        exact (part hc hrun).2
    rcases head.sides? with ⟨-, hnone⟩ | ⟨op, a, b, a', b', he, hd, ha, hb⟩
    · simp only [compareNode, hnone, Runs.pure_iff] at hnode
      obtain ⟨rfl, rfl⟩ := hnode
      refine ⟨rfl, by cases head <;> rfl, flat_iff.2 ⟨head.isFlat.trans flat.self, fun c' hc' => ?_⟩,
        fun r hr => ?_⟩
      · obtain ⟨c, -, -, hflat, -⟩ := head.of_mem_children hc'
        exact hflat
      · rcases mem_rowRefs_iff.1 hr with rfl | ⟨c, hc, hr⟩
        · cases head
          exact hr
        · obtain ⟨c', hc', -, -, hrefs⟩ := head.to_mem_children hc
          exact mem_rowRefs_of_child hc' (hrefs r hr)
    · obtain ⟨hna, hnb⟩ := scalars e (self_mem_nodes e) _ _ _ he
      have plain {a a' : Expr} (h : a'.isRef = a.isRef) (hn : a.isRef = false) :
          (Operand.of p.forest a').isPlain = true := Operand.isPlain_of_not_ref (h.trans hn)
      simp only [compareNode, hd, Runs.compareSides_iff (.inl ⟨plain ha.1 hna, plain hb.1 hnb⟩)] at hnode
      obtain ⟨rfl, rfl⟩ := hnode
      have href : e.isRef = false := by cases e <;> first | rfl | cases he
      have sides {d : Expr} (hd : d.isRef = false) (hflat : d.isFlat = true)
          (hc : ∀ c ∈ d.children, c.Flat) (ha' : a' ∈ d.children) (hb' : b' ∈ d.children) :
          d.isRef = e.isRef ∧ d.Flat ∧ ∀ r ∈ e.rowRefs, r ∈ d.rowRefs := by
        refine ⟨hd.trans href.symm, flat_iff.2 ⟨hflat, hc⟩, fun r hr => ?_⟩
        rcases mem_rowRefs_iff.1 hr with rfl | ⟨c, hc, hr⟩
        · cases href
        · rw [children_of_sides? he] at hc
          rcases List.mem_cons.1 hc with rfl | hc
          · exact mem_rowRefs_of_child ha' (ha.2.2 r hr)
          · obtain rfl := List.mem_singleton.1 hc
            exact mem_rowRefs_of_child hb' (hb.2.2 r hr)
      rcases plainEquality_cases M.settings p.forest op a' b' with heq | ⟨guards, heq, -⟩ <;> rw [heq]
      · exact ⟨rfl, sides rfl rfl (by simp [children, ha.2.1, hb.2.1]) (by simp [children]) (by simp [children])⟩
      · refine ⟨rfl, sides rfl rfl (fun c hc => ?_) (by simp [children]) (by simp [children])⟩
        simp only [children, List.mem_append, List.mem_map, List.mem_cons, List.not_mem_nil, or_false] at hc
        rcases hc with ⟨r, -, rfl⟩ | rfl | rfl
        · refine flat_iff.2 ⟨rfl, fun c hc => ?_⟩
          cases hc
        · exact ha.2.1
        · exact hb.2.1

/-- What a body over the root of the tree is made ready to. -/
theorem prepareBody_paths (body : e.ReadsSingleRows M.catalog entity x)
    (tree : p.forest.Tree M.catalog entity m)
    (h : Runs (prepareBody recur (e.substitute x (p.forest.ref (p.forest.root m)))) M p e' p') :
    BindsAt M.catalog entity m (· ∈ e.chains x) p p' ∧ e'.Flat ∧
      ∀ path ∈ e.chains x, (M.catalog.destination? entity path).isSome = true →
        ∃ n, p'.forest.nodeAt? m path = some n ∧ n ∈ neededNodes p'.forest [m] [e'] := by
  simp only [prepareBody, rewriteBody, filterCollections, Runs.bind_iff, Runs.forest_iff] at h
  obtain ⟨_, _, ⟨e₁, q, hbind, e₂, _, hcompare, _, _, ⟨rfl, rfl⟩, hfilter⟩, hexpand⟩ := h
  obtain ⟨grown, bound⟩ := bind_paths body tree rfl hbind
  obtain ⟨rfl, -, flat, reads⟩ := compareByKeys_scalars bound.flat bound.scalars hcompare
  have single : ∀ d ∈ e₂.nodes, collectionAt q.forest d = none := by
    intro d _
    unfold collectionAt
    split
    · rw [if_neg (by simp [grown.tree.single])]
    · rw [if_neg (by simp [grown.tree.single])]
    · rfl
  have noQuery : ∀ d ∈ e₂.nodes, subqueryAt recur d = none := by
    intro d hd
    have := flat d hd
    cases d <;> first | rfl | cases this
  obtain ⟨rfl, rfl⟩ := Runs.descend_unchanged single hfilter
  obtain ⟨rfl, rfl⟩ := Runs.descend_unchanged noQuery hexpand
  refine ⟨grown, flat, fun path hpath hdest => ?_⟩
  obtain ⟨n, k, hn, hk, hrange, habove⟩ := bound.reads hpath hdest
  refine ⟨n, hn, List.mem_flatMap.2 ⟨⟨(q.forest.node k).source, k, q.forest.memberPath k⟩, ?_, habove⟩⟩
  simpa [grown.tree.source hrange] using reads _ (mem_rowRefs.2 hk)

/-- Resolving makes nothing of a flat expression that is not flat. -/
theorem flat_resolution (f : Forest) : Resolution f fun _ e e' => e.Flat → e'.Flat where
  parts _ head he := by
    refine flat_iff.2 ⟨head.isFlat.trans he.self, fun c' hc' => ?_⟩
    obtain ⟨c, hc, -, h⟩ := head.of_mem_children hc'
    exact h (he.child hc)
  kept _ h := h
  keptMember _ h := h
  row _ _ _ := readPath_flat _ _
  entity _ _ _ := flat_iff.2 ⟨rfl, by simpa [children] using readPath_flat _ _⟩
  property _ _ _ := flat_iff.2 ⟨rfl, by simpa [children] using readPath_flat _ _⟩
  guarded hguards hleft hright h := by
    refine flat_iff.2 ⟨rfl, fun c' hc' => ?_⟩
    rcases List.mem_append.1 hc' with hc' | hc'
    · obtain ⟨c, hc, ⟨hcc, -⟩ | ⟨_, _, -, -, -, rfl⟩⟩ := exists_of_mem_right hguards hc'
      · exact hcc (h.child (List.mem_append_left _ hc))
      · exact readPath_flat _ _
    · rcases List.mem_cons.1 hc' with rfl | hc'
      · exact hleft (h.child (by simp [children]))
      · obtain rfl := List.mem_singleton.1 hc'
        exact hright (h.child (by simp [children]))
  lambda _ _ h := nomatch h.self
  renamed _ _ h := nomatch h.self
  projected _ _ _ _ h := nomatch h.self
  unprojected _ _ h := nomatch h.self

end Bodies

section Joining

/-- A join leaves the nodes of the tree where they are. -/
theorem joinNode_tree (tree : p.forest.Tree M.catalog entity m) (hs : s.sources = [m])
    (h : Runs (joinNode s n) M p s' p') : p'.forest.Tree M.catalog entity m ∧ s'.sources = [m] ∧
      ∀ path, p'.forest.nodeAt? m path = p.forest.nodeAt? m path := by
  obtain ⟨_, _, _, _, _, _, note, _, q, found, rfl, hforest, -⟩ := Runs.joinNode h
  rw [hs, (Runs.keyedJoin_cases found.joined).1] at hforest
  have later := (Forest.later_wrap p.forest note.kind.wrapPath m).trans
    (Forest.later_makePresent (n := n) [innerField] (tree.single n))
  have children (k : NodeId) : (p'.forest.node k).children = (p.forest.node k).children := by
    rw [hforest, Forest.makePresent]
    rcases Forest.node_modifyNode (p.forest.wrap note.kind.wrapPath m) n k _ with heq | ⟨rfl, -, heq⟩
    · exact congrArg Node.children heq
    · exact (congrArg Node.children heq).trans rfl
  obtain ⟨tree', same⟩ := tree.later (hforest ▸ later) children
  exact ⟨tree', hs, same⟩

theorem joinReferenced_tree (tree : p.forest.Tree M.catalog entity m) (hs : s.sources = [m]) {es : List Expr}
    {k : Nat} (h : Runs (joinReferenced s es) M p (s', k) p') : p'.forest.Tree M.catalog entity m ∧
      ∀ path, p'.forest.nodeAt? m path = p.forest.nodeAt? m path := by
  obtain ⟨tree', -, same⟩ := joinReferenced_keeps
    (P := fun q s => q.forest.Tree M.catalog entity m ∧ s.sources = [m] ∧
      ∀ path, q.forest.nodeAt? m path = p.forest.nodeAt? m path)
    (fun kept hjoin => by
      obtain ⟨tree, hs, same⟩ := kept
      obtain ⟨tree', hs', same'⟩ := joinNode_tree tree hs hjoin
      exact ⟨tree', hs', fun path => (same' path).trans (same path)⟩)
    (fun h => h) h ⟨tree, hs, fun _ => rfl⟩
  exact ⟨tree', same⟩

end Joining

section Operators

/-- The navigation paths among the chains of a lambda. -/
def Catalog.pathsRead (c : Catalog) (entity x : String) (body : Expr) : List (List String) :=
  (body.chains x).filter fun path => path ≠ [] ∧ (c.destination? entity path).isSome = true

theorem Catalog.mem_pathsRead {c : Catalog} : path ∈ c.pathsRead entity x e ↔
    path ∈ e.chains x ∧ path ≠ [] ∧ (c.destination? entity path).isSome = true := by
  simp [pathsRead]

/-- What is known after operators that read the given paths: the tree has a node for each of them, and
nothing else but its root; all nodes are present, and every one but the root has been counted and joined. -/
structure Counts (c : Catalog) (entity : String) (m : SourceId) (paths : List (List String)) (p : Progress)
    (s : Stream) : Prop where
  tree : p.forest.Tree c entity m
  located : ∀ {path}, (p.forest.nodeAt? m path).isSome = true ↔ path ∈ [] :: paths
  present : ∀ {n : NodeId}, n.index < p.forest.size → (p.forest.node n).isPresent = true
  bound : p.tally.nodesBound + 1 = p.forest.size
  joins : p.tally.joins + 1 = p.forest.size
  rows : s.rows.joins + 1 = p.forest.size
  plain : s.rows.hasStream = false
  sources : s.sources = [m]
  selector : s.selector = p.forest.ref (p.forest.root m)

namespace Counts

variable {paths : List (List String)}

section Bodies

variable {l : Nat} (h : Counts M.catalog entity m paths p s)
  (grown : BindsAt M.catalog entity m (· ∈ e.chains x) p q)
include h grown

/-- A body adds the navigation paths that it reads. -/
theorem located_of_body (reads : ∀ path ∈ e.chains x, (M.catalog.destination? entity path).isSome = true →
      (q.forest.nodeAt? m path).isSome = true) :
    (q.forest.nodeAt? m path).isSome = true ↔ path ∈ [] :: (paths ++ M.catalog.pathsRead entity x e) := by
  rw [List.mem_cons, List.mem_append, Catalog.mem_pathsRead]
  constructor
  · intro hq
    rcases grown.only hq with hp | hpath
    · rcases List.mem_cons.1 (h.located.1 hp) with rfl | hmem
      · exact .inl rfl
      · exact .inr (.inl hmem)
    · obtain ⟨n, hn⟩ := Option.isSome_iff_exists.1 hq
      exact or_iff_not_imp_left.2 fun hne => .inr ⟨hpath, hne, grown.tree.destination_isSome hn⟩
  · rintro (rfl | hpath | ⟨hpath, -, hdest⟩)
    · rfl
    · obtain ⟨n, hn⟩ := Option.isSome_iff_exists.1 (h.located.2 (.tail _ hpath))
      rw [grown.kept hn]
      rfl
    · exact reads path hpath hdest

/-- Old nodes are present, so what is not yet are the nodes that the body has added. -/
theorem absent_of_body : q.forest.absent.card + p.forest.size = q.forest.size := by
  have new : q.forest.absent = Finset.Ico p.forest.size q.forest.size := by
    ext i
    rw [show i = (⟨i⟩ : NodeId).index from rfl, Forest.mem_absent, Finset.mem_Ico, and_comm]
    refine and_congr_left fun _ => ⟨fun habsent => Nat.le_of_not_lt fun hold => ?_, grown.absent⟩
    rw [grown.present hold, h.present hold] at habsent
    cases habsent
  rw [new, Nat.card_Ico]
  exact Nat.sub_add_cancel grown.grows.size

/-- The new nodes are present once everything is joined that the body needs. -/
theorem present_of_body {needed : List NodeId} (counted : JoinsCounted q s p' s' l)
    (joined : ∀ n ∈ q.forest.live (q.forest.root m), n ∈ needed → (p'.forest.node n).isPresent = true)
    (reads : ∀ path ∈ e.chains x, (M.catalog.destination? entity path).isSome = true →
      ∃ n, q.forest.nodeAt? m path = some n ∧ n ∈ needed)
    (hn : n.index < q.forest.size) : (p'.forest.node n).isPresent = true := by
  by_cases hold : n.index < p.forest.size
  · exact counted.present ((grown.present hold).trans (h.present hold))
  · have hloc := grown.tree.reached hn
    rcases grown.only (by rw [hloc]; rfl) with hp | hpath
    · obtain ⟨k, hk⟩ := Option.isSome_iff_exists.1 hp
      obtain rfl := Option.some.inj ((grown.kept hk).symm.trans hloc)
      exact absurd (Forest.memberPath_of_nodeAt? h.tree.sound h.tree.range hk).1 hold
    · obtain ⟨k, hk, hneeded⟩ := reads _ hpath (grown.tree.destination_isSome hloc)
      obtain rfl := Option.some.inj (hk.symm.trans hloc)
      exact joined k (grown.tree.mem_live hn) hneeded

end Bodies

/-- What is joined for a body are the nodes that the body has added. -/
theorem joinBody (h : Counts M.catalog entity m paths p s) (body : e.ReadsSingleRows M.catalog entity x)
    {b : JoinedBody} (hrun : Runs (EntityQuery.joinBody recur s x e) M p b p') :
    Counts M.catalog entity m (paths ++ M.catalog.pathsRead entity x e) p' b.stream ∧ b.body.Flat := by
  obtain ⟨q, s', k, hprepare, hreferenced, hs'⟩ := Runs.joinBody hrun
  rw [h.selector] at hprepare
  obtain ⟨grown, flat, reads⟩ := prepareBody_paths body h.tree hprepare
  obtain ⟨l, counted, joined⟩ := joinReferenced_counted h.sources hreferenced
  obtain ⟨tree, same⟩ := joinReferenced_tree grown.tree h.sources hreferenced
  have present {n : NodeId} (hn : n.index < p'.forest.size) : (p'.forest.node n).isPresent = true :=
    h.present_of_body grown counted joined reads (counted.size ▸ hn)
  have all : p'.forest.absent.card = 0 := by
    refine Finset.card_eq_zero.2 (Finset.eq_empty_of_forall_notMem fun i hi => ?_)
    obtain ⟨hrange, habsent⟩ := (Forest.mem_absent (n := ⟨i⟩)).1 hi
    rw [present hrange] at habsent
    cases habsent
  have hnew := h.absent_of_body grown
  have hjoined := counted.absent
  have hframe : b.stream.rows = s'.rows ∧ b.stream.sources = s'.sources ∧ b.stream.selector = s'.selector := by
    rcases hs' with heq | heq <;> rw [heq] <;> exact ⟨rfl, rfl, rfl⟩
  obtain ⟨hrows, hsources, hselector⟩ := hframe
  refine ⟨⟨tree, ?_, present, ?_, ?_, ?_, ?_, ?_, ?_⟩, flat⟩
  · intro path
    rw [same]
    refine h.located_of_body grown fun path hpath hdest => ?_
    obtain ⟨n, hn, -⟩ := reads path hpath hdest
    rw [hn]
    rfl
  · have := grown.bound
    have := h.bound
    rw [counted.bound, counted.size]
    omega
  · have := h.joins
    rw [counted.joins, grown.joins, counted.size]
    omega
  · have := h.rows
    rw [hrows, counted.rows, counted.size]
    omega
  · rw [hrows]
    exact counted.plain h.plain
  · rw [hsources, counted.sources, h.sources]
  · have root : p'.forest.root m = q.forest.root m := Option.some.inj (same [])
    rw [hselector, counted.selector, h.selector, ← grown.root h.tree, tree.ref_root, grown.tree.ref_root, root]

/-- Names may be generated, and the frame of the stream may change. -/
theorem reframe (h : Counts M.catalog entity m paths p s) (hforest : p'.forest = p.forest)
    (htally : p'.tally = p.tally) (hrows : s'.rows.joins = s.rows.joins)
    (hplain : s'.rows.hasStream = false) (hsources : s'.sources = s.sources)
    (hselector : s'.selector = s.selector) : Counts M.catalog entity m paths p' s' := by
  obtain ⟨tree, located, present, bound, joins, rows, -, sources, selector⟩ := h
  rw [← hforest] at tree located present bound joins rows selector
  exact ⟨tree, located, present, htally ▸ bound, htally ▸ joins, hrows ▸ rows, hplain,
    hsources.trans sources, hselector.trans selector⟩

theorem resolvedBody (h : Counts M.catalog entity m paths p s) (body : e.ReadsSingleRows M.catalog entity x)
    {b : JoinedBody} (hrun : Runs (EntityQuery.resolvedBody recur s x e) M p b p') :
    Counts M.catalog entity m (paths ++ M.catalog.pathsRead entity x e) p' b.stream ∧ b.body.Flat := by
  obtain ⟨b₀, q, hjoin, hresolve, hstream, -⟩ := Runs.resolvedBody hrun
  obtain ⟨counts, flat⟩ := h.joinBody body hjoin
  obtain ⟨hforest, -, hflat⟩ := (flat_resolution q.forest).resolve rfl hresolve
  have htally := (Ends.iff_runs.1 ((ReadsRows.tally M q.tally).resolve b₀.stream.scope b₀.body rfl)).1 _ _ hresolve
  rw [hstream]
  exact ⟨counts.reframe hforest htally rfl counts.plain rfl rfl, hflat flat⟩

/-- A filter or an ordering whose lambda is brought over the rows. -/
theorem operator (h : Counts M.catalog entity m paths p s)
    (body : e.ReadsSingleRows M.catalog entity x) {b : JoinedBody} {op : Operator} {ordered : Bool}
    (hrun : Runs (EntityQuery.resolvedBody recur s x e) M p b p') :
    Counts M.catalog entity m (paths ++ M.catalog.pathsRead entity x e) p'
      { b.stream with rows := .call op [b.stream.rows, b.toLambda] none, ordered } := by
  obtain ⟨counts, flat⟩ := h.resolvedBody body hrun
  refine counts.reframe rfl rfl ?_ (hasStream_call ?_) rfl rfl
  · rw [joins_eq]
    simp [children, joinNote?, JoinedBody.toLambda, joins_lambda, flat.joins]
  · simp [counts.plain, JoinedBody.toLambda, hasStream_lambda flat.hasStream]

/-- The rows of a set have been bound and joined to nothing. -/
theorem root (hrun : Runs (rootStream entity) M {} s p) : Counts M.catalog entity ⟨0⟩ [] p s := by
  simp only [rootStream, Runs.bind_iff, Runs.entityType_iff, Runs.growForest_iff, Runs.forest_iff,
    Runs.ref_iff, Runs.pure_iff] at hrun
  obtain ⟨t, _, ⟨ht, rfl⟩, m, q, ⟨rfl, rfl⟩, f, _, ⟨rfl, rfl⟩, d, _, ⟨rfl, rfl⟩, rfl, rfl⟩ := hrun
  obtain ⟨-, sound, -⟩ := Forest.addSource_spec (Forest.empty_sound M.catalog) ht
  have only {n : NodeId} (hn : n.index < 1) : n = ⟨0⟩ := by
    cases n
    exact congrArg NodeId.mk (Nat.lt_one_iff.1 hn)
  have leaf (path : List String) (n : NodeId)
      (hn : (Forest.empty.addSource (some entity) false).2.nodeAt? ⟨0⟩ path = some n) : path = [] := by
    cases path with
    | nil => rfl
    | cons name path => cases hn
  refine ⟨⟨sound, Nat.one_pos, rfl, fun n => ?_, fun {n} hn => ?_⟩, fun {path} => ?_, fun {n} hn => ?_, rfl,
    rfl, rfl, rfl, rfl, rfl⟩
  · rcases Nat.lt_or_ge n.index 1 with hn | hn
    · obtain rfl := only hn
      rfl
    · exact congrArg Node.isCollection
        (Forest.node_of_size_le (f := (Forest.empty.addSource (some entity) false).2) hn)
  · obtain rfl := only hn
    exact congrArg (Forest.nodeAt? _ _) (Forest.memberPath_top sound hn rfl)
  · rw [List.mem_singleton]
    refine ⟨fun h => ?_, fun h => h ▸ rfl⟩
    obtain ⟨n, hn⟩ := Option.isSome_iff_exists.1 h
    exact leaf path n hn
  · obtain rfl := only hn
    rfl

/-- What is left of a query when its stream is reduced are its joins. -/
theorem reduce (h : Counts M.catalog entity m paths p s)
    (hrun : Runs (EntityQuery.reduce s.toExpr) M p e p') :
    e.joins + 1 = p.forest.size ∧ p'.tally = p.tally := by
  refine ⟨?_, (Ends.iff_runs.1 ((ReadsRows.tally M p.tally).reduce s.toExpr rfl)).1 _ _ hrun⟩
  have query (rows : Expr) (selector? : Option Expr) (hsel : ∀ d ∈ selector?, d.joins = 0) :
      (s.query rows selector?).joins = rows.joins := by
    have wrap (op : Operator) (rest : List Expr) (hrest : ∀ d ∈ rest, d.joins = 0) (rows : Expr) :
        (Expr.call op (rows :: rest) none).joins = rows.joins := by
      rw [joins_eq, children, List.map_cons, List.sum_cons,
        List.sum_eq_zero_iff_forall_eq_nat.2 (by simpa using hrest)]
      simp [joinNote?]
    have projected : ∀ d ∈ selector?, (Expr.call .select [rows, d] none).joins = rows.joins :=
      fun d hd => wrap _ _ (by simpa using hsel d hd) _
    cases selector? with
    | none =>
      unfold StreamFrame.query
      cases s.cardinality with
      | none => rfl
      | some op => exact wrap op [] (by simp) _
    | some d =>
      unfold StreamFrame.query
      cases s.cardinality with
      | none => exact projected d rfl
      | some op => exact (wrap op [] (by simp) _).trans (projected d rfl)
  rw [Stream.toExpr, EntityQuery.reduce] at hrun
  simp only [Runs.bind_iff, Runs.forest_iff] at hrun
  obtain ⟨_, _, ⟨rfl, rfl⟩, hrun⟩ := hrun
  split at hrun
  · simp only [Runs.bind_iff, Runs.pure_iff] at hrun
    obtain ⟨body, q₁, hbody, rows, q₂, hrows, _, _, -, rfl, rfl⟩ := hrun
    obtain ⟨-, -, flat⟩ := (flat_resolution p.forest).resolve rfl hbody
    obtain ⟨rfl, -⟩ := reduce_plain h.plain hrows
    rw [query, h.rows]
    intro d hd
    obtain rfl := Option.some.inj hd
    rw [joins_lambda, (flat ?_).joins]
    rw [h.selector]
    exact flat_iff.2 ⟨rfl, fun c hc => by cases hc⟩
  · simp only [Runs.bind_iff, Runs.pure_iff] at hrun
    obtain ⟨rows, q₁, hrows, rfl, rfl⟩ := hrun
    obtain ⟨rfl, -⟩ := reduce_plain h.plain hrows
    rw [query _ _ (by simp), h.rows]

end Counts

end Operators

/-- A set with filters and orderings applied to it one after the other, each with its lambda. -/
inductive RowWiseQuery (entity : String) : Expr → List (String × Expr) → Prop where
  | set : RowWiseQuery entity (.entitySet entity) []
  | operator {op : Operator} {source : Expr} {lambdas : List (String × Expr)}
    (known : op ∈ [.filter, .orderBy, .orderByDescending]) (h : RowWiseQuery entity source lambdas)
    (x : String) (body : Expr) :
    RowWiseQuery entity (.call op [source, .lambda [x] body] none) (lambdas ++ [(x, body)])

/-- The navigation paths that lambdas over rows of an entity read. -/
def Catalog.pathsReadBy (c : Catalog) (entity : String) (lambdas : List (String × Expr)) :
    List (List String) :=
  lambdas.flatMap fun (x, body) => c.pathsRead entity x body

theorem expandWithin_counts {lambdas : List (String × Expr)} {k : Nat} (he : RowWiseQuery entity e lambdas)
    (bodies : ∀ l ∈ lambdas, l.2.ReadsSingleRows M.catalog entity l.1)
    (hrun : Runs (expandWithin k e) M {} e' p) : ∃ s, e' = s.toExpr ∧
      Counts M.catalog entity ⟨0⟩ (M.catalog.pathsReadBy entity lambdas) p s := by
  induction he generalizing k e' p with
  | set =>
    obtain ⟨_, s, hroot, rfl⟩ := Runs.expandWithin_toExpr (fun _ => rfl) hrun
    exact ⟨s, rfl, .root hroot⟩
  | @operator op source lambdas known _ x body ih =>
    have earlier {k : Nat} {s : Stream} {q : Progress} (h : Runs (expandWithin k source) M {} s.toExpr q) :
        Counts M.catalog entity ⟨0⟩ (M.catalog.pathsReadBy entity lambdas) q s := by
      obtain ⟨s', heq, counts⟩ := ih (fun l hl => bodies l (List.mem_append_left _ hl)) h
      exact Stream.toExpr_inj heq ▸ counts
    have reads := bodies (x, body) (List.mem_append_right _ (.head _))
    have paths : M.catalog.pathsReadBy entity (lambdas ++ [(x, body)]) =
        M.catalog.pathsReadBy entity lambdas ++ M.catalog.pathsRead entity x body := by
      simp [Catalog.pathsReadBy]
    rw [paths]
    simp only [List.mem_cons, List.not_mem_nil, or_false] at known
    rcases known with rfl | hop
    · obtain ⟨k, s, hfilter, rfl⟩ := Runs.expandWithin_toExpr
        (x := fun k => expandFilter (expandWithin k) source (.lambda [x] body) none) (fun _ => rfl) hrun
      obtain ⟨s₀, q, b, hsource, hbody, rfl⟩ := Runs.expandFilter hfilter
      exact ⟨_, rfl, (earlier hsource).operator reads hbody⟩
    · obtain ⟨k, s, horder, rfl⟩ := Runs.expandWithin_toExpr
        (x := fun k => expandOrderBy (expandWithin k) op source (.lambda [x] body))
        (by rcases hop with rfl | rfl <;> exact fun _ => rfl) hrun
      obtain ⟨s₀, q, b, hsource, hbody, rfl⟩ := Runs.expandOrderBy horder
      exact ⟨_, rfl, (earlier hsource).operator reads hbody⟩

/-- A query of filters and orderings whose lambdas read single rows is expanded with one join, counted
once, for each distinct navigation path that is read. -/
theorem joins_expandQuery {c : Catalog} {settings : Settings} {lambdas : List (String × Expr)}
    {q : ExpandedQuery} (he : RowWiseQuery entity e lambdas)
    (bodies : ∀ l ∈ lambdas, l.2.ReadsSingleRows c entity l.1) (h : expandQuery c settings e = .ok q) :
    q.query.joins = (c.pathsReadBy entity lambdas).dedup.length ∧
      q.tally.joins = (c.pathsReadBy entity lambdas).dedup.length ∧
      q.tally.nodesBound = (c.pathsReadBy entity lambdas).dedup.length := by
  obtain ⟨k, d, p, p', hexpand, hreduce, htally⟩ := Runs.of_expandQuery_tally h
  obtain ⟨s, rfl, counts⟩ := expandWithin_counts he bodies hexpand
  obtain ⟨hjoins, hkept⟩ := counts.reduce hreduce
  have size := counts.tree.size_eq fun _ => counts.located
  have noRoot : [] ∉ c.pathsReadBy entity lambdas := by
    simp [Catalog.pathsReadBy, Catalog.mem_pathsRead]
  rw [List.dedup_cons_of_notMem noRoot, List.length_cons] at size
  rw [htally, hkept]
  refine ⟨?_, ?_, ?_⟩
  · omega
  · have := counts.joins
    omega
  · have := counts.bound
    omega

/-- Orders of buyers that Ann has referred, or whose names are Ann's, in the order of the buyers'
referrers. -/
def Shop.orderLambdas : List (String × Expr) :=
  let buyer (x : String) : Expr := .member (.param x) "Buyer"
  let isAnn (e : Expr) : Expr := .eq (.member e "Name") (.string "Ann")
  [("o", .binary .or (isAnn (.member (buyer "o") "Referrer")) (isAnn (buyer "o"))),
    ("p", .member (.member (buyer "p") "Referrer") "Id")]

def Shop.annsOrders : Expr :=
  .call .orderBy [.call .filter [.entitySet "Order", .lambda ["o"] (Shop.orderLambdas.getD 0 default).2] none,
    .lambda ["p"] (Shop.orderLambdas.getD 1 default).2] none

/-- Buyers and their referrers are read three times and joined once each. -/
theorem joins_annsOrders : ∃ q, expandQuery Shop.catalog {} Shop.annsOrders = .ok q ∧ q.query.joins = 2 ∧
    q.tally.joins = 2 ∧ q.tally.nodesBound = 2 := by
  obtain ⟨q, hq⟩ := Except.exists_of_isSome
    (show (expandQuery Shop.catalog {} Shop.annsOrders).toOption.isSome = true by decide +kernel)
  have query : RowWiseQuery "Order" Shop.annsOrders Shop.orderLambdas :=
    .operator (by decide) (.operator (by decide) .set "o" _) "p" _
  have bodies : ∀ l ∈ Shop.orderLambdas, l.2.ReadsSingleRows Shop.catalog "Order" l.1 := by
    intro l hl
    refine ⟨?_, ?_, ?_, ?_⟩ <;> revert l <;> decide +kernel
  exact ⟨q, hq, joins_expandQuery query bodies hq⟩

end EntityQuery
