import EntityQuery.Proofs.Binding
import EntityQuery.Proofs.Ends
import EntityQuery.Proofs.Rewriting
import EntityQuery.Proofs.Scalars
import EntityQuery.Proofs.Trees

/-!
# The paths that a body reads

A body without queries of its own reads the rows of its parameter along member chains. Binding it puts the
navigation paths among them into the tree and nothing else (`BindsAt`), and leaves a reference to each of
them, or to a row below it (`BindsTo`).
-/

namespace EntityQuery

open EntityQuery.Expr

variable {M : Model} {p p' q : Progress} {entity x name : String} {m : SourceId} {n : NodeId}
  {path : List String} {e e' : Expr} {P Q : List String → Prop}

section Chains

/-- The members of a chain that starts at a parameter. -/
def Expr.chain? (x : String) : Expr → Option (List String)
  | .param y => if y = x then some [] else none
  | .member target name => (target.chain? x).map (· ++ [name])
  | _ => none

/-- The members of all chains that start at a parameter. A chain is listed with every one that it goes on
from. -/
def Expr.chains (x : String) (e : Expr) : List (List String) := e.nodes.filterMap (chain? x)

theorem Expr.mem_chains_iff :
    path ∈ e.chains x ↔ e.chain? x = some path ∨ ∃ c ∈ e.children, path ∈ c.chains x := by
  simp only [chains, List.mem_filterMap]
  exact exists_nodes_iff

/-- Neither side of the node is a reference, if it is an equality. -/
def Expr.ComparesScalars (e : Expr) : Prop :=
  ∀ op a b, e.sides? = some (op, a, b) → a.isRef = false ∧ b.isRef = false

/-- The navigation that the last member of a path leads along. -/
def Catalog.lastEdge? (c : Catalog) (entity : String) (path : List String) : Option NavigationEdge :=
  (c.destination? entity path.dropLast).bind fun owner => path.getLast?.bind (c.navigation? owner)

/-- Whether an operand is an entity: a chain of navigations from the parameter. -/
def Catalog.isEntityOperand (c : Catalog) (entity x : String) (a : Expr) : Bool :=
  (a.chain? x).any fun path => (c.destination? entity path).isSome

theorem Catalog.isEntityOperand_iff {c : Catalog} : c.isEntityOperand entity x e = true ↔
    ∃ path, e.chain? x = some path ∧ (c.destination? entity path).isSome = true := by
  rw [isEntityOperand, Option.any_eq_true]

/-- What a body is that reads single rows: it holds no queries and no records, compares no entities, and
none of its chains leads to a collection. -/
structure Expr.ReadsSingleRows (c : Catalog) (entity x : String) (body : Expr) : Prop where
  flat : body.Flat
  written : body.rowRefs = []
  single : ∀ path ∈ body.chains x, ∀ edge ∈ c.lastEdge? entity path, edge.isCollection = false
  scalars : ∀ d ∈ body.nodes, ∀ sides ∈ d.sides?,
    c.isEntityOperand entity x sides.2.1 = false ∧ c.isEntityOperand entity x sides.2.2 = false

theorem Expr.ReadsSingleRows.single_edge {c : Catalog} {owner : String} {edge : NavigationEdge}
    (h : e.ReadsSingleRows c entity x) (hpath : path ++ [name] ∈ e.chains x)
    (howner : c.destination? entity path = some owner) (hedge : c.navigation? owner name = some edge) :
    edge.isCollection = false := by
  refine h.single _ hpath edge ?_
  simp [Catalog.lastEdge?, howner, hedge]

theorem Expr.ReadsSingleRows.child {c : Catalog} {d : Expr} (h : e.ReadsSingleRows c entity x)
    (hd : d ∈ e.children) : d.ReadsSingleRows c entity x where
  flat := h.flat.child hd
  written := List.eq_nil_iff_forall_not_mem.2 fun r hr =>
    List.eq_nil_iff_forall_not_mem.1 h.written r (mem_rowRefs_of_child hd hr)
  single path hpath := h.single path (mem_chains_iff.2 (.inr ⟨d, hd, hpath⟩))
  scalars d' hd' := h.scalars d' (mem_nodes_of_child hd hd')

end Chains

section Growth

/-- Binding has put nodes at some of the given paths into the tree, none of which is present, and has
counted them. -/
structure BindsAt (c : Catalog) (entity : String) (m : SourceId) (P : List String → Prop)
    (p q : Progress) : Prop where
  tree : q.forest.Tree c entity m
  grows : p.forest.Grows q.forest
  kept : ∀ {path n}, p.forest.nodeAt? m path = some n → q.forest.nodeAt? m path = some n
  only : ∀ {path}, (q.forest.nodeAt? m path).isSome = true →
    (p.forest.nodeAt? m path).isSome = true ∨ P path
  bound : q.tally.nodesBound + p.forest.size = p.tally.nodesBound + q.forest.size
  joins : q.tally.joins = p.tally.joins
  present : ∀ {n}, n.index < p.forest.size → (q.forest.node n).isPresent = (p.forest.node n).isPresent
  absent : ∀ {n}, p.forest.size ≤ n.index → (q.forest.node n).isPresent = false

namespace BindsAt

variable {c : Catalog}

theorem refl (h : p.forest.Tree c entity m) (P : List String → Prop) : BindsAt c entity m P p p where
  tree := h
  grows := .refl _
  kept h := h
  only h := .inl h
  bound := rfl
  joins := rfl
  present _ := rfl
  absent hn := by
    rw [Forest.node_of_size_le hn]
    rfl

theorem trans (h : BindsAt c entity m P p p') (k : BindsAt c entity m P p' q) :
    BindsAt c entity m P p q where
  tree := k.tree
  grows := h.grows.trans k.grows
  kept hn := k.kept (h.kept hn)
  only hn := (k.only hn).elim h.only .inr
  bound := by have := h.bound; have := k.bound; omega
  joins := k.joins.trans h.joins
  present hn := (k.present (Nat.lt_of_lt_of_le hn h.grows.size)).trans (h.present hn)
  absent {n} hn := by
    by_cases hlt : n.index < p'.forest.size
    · rw [k.present hlt, h.absent hn]
    · exact k.absent (Nat.le_of_not_lt hlt)

theorem mono (h : BindsAt c entity m P p q) (k : ∀ path, P path → Q path) : BindsAt c entity m Q p q :=
  { h with only := fun hn => (h.only hn).imp_right (k _) }

theorem root (h : BindsAt c entity m P p q) (tree : p.forest.Tree c entity m) :
    q.forest.ref (q.forest.root m) = p.forest.ref (p.forest.root m) := by
  rw [h.tree.ref_root, tree.ref_root, h.grows.root tree.range]

end BindsAt

/-- Binding a navigation counts the node that it adds. -/
theorem bindNavigation_tally {r : RowRef} (h : Runs (bindNavigation r entity name) M p e p') :
    p'.tally.joins = p.tally.joins ∧ p'.tally.nodesBound =
      p.tally.nodesBound + if p.forest.size < p'.forest.size then 1 else 0 := by
  have ends : Ends (fun _ => True) (bindNavigation r entity name) M p fun _ q =>
      q.tally.joins = p.tally.joins ∧
        q.tally.nodesBound = p.tally.nodesBound + if p.forest.size < q.forest.size then 1 else 0 := by
    simp only [bindNavigation, Ends.bind_iff]
    refine Ends.entityType_of (fun t _ => ?_) fun _ => trivial
    split
    · simp
    · simp only [Ends.bind_iff, Ends.settings_iff, Ends.forest_iff]
      split
      · trivial
      · simp only [Ends.bind_iff, Ends.growForest_iff, Ends.forest_iff]
        split
        · next hlt => simp [Ends.bind_iff, hlt, Tally.joins]
        · next hlt => simp [hlt]
  exact (Ends.iff_runs.1 ends).1 _ _ h

/-- A member of a row of the tree stays a member, or it leads along a navigation to the node at one more
path. -/
theorem bindRowMember_tree {r : RowRef} (tree : p.forest.Tree M.catalog entity m)
    (hn : p.forest.nodeAt? m path = some n) (hr : p.forest.ref n = .rowRef r)
    (single : ∀ owner edge, M.catalog.destination? entity path = some owner →
      M.catalog.navigation? owner name = some edge → edge.isCollection = false)
    (h : Runs (bindRowMember r name) M p e p') :
    e = .member (.rowRef r) name ∧ p = p' ∧ M.catalog.destination? entity (path ++ [name]) = none ∨
      (∃ k, e = p'.forest.ref k ∧ p'.forest.nodeAt? m (path ++ [name]) = some k) ∧
        BindsAt M.catalog entity m (· = path ++ [name]) p p' := by
  obtain ⟨owner, howner⟩ := tree.exists_entity hn
  have hdest := (tree.destination hn).trans howner
  have hrange := (Forest.memberPath_of_nodeAt? tree.sound tree.range hn).1
  obtain rfl : r.node = n := by cases hr; rfl
  have h := Runs.bindRowMember_entity tree.sound (tree.single _) howner h
  cases hnav : M.catalog.navigation? owner name with
  | none =>
    left
    have stays := h
    simp only [bindNavigation, Runs.bind_iff, Runs.entityType_iff] at stays
    obtain ⟨t, _, ⟨ht, rfl⟩, -⟩ := stays
    have hnone : t.navigation? name = none := by
      rw [Catalog.navigation?, ht] at hnav
      exact hnav
    obtain ⟨rfl, rfl⟩ := Runs.bindNavigation_property ht hnone h
    refine ⟨rfl, rfl, ?_⟩
    rw [Catalog.destination?_concat, hdest, Option.bind_some, hnav]
    rfl
  | some edge =>
    right
    obtain rfl : edge.name = name := Catalog.navigation?_name hnav
    obtain ⟨htally, hbound⟩ := bindNavigation_tally h
    obtain ⟨k, g, tally, hfollow, rfl, rfl⟩ := Runs.bindNavigation_edge hnav h
    have hs := single owner edge hdest hnav
    obtain ⟨tree', grows⟩ := tree.follow hn howner hnav hs hfollow
    have located := tree.nodeAt?_follow hn hfollow
    refine ⟨⟨k, rfl, by rw [located, if_pos rfl]⟩, tree', grows, fun {l i} hl => ?_, fun {l} hl => ?_, ?_,
      htally, fun {i} hi => ?_, fun {i} hi => ?_⟩
    · rw [located]
      split
      · next heq =>
        rcases Forest.follow_cases hrange hfollow with ⟨hchild, -⟩ | ⟨hnone, -⟩
        · rw [heq, Forest.nodeAt?_concat, hn, Option.bind_some, hchild] at hl
          exact hl
        · rw [heq, Forest.nodeAt?_concat, hn, Option.bind_some, hnone] at hl
          cases hl
      · exact hl
    · rw [located] at hl
      split at hl
      · next heq => exact .inr heq
      · exact .inl hl
    all_goals rcases Forest.follow_cases hrange hfollow with ⟨-, rfl⟩ | ⟨-, rfl, -, added⟩
    · simpa using hbound
    · have hsize : g.size = p.forest.size + 1 := added.size
      rw [if_pos (by rw [hsize]; exact Nat.lt_succ_self _)] at hbound
      dsimp only at hbound ⊢
      omega
    · rfl
    · rcases added.old hi with heq | ⟨-, heq⟩ <;> rw [heq]
    · rw [Forest.node_of_size_le hi]
      rfl
    · rcases added.cases i with hlt | rfl | ⟨-, heq⟩
      · exact absurd hlt (Nat.not_lt_of_le hi)
      · rw [added.new]
        rfl
      · rw [heq]
        rfl

end Growth

section Binding

/-- What an expression over the root of the tree is bound to: a reference, if it is a chain of navigations,
and otherwise an expression with a reference to, or below, every node that such chains in it lead to. -/
structure BindsTo (c : Catalog) (entity : String) (m : SourceId) (x : String) (f : Forest)
    (e e' : Expr) : Prop where
  chain : ∀ {path}, e.chain? x = some path → (c.destination? entity path).isSome = true →
    ∃ n, f.nodeAt? m path = some n ∧ e' = f.ref n
  ref : e'.isRef = true → c.isEntityOperand entity x e = true
  reads : ∀ {path}, path ∈ e.chains x → (c.destination? entity path).isSome = true →
    ∃ n k, f.nodeAt? m path = some n ∧ f.ref k ∈ e'.nodes ∧ k.index < f.size ∧ n ∈ f.lineage k
  flat : e'.Flat
  scalars : ∀ d ∈ e'.nodes, d.ComparesScalars

namespace BindsTo

variable {c : Catalog}

theorem mono (h : BindsTo c entity m x p.forest e e') (tree : p.forest.Tree c entity m)
    (k : BindsAt c entity m P p q) : BindsTo c entity m x q.forest e e' where
  chain hchain hdest := by
    obtain ⟨n, hn, rfl⟩ := h.chain hchain hdest
    have hrange := (Forest.memberPath_of_nodeAt? tree.sound tree.range hn).1
    exact ⟨n, k.kept hn, (k.grows.ref tree.sound k.tree.sound hrange).symm⟩
  ref := h.ref
  reads hpath hdest := by
    obtain ⟨n, i, hn, hi, hrange, habove⟩ := h.reads hpath hdest
    refine ⟨n, i, k.kept hn, ?_, Nat.lt_of_lt_of_le hrange k.grows.size, ?_⟩
    · rw [k.grows.ref tree.sound k.tree.sound hrange]
      exact hi
    · rw [k.grows.lineage hrange]
      exact habove
  flat := h.flat
  scalars := h.scalars

/-- A node whose parts are bound is bound, if it is no chain of navigations itself. -/
theorem of_head {f : Forest} {d : Expr} (body : e.ReadsSingleRows c entity x)
    (head : SameHead (fun a a' => a ∈ e.children ∧ BindsTo c entity m x f a a') e d)
    (hchain : ∀ path, e.chain? x = some path → c.destination? entity path = none) (href : d.isRef = false) :
    BindsTo c entity m x f e d where
  chain h hdest := by simp [hchain _ h] at hdest
  ref h := absurd h (by simp [href])
  reads hpath hdest := by
    rcases mem_chains_iff.1 hpath with h | ⟨a, ha, hpath⟩
    · simp [hchain _ h] at hdest
    · obtain ⟨a', ha', -, bound⟩ := head.to_mem_children ha
      obtain ⟨n, k, hn, hk, hrange, habove⟩ := bound.reads hpath hdest
      exact ⟨n, k, hn, mem_nodes_of_child ha' hk, hrange, habove⟩
  flat := by
    refine flat_iff.2 ⟨head.isFlat.trans body.flat.self, fun a' ha' => ?_⟩
    obtain ⟨a, -, -, bound⟩ := head.of_mem_children ha'
    exact bound.flat
  scalars b hb := by
    rcases mem_nodes_iff.1 hb with rfl | ⟨a', ha', hb⟩
    · intro op a' b' hsides
      rcases head.sides? with ⟨-, hnone⟩ | ⟨op₀, a, b₀, a₁, b₁, he, hd, ⟨-, ha⟩, -, hb⟩
      · rw [hnone] at hsides
        cases hsides
      · rw [hd] at hsides
        cases hsides
        obtain ⟨hna, hnb⟩ := body.scalars e (self_mem_nodes e) _ he
        refine ⟨Bool.eq_false_iff.2 fun h => ?_, Bool.eq_false_iff.2 fun h => ?_⟩
        · exact Bool.false_ne_true (hna.symm.trans (ha.ref h))
        · exact Bool.false_ne_true (hnb.symm.trans (hb.ref h))
    · obtain ⟨a, -, -, bound⟩ := head.of_mem_children ha'
      exact bound.scalars b hb

/-- A reference is bound to itself. -/
theorem of_ref {f : Forest} (href : e' = f.ref n)
    (hchain : ∃ path, e.chain? x = some path ∧ (c.destination? entity path).isSome = true ∧
      f.nodeAt? m path = some n)
    (reads : ∀ {path}, path ∈ e.chains x → (c.destination? entity path).isSome = true →
      ∃ k, f.nodeAt? m path = some k ∧ n.index < f.size ∧ k ∈ f.lineage n) :
    BindsTo c entity m x f e e' := by
  subst href
  obtain ⟨path, hpath, hdest, hn⟩ := hchain
  refine ⟨fun h _ => ?_, fun _ => Catalog.isEntityOperand_iff.2 ⟨path, hpath, hdest⟩, fun hpath hdest => ?_, fun d hd => ?_, fun d hd => ?_⟩
  · obtain rfl := Option.some.inj (hpath.symm.trans h)
    exact ⟨n, hn, rfl⟩
  · obtain ⟨k, hk, hrange, habove⟩ := reads hpath hdest
    exact ⟨k, n, hk, self_mem_nodes _, hrange, habove⟩
  all_goals obtain rfl : d = f.ref n := by simpa [Forest.ref, nodes] using hd
  · rfl
  · intro op a b hsides
    cases hsides

end BindsTo

/-- Binding a member of something bound. -/
theorem bindMember_paths {t t' : Expr} (body : (Expr.member t name).ReadsSingleRows M.catalog entity x)
    (tree : p.forest.Tree M.catalog entity m) (bound : BindsTo M.catalog entity m x p.forest t t')
    (h : Runs (bindMember t' name) M p e' p') :
    BindsAt M.catalog entity m (· ∈ (Expr.member t name).chains x) p p' ∧
      BindsTo M.catalog entity m x p'.forest (.member t name) e' := by
  have stays (hchain : ∀ path, (Expr.member t name).chain? x = some path →
        M.catalog.destination? entity path = none) :
      BindsAt M.catalog entity m (· ∈ (Expr.member t name).chains x) p p ∧
        BindsTo M.catalog entity m x p.forest (.member t name) (.member t' name) :=
    ⟨.refl tree _, .of_head body (.member name ⟨.head _, bound⟩) hchain rfl⟩
  by_cases href : t'.isRef = true
  · obtain ⟨path, hpath, hdest⟩ := Catalog.isEntityOperand_iff.1 (bound.ref href)
    obtain ⟨n, hn, rfl⟩ := bound.chain hpath hdest
    have hchain : (Expr.member t name).chain? x = some (path ++ [name]) := by simp [chain?, hpath]
    have hmem := mem_chains_iff.2 (.inl hchain)
    rcases bindRowMember_tree tree hn rfl (fun owner edge => body.single_edge hmem) h with
      ⟨rfl, rfl, hnone⟩ | ⟨⟨k, rfl, hk⟩, followed⟩
    · refine stays fun path' hpath' => ?_
      obtain rfl := Option.some.inj (hchain.symm.trans hpath')
      exact hnone
    · have hrange := (Forest.memberPath_of_nodeAt? followed.tree.sound followed.tree.range hk).1
      have above := followed.tree.lineage_concat (followed.kept hn) hk
      have hdest' := followed.tree.destination_isSome hk
      refine ⟨followed.mono fun _ heq => heq ▸ hmem, .of_ref rfl ⟨_, hchain, hdest', hk⟩ fun {l} hl hdest => ?_⟩
      rcases mem_chains_iff.1 hl with hown | ⟨c, hc, hpart⟩
      · obtain rfl := Option.some.inj (hchain.symm.trans hown)
        exact ⟨k, hk, hrange, above ▸ .head _⟩
      · obtain rfl := List.mem_singleton.1 hc
        obtain ⟨j, i, hj, hi, -, hji⟩ := (bound.mono tree followed).reads hpart hdest
        obtain rfl : i = n := by
          have : p'.forest.ref i = p.forest.ref n := by simpa [Forest.ref, nodes] using hi
          exact congrArg RowRef.node (Expr.rowRef.inj this)
        exact ⟨j, hj, hrange, above ▸ .tail _ hji⟩
  · have hmember : bindMember t' name = pure (.member t' name) := by
      cases t' with
      | rowRef r => exact absurd rfl href
      | record fields => cases bound.flat.self
      | _ => rfl
    rw [hmember] at h
    obtain ⟨rfl, rfl⟩ := Runs.pure_iff.1 h
    refine stays fun path hpath => ?_
    obtain ⟨above, habove, rfl⟩ : ∃ above, t.chain? x = some above ∧ above ++ [name] = path := by
      simpa [chain?] using hpath
    cases hdest : M.catalog.destination? entity above with
    | none => rw [Catalog.destination?_concat, hdest, Option.bind_none]
    | some _ =>
      obtain ⟨n, -, rfl⟩ := bound.chain habove (by rw [hdest]; rfl)
      exact absurd rfl href

/-- Binding a body over the root of the tree. -/
theorem bind_paths {row : Expr} (body : e.ReadsSingleRows M.catalog entity x)
    (tree : p.forest.Tree M.catalog entity m) (hrow : row = p.forest.ref (p.forest.root m))
    (h : Runs (bind (e.substitute x row)) M p e' p') :
    BindsAt M.catalog entity m (· ∈ e.chains x) p p' ∧ BindsTo M.catalog entity m x p'.forest e e' := by
  induction e using children_induction generalizing p p' e' with
  | step e ih =>
    by_cases hparam : ∃ y, e = .param y
    · obtain ⟨y, rfl⟩ := hparam
      rw [substitute_param] at h
      split at h
      · next heq =>
        subst heq hrow
        obtain ⟨rfl, rfl⟩ := Runs.pure_iff.1 h
        have hroot : p.forest.nodeAt? m [] = some (p.forest.root m) := rfl
        have hrange := (tree.sound.root tree.range).range
        refine ⟨.refl tree _, .of_ref rfl ⟨[], by simp [chain?], rfl, hroot⟩ fun {path} hpath _ => ?_⟩
        obtain rfl : path = [] := by simpa [chains, nodes, chain?, eq_comm] using hpath
        refine ⟨_, hroot, hrange, ?_⟩
        rw [Forest.lineage]
        exact .head _
      · next hne =>
        obtain ⟨rfl, rfl⟩ := Runs.pure_iff.1 h
        refine ⟨.refl tree _, .of_head body (.param y) (fun path hpath => ?_) rfl⟩
        simp [chain?, hne] at hpath
    · have hsub : SameHead (fun c c' => c ∈ e.children ∧ c' = c.substitute x row) e (e.substitute x row) := by
        have hflat := body.flat.self
        cases e with
        | param y => exact absurd ⟨y, rfl⟩ hparam
        | lambda _ _ => cases hflat
        | _ =>
          rw [substitute_of_none rfl]
          exact SameHead.of_map _ _
      rw [bind_eq, Runs.bind_iff] at h
      obtain ⟨d, q, hparts, hnode⟩ := h
      let le (p q : Progress) : Prop := p.forest.Tree M.catalog entity m →
        row = p.forest.ref (p.forest.root m) →
          BindsAt M.catalog entity m (· ∈ e.chains x) p q ∧ row = q.forest.ref (q.forest.root m)
      have part {c : Expr} (hc : c ∈ e.children) {q q' : Progress} {c' : Expr}
          (h : Runs (bind (c.substitute x row)) M q c' q') (tree : q.forest.Tree M.catalog entity m)
          (hrow : row = q.forest.ref (q.forest.root m)) :
          BindsAt M.catalog entity m (· ∈ e.chains x) q q' ∧ BindsTo M.catalog entity m x q'.forest c c' :=
        (ih c hc (body.child hc) tree hrow h).imp_left fun grown =>
          grown.mono fun path hpath => mem_chains_iff.2 (.inr ⟨c, hc, hpath⟩)
      obtain ⟨through, head⟩ := Runs.mapChildren_within le (fun p tree hrow => ⟨.refl tree _, hrow⟩)
        (fun h k tree hrow => by
          obtain ⟨grown, hrow⟩ := h tree hrow
          obtain ⟨grown', hrow⟩ := k grown.tree hrow
          exact ⟨grown.trans grown', hrow⟩)
        (fun c₁ hc₁ q c' q' _ hrun tree hrow => by
          obtain ⟨c, -, hc, rfl⟩ := hsub.of_mem_children hc₁
          obtain ⟨grown, -⟩ := part hc hrun tree hrow
          exact ⟨grown, hrow.trans (grown.root tree).symm⟩) hparts
      obtain ⟨grown, hrow'⟩ := through tree hrow
      have head : SameHead (fun c c' => c ∈ e.children ∧ BindsTo M.catalog entity m x q.forest c c') e d := by
        refine hsub.comp head fun c c₁ c' copied ran => ⟨copied.1, ?_⟩
        obtain ⟨hc, rfl⟩ := copied
        obtain ⟨-, q₁, q₂, before, after, hrun⟩ := ran
        obtain ⟨grown₁, hrow₁⟩ := before tree hrow
        obtain ⟨grown₂, bound⟩ := part hc hrun grown₁.tree hrow₁
        exact bound.mono grown₂.tree (after grown₂.tree (hrow₁.trans (grown₂.root grown₁.tree).symm)).1
      by_cases hmember : ∃ t name, e = .member t name
      · obtain ⟨t, name, rfl⟩ := hmember
        cases head with
        | member _ ht =>
          obtain ⟨grown', bound⟩ := bindMember_paths body grown.tree ht.2 hnode
          exact ⟨grown.trans grown', bound⟩
      · have kept : bindNode d = pure d := by
          cases head with
          | member _ _ => exact absurd ⟨_, _, rfl⟩ hmember
          | _ => rfl
        rw [kept] at hnode
        obtain ⟨rfl, rfl⟩ := Runs.pure_iff.1 hnode
        have hflat := body.flat.self
        have hwritten := body.written
        refine ⟨grown, .of_head body head (fun path hpath => ?_) ?_⟩
        · cases e with
          | param y => exact absurd ⟨y, rfl⟩ hparam
          | member t name => exact absurd ⟨t, name, rfl⟩ hmember
          | _ => cases hpath
        · cases head with
          | rowRef r => simp [rowRefs, nodes] at hwritten
          | _ => rfl

end Binding

end EntityQuery
