import EntityQuery.Expansion.Context
import EntityQuery.Proofs.Forests
import EntityQuery.Proofs.Standing

/-!
# The setting of an expansion

While an expansion runs, the rows of some sources are open, the references that may occur are those
to nodes of its forest, and generated names are new (`Progress.setting`). All steps only add to it
(`Extends`). A reference has the shape that its node was reached with.
-/

namespace EntityQuery

/-- What shapes are assigned over at some point of an expansion. -/
def Progress.setting (p : Progress) (c : Catalog) (opens : List SourceId) : Setting where
  catalog := c
  entity m := if m ∈ opens then (p.forest.source m).entity else none
  refs r := r.node.index < p.forest.size ∧ p.forest.ref r.node = .rowRef r
  names := OldName p.names

/-- The expansion has gone on. -/
structure Advances (c : Catalog) (p p' : Progress) : Prop where
  sound : p'.forest.Sound c
  grows : p.forest.Grows p'.forest
  names : p.names ≤ p'.names

/-- The expansion has gone on, and the rows of no old source have moved. -/
structure Extends (c : Catalog) (p p' : Progress) : Prop extends Advances c p p' where
  paths : p.forest.SamePaths (fun m => m.index < p.forest.sources.length) p'.forest

/-- The expansion has gone on, and the rows of no old source but one have moved. -/
structure Moves (c : Catalog) (m : SourceId) (p p' : Progress) : Prop extends Advances c p p' where
  paths : p.forest.SamePaths (fun k => k ≠ m ∧ k.index < p.forest.sources.length) p'.forest

section Stages

variable {c : Catalog} {p q r : Progress} {m : SourceId}

theorem Advances.refl (h : p.forest.Sound c) : Advances c p p := ⟨h, .refl _, Nat.le_refl _⟩

theorem Advances.trans (h : Advances c p q) (k : Advances c q r) : Advances c p r where
  sound := k.sound
  grows := h.grows.trans k.grows
  names := Nat.le_trans h.names k.names

/-- All that is known of a setting stays known. -/
theorem Advances.le (h : Advances c p q) (hp : p.forest.Sound c) (opens : List SourceId) :
    (p.setting c opens).Le (q.setting c opens) where
  catalog := rfl
  entity {m entity} hm := by
    simp only [Progress.setting] at hm ⊢
    split at hm
    · next ho =>
      rw [if_pos ho]
      by_cases hr : m.index < p.forest.sources.length
      · rw [h.grows.entity hr]
        exact hm
      · rw [Forest.source_of_length_le (Nat.le_of_not_lt hr)] at hm
        cases hm
    · cases hm
  refs {r} hr := ⟨Nat.lt_of_lt_of_le hr.1 h.grows.size,
    (h.grows.ref hp h.sound hr.1).trans hr.2⟩
  names hx := hx.mono h.names

theorem Extends.refl (h : p.forest.Sound c) : Extends c p p := ⟨.refl h, .refl _ _⟩

theorem Extends.trans (h : Extends c p q) (k : Extends c q r) : Extends c p r where
  toAdvances := h.toAdvances.trans k.toAdvances
  paths := h.paths.trans (k.paths.mono fun _ hm => Nat.lt_of_lt_of_le hm h.grows.sources) k.grows
    h.grows.size

theorem Extends.names_only (h : p.forest.Sound c) (hf : q.forest = p.forest)
    (hn : p.names ≤ q.names) : Extends c p q where
  sound := hf ▸ h
  grows := hf ▸ .refl _
  paths := hf ▸ .refl _ _
  names := hn

theorem Moves.refl (h : p.forest.Sound c) : Moves c m p p := ⟨.refl h, .refl _ _⟩

theorem Moves.trans (h : Moves c m p q) (k : Moves c m q r) : Moves c m p r where
  toAdvances := h.toAdvances.trans k.toAdvances
  paths := h.paths.trans
    (k.paths.mono fun _ hm => ⟨hm.1, Nat.lt_of_lt_of_le hm.2 h.grows.sources⟩) k.grows h.grows.size

/-- The rows of a source that is new may move. -/
theorem Extends.moves (h : Extends c p q) (k : Moves c m q r)
    (hm : p.forest.sources.length ≤ m.index) : Extends c p r where
  toAdvances := h.toAdvances.trans k.toAdvances
  paths := by
    refine h.paths.trans (k.paths.mono fun i hi => ⟨?_, ?_⟩) k.grows h.grows.size
    · rintro rfl
      omega
    · exact Nat.lt_of_lt_of_le hi h.grows.sources

theorem Extends.toMoves (h : Extends c p q) (m : SourceId) : Moves c m p q where
  toAdvances := h.toAdvances
  paths := h.paths.mono fun _ hm => hm.2

end Stages

theorem Progress.setting_le_of_subset (p : Progress) (c : Catalog) {opens opens' : List SourceId}
    (h : ∀ m ∈ opens, m ∈ opens') : (p.setting c opens).Le (p.setting c opens') where
  catalog := rfl
  entity {m entity} hm := by
    simp only [Progress.setting] at hm ⊢
    split at hm
    · next ho =>
      rw [if_pos (h m ho)]
      exact hm
    · cases hm
  refs := id
  names := id

namespace Shape

variable {c : Catalog} {tables : Tables}

theorem along?_append (s : Shape) (path : List String) (name : String) :
    s.along? c (path ++ [name]) = (s.along? c path).bind (·.member? c name) := by
  induction path generalizing s with
  | nil =>
    rw [List.nil_append, along?, along?, Option.bind_some]
    cases s.member? c name <;> rfl
  | cons first path ih =>
    rw [List.cons_append, along?, along?]
    cases s.member? c first with
    | none => rfl
    | some t => exact ih t

theorem readAlong_append (s : Option Shape) (path : List String) (name : String) (v : Value) :
    readAlong c tables s (path ++ [name]) v =
      readAlong c tables s path v >>= Shape.read c tables (s.bind (·.along? c path)) name := by
  induction path generalizing s v with
  | nil =>
    have hs : s.bind (·.along? c []) = s := by cases s <;> rfl
    rw [List.nil_append, readAlong, readAlong, hs]
    simp only [readAlong]
    exact bind_pure _
  | cons first path ih =>
    have hs : (s.bind (·.member? c first)).bind (·.along? c path) =
        s.bind (·.along? c (first :: path)) := by
      cases s <;> rfl
    rw [List.cons_append, readAlong, readAlong, bind_assoc]
    simp only [ih, hs]

end Shape

namespace Forest

variable {c : Catalog} {f : Forest} {n q : NodeId}

/-- The shape of the rows of a node. -/
def shapeAt (f : Forest) (n : NodeId) : Shape :=
  match (f.node n).edge with
  | some edge => edge.shape
  | none => .entity ((f.node n).entity.getD "")

theorem shapeAt_edge {edge : NavigationEdge} (h : (f.node n).edge = some edge) :
    f.shapeAt n = edge.shape := by
  rw [shapeAt, h]

/-- A single row has the shape of its entity. -/
theorem shapeAt_single (h : f.Sound c) (hn : n.index < f.size)
    (hs : (f.node n).isCollection = false) :
    ∃ entity, (f.node n).entity = some entity ∧ f.shapeAt n = .entity entity := by
  cases hp : (f.node n).parent with
  | none =>
    obtain ⟨he, hentity⟩ := h.top hn hp
    obtain ⟨entity, t, ht, -⟩ := h.entity (h.source hn)
    exact ⟨entity, hentity.trans ht, by rw [shapeAt, he, hentity, ht]; rfl⟩
  | some q =>
    obtain ⟨-, edge, -, -, he, hentity, -⟩ := (h.below hp).edge
    refine ⟨edge.target, hentity, ?_⟩
    rw [Node.isCollection, he] at hs
    rw [shapeAt_edge he, NavigationEdge.shape, if_neg (by simpa using hs)]

theorem shapeAt_collection {edge : NavigationEdge} (he : (f.node n).edge = some edge)
    (hs : (f.node n).isCollection = true) : f.shapeAt n = .rows (.entity edge.target) := by
  rw [Node.isCollection, he] at hs
  rw [shapeAt_edge he, NavigationEdge.shape, if_pos (by simpa using hs)]

/-- The members that lead to a node lead to its shape. -/
theorem along?_memberPath (h : f.Sound c) (hn : n.index < f.size) {entity : String}
    (he : (f.source (f.node n).source).entity = some entity) :
    (Shape.entity entity).along? c (f.memberPath n) = some (f.shapeAt n) := by
  obtain ⟨i⟩ := n
  induction i using Nat.strongRecOn with
  | _ i ih =>
    cases hp : (f.node ⟨i⟩).parent with
    | none =>
      obtain ⟨hedge, hentity⟩ := h.top hn hp
      rw [memberPath_top h hn hp, shapeAt, hedge, hentity, he]
      rfl
    | some q =>
      have below := h.below hp
      obtain ⟨owner, edge, howner, hnav, hedge, -, -⟩ := below.edge
      have hq := Nat.lt_trans below.older hn
      obtain ⟨entity', hentity', hshape⟩ := shapeAt_single h hq below.single
      obtain rfl : owner = entity' := Option.some.inj (howner.symm.trans hentity')
      rw [memberPath_below below hp hedge, Shape.along?_append,
        ih q.index below.older hq (below.source ▸ he), hshape, Option.bind_some,
        HasShape.member?_navigation hnav, shapeAt_edge hedge]

end Forest

namespace Progress

variable {c : Catalog} {p : Progress} {opens : List SourceId} {r : RowRef} {s : Shape}

theorem source_of_refs (hr : (p.setting c opens).refs r) :
    (p.forest.node r.node).source = r.source ∧ p.forest.memberPath r.node = r.path := by
  have h := Expr.rowRef.inj hr.2
  exact ⟨congrArg RowRef.source h, congrArg RowRef.path h⟩

theorem open_of_shapeOf (hs : (p.setting c opens).shapeOf r = some s) : r.source ∈ opens := by
  obtain ⟨_, ho, -⟩ := Setting.shapeOf_eq_some.1 hs
  simp only [setting, Option.ite_none_right_eq_some] at ho
  exact ho.1

/-- A reference has the shape of its node. -/
theorem shapeOf_eq (h : p.forest.Sound c) (hr : (p.setting c opens).refs r)
    (hs : (p.setting c opens).shapeOf r = some s) : s = p.forest.shapeAt r.node := by
  obtain ⟨hsource, hpath⟩ := source_of_refs hr
  obtain ⟨entity, he, halong⟩ := Setting.shapeOf_eq_some.1 hs
  simp only [setting, if_pos (open_of_shapeOf hs)] at he
  rw [← hpath, ← hsource] at *
  exact Option.some.inj (halong.symm.trans (Forest.along?_memberPath h hr.1 he))

/-- A node of an open source has a reference. -/
theorem ref_shape (h : p.forest.Sound c) {n : NodeId} (hn : n.index < p.forest.size)
    (ho : (p.forest.node n).source ∈ opens) :
    ∃ r, p.forest.ref n = .rowRef r ∧ r.node = n ∧ r.source = (p.forest.node n).source ∧
      r.path = p.forest.memberPath n ∧ (p.setting c opens).refs r ∧
      (p.setting c opens).shapeOf r = some (p.forest.shapeAt n) := by
  refine ⟨_, rfl, rfl, rfl, rfl, ⟨hn, rfl⟩, ?_⟩
  obtain ⟨entity, t, he, -⟩ := h.entity (h.source hn)
  refine Setting.shapeOf_eq_some.2 ⟨entity, ?_, Forest.along?_memberPath h hn he⟩
  simp only [setting, if_pos ho, he]

end Progress

/-- The reference to a child is the reference to its parent, followed by the name of the edge. -/
theorem Forest.denote_child {c : Catalog} {tables : Tables} {o : OpenRows} {f : Forest} {n q : NodeId}
    (h : f.Sound c) (hp : (f.node n).parent = some q) {edge : NavigationEdge}
    (he : (f.node n).edge = some edge) (Γ : Shapes) (scope : Scope) :
    (f.ref n).denote c tables o Γ scope =
      (Expr.member (f.ref q) edge.name).denote c tables o Γ scope := by
  have below := h.below hp
  rw [denote_member, Forest.ref, Forest.ref, memberPath_below below hp he, below.source]
  exact Shape.readAlong_append _ _ _ _

end EntityQuery
