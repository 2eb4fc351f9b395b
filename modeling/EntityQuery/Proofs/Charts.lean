import EntityQuery.Proofs.Links

/-!
# What expressions and forests name of a catalog

`Expr.Named` says that the catalog has all entity types that an expression names where the expansion
looks for them: entity sets, and the targets of `OfType`. Nothing that the expansion makes of such an
expression names another type. `Forest.Charted` says the same of a forest: it is linked by declared
navigations, and the entities of all its nodes are in the catalog.
-/

namespace EntityQuery

open EntityQuery.Expr

namespace Catalog

/-- All navigations and all primary keys are declared. -/
structure Valid (c : Catalog) : Prop where
  sound : c.Sound
  keyed : ∀ {entity t}, c.type? entity = some t → ∃ key, t.keyProperties = .ok key

theorem valid_of_checked {types : List EntityType} {c : Catalog} (h : Catalog.checked types = .ok c) :
    c.Valid := by
  refine ⟨sound_of_checked h, fun {entity t} ht => ?_⟩
  obtain ⟨_, -, h⟩ := Except.bind_eq_ok.1 h
  obtain ⟨_, htypes, h⟩ := Except.bind_eq_ok.1 h
  cases h
  have htype := Except.forM_eq_ok htypes t (List.mem_of_find?_eq_some ht)
  unfold checkType at htype
  split at htype
  · cases htype
  · obtain ⟨key, hkey, -⟩ := Except.bind_eq_ok.1 htype
    exact ⟨key, hkey⟩

/-- Whether an expression can be the target of an `OfType`: it names an entity type that is there. -/
def IsTarget (c : Catalog) : Expr → Prop
  | .entitySet entity | .const (.text entity) => ∃ t, c.type? entity = some t
  | _ => False

/-- The entity type that an expression names at its top is there. -/
def Knows (c : Catalog) : Expr → Prop
  | .entitySet entity => ∃ t, c.type? entity = some t
  | .call .ofType (_ :: target :: _) _ => c.IsTarget target
  | _ => True

end Catalog

/-- The catalog has all entity types that are named in an expression, the rows of streams apart. -/
inductive Expr.Named (c : Catalog) : Expr → Prop where
  | stream {rows selector : Expr} {frame : StreamFrame} (h : Named c selector) :
    Named c (.stream rows selector frame)
  | node {e : Expr} (knows : c.Knows e) (parts : ∀ d ∈ e.children, Named c d) : Named c e

section Names

variable {c : Catalog} {e e' rows selector : Expr} {frame : StreamFrame}

theorem Expr.named_of_nodes (h : ∀ d ∈ e.nodes, c.Knows d) : e.Named c := by
  induction e using children_induction with
  | step e ih =>
    obtain ⟨own, parts⟩ := forall_nodes_iff.1 h
    exact .node own fun d hd => ih d hd (parts d hd)

theorem Expr.named_stream : (Expr.stream rows selector frame).Named c ↔ selector.Named c :=
  ⟨fun h => by cases h with
    | stream h => exact h
    | node _ parts => exact parts _ (.tail _ (.head _)), .stream⟩

theorem Expr.Named.knows (h : e.Named c) : c.Knows e := by
  cases h with
  | stream _ => trivial
  | node knows _ => exact knows

theorem Expr.Named.parts (h : e.Named c) (hs : ∀ rows selector frame, e ≠ .stream rows selector frame) :
    ∀ d ∈ e.children, d.Named c := by
  cases h with
  | stream _ => exact absurd rfl (hs _ _ _)
  | node _ parts => exact parts

theorem Expr.named_rowRef (r : RowRef) : (Expr.rowRef r).Named c := .node trivial nofun

theorem Expr.named_toExpr {s : Stream} : s.toExpr.Named c ↔ s.selector.Named c := named_stream

/-- Over operands that name nothing new, a scalar expression names nothing new. -/
theorem Expr.Over.named {operand : Expr → Prop} (h : e.Over operand) (k : ∀ d, operand d → d.Named c) :
    e.Named c := by
  induction h with
  | operand h => exact k _ h
  | const value => exact .node trivial nofun
  | member name _ ih | convert _ _ _ ih => exact .node trivial fun d hd => List.mem_singleton.1 hd ▸ ih
  | binary op _ _ iha ihb => exact .node trivial (by simp [children, iha, ihb])
  | cond _ _ _ iha ihb ihc => exact .node trivial (by simp [children, iha, ihb, ihc])
  | tuple _ ih => exact .node trivial ih
  | nullSafeEqual _ _ _ _ ih iha ihb =>
    refine .node trivial fun d hd => ?_
    simp only [children, List.mem_append, List.mem_cons, List.not_mem_nil, or_false] at hd
    rcases hd with hd | rfl | rfl
    · exact ih d hd
    · exact iha
    · exact ihb

/-- What is made of the first expression names nothing new, and a name stays one. -/
structure Expr.NamesLike (c : Catalog) (e e' : Expr) : Prop where
  named : e.Named c → e'.Named c
  target : c.IsTarget e → c.IsTarget e'

theorem Expr.NamesLike.refl (e : Expr) : NamesLike c e e := ⟨id, id⟩

theorem Expr.NamesLike.trans {e'' : Expr} (h : NamesLike c e e') (k : NamesLike c e' e'') :
    NamesLike c e e'' :=
  ⟨k.named ∘ h.named, k.target ∘ h.target⟩

/-- Parts that name nothing new make a whole that names nothing new. -/
theorem Expr.NamesLike.of_sameHead (h : SameHead (NamesLike c) e e') : NamesLike c e e' := by
  refine ⟨fun he => ?_, fun he => ?_⟩
  · have streams : (∃ rows selector frame, e = .stream rows selector frame) ∨
        ∀ rows selector frame, e ≠ .stream rows selector frame := by
      cases e with
      | stream rows selector frame => exact .inl ⟨_, _, _, rfl⟩
      | _ => exact .inr nofun
    rcases streams with ⟨_, _, _, rfl⟩ | hs
    · cases h with
      | stream _ _ hselector => exact .stream (hselector.named (named_stream.1 he))
    · refine .node ?_ fun d hd => ?_
      · have knows := he.knows
        cases h with
        | entitySet entity => exact knows
        | @call args args' operator note hargs =>
          cases operator <;> try trivial
          rcases hargs with _ | ⟨-, _ | ⟨htarget, -⟩⟩
          · trivial
          · trivial
          · exact htarget.target knows
        | _ => trivial
      · obtain ⟨b, hb, like⟩ := h.of_mem_children hd
        exact like.named (he.parts hs b hb)
  · cases h with
    | entitySet _ | const _ => exact he
    | _ => exact he.elim

theorem Expr.substitute_namesLike {replacement : Expr} (x : String) (h : replacement.Named c) (e : Expr) :
    NamesLike c e (e.substitute x replacement) := by
  induction e using children_induction with
  | step e ih =>
    cases e with
    | param name =>
      rw [substitute_param]
      split
      · exact ⟨fun _ => h, False.elim⟩
      · exact .refl _
    | lambda params body =>
      rw [substitute_lambda]
      split
      · exact .refl _
      · exact .of_sameHead (.lambda params (ih body (.head _)))
    | _ =>
      rw [substitute_of_none rfl]
      refine .of_sameHead ((SameHead.of_map _ _).mono ?_)
      rintro d d' ⟨hd, rfl⟩
      exact ih d hd

end Names

namespace Forest

variable {c : Catalog} {f g : Forest} {n k : NodeId}

/-- The entities of all nodes are in the catalog. -/
def Known (c : Catalog) (f : Forest) : Prop :=
  ∀ n entity, (f.node n).entity = some entity → ∃ t, c.type? entity = some t

/-- A linked forest of entities of the catalog. -/
structure Charted (c : Catalog) (f : Forest) : Prop where
  linked : f.Linked c
  known : f.Known c

theorem empty_known (c : Catalog) : Forest.empty.Known c := by
  intro n entity h
  rw [node_of_size_le (Nat.zero_le _)] at h
  cases h

theorem entity_modifyNode (n k : NodeId) {change : Node → Node} (h : ∀ x : Node, (change x).entity = x.entity) :
    ((f.modifyNode n change).node k).entity = (f.node k).entity :=
  modifyNode_related (R := fun x y => y.entity = x.entity) (fun _ => rfl) h f n k

theorem entity_addAlias (n k : NodeId) (path : List String) :
    ((f.addAlias n path).node k).entity = (f.node k).entity :=
  entity_modifyNode n k fun x => by split <;> rfl

theorem entity_makePresent (n k : NodeId) (place : List String) :
    ((f.makePresent n place).node k).entity = (f.node k).entity := by
  unfold makePresent
  exact entity_modifyNode n k fun _ => rfl

theorem entity_remove (n k : NodeId) : ((f.remove n).node k).entity = (f.node k).entity := by
  refine remove_induction n rfl (fun hg => .trans (entity_modifyNode _ k fun _ => ?_) hg) fun hg =>
    .trans (entity_modifyNode _ k fun _ => ?_) hg
  all_goals rfl

theorem entity_makeOptional (m : SourceId) (k : NodeId) :
    ((f.makeOptional m).node k).entity = (f.node k).entity := by
  simp only [node, makeOptional, List.getD_eq_getElem?_getD, List.getElem?_map]
  cases f.nodes[k.index]? with
  | none => rfl
  | some x =>
    simp only [Option.map_some, Option.getD_some]
    split <;> rfl

theorem entity_foldl {α : Type} {change : Forest → α → Forest}
    (h : ∀ (f : Forest) (a : α), ((change f a).node k).entity = (f.node k).entity) (l : List α) (f : Forest) :
    ((l.foldl change f).node k).entity = (f.node k).entity := by
  induction l generalizing f with
  | nil => rfl
  | cons a l ih => exact (ih _).trans (h f a)

theorem entity_wraps (path : List String) (l : List SourceId) (f : Forest) :
    ((l.foldl (·.wrap path) f).node k).entity = (f.node k).entity := by
  induction l generalizing f with
  | nil => rfl
  | cons m l ih => exact ih (f.wrap path m)

theorem entity_merged (outer inner : List SourceId) (kind : JoinKind) (k : NodeId) :
    ((f.merged outer inner kind).node k).entity = (f.node k).entity := by
  refine (entity_foldl (fun f m => ?_) inner _).trans
    (entity_wraps kind.wrapPath outer f)
  split
  · exact entity_makeOptional m k
  · rfl

/-- A forest with one more node has the entities of the old ones and that of the new one. -/
theorem entity_addNode {x : Node} {entity : String} (h : ((f.addNode x).2.node k).entity = some entity) :
    (f.node k).entity = some entity ∨ x.entity = some entity := by
  have appended (h : (({ f with nodes := f.nodes ++ [x] } : Forest).node k).entity = some entity) :
      (f.node k).entity = some entity ∨ x.entity = some entity := by
    rw [node_concat] at h
    split at h
    · exact .inr h
    · exact .inl h
  unfold addNode at h
  dsimp only at h
  split at h
  · exact appended h
  · refine appended (Eq.trans (Eq.symm ?_) h)
    exact entity_modifyNode _ k fun _ => rfl

theorem Known.of_entity (hf : f.Known c) (h : ∀ n, (g.node n).entity = (f.node n).entity) : g.Known c :=
  fun n entity hn => hf n entity ((h n).symm.trans hn)

theorem Known.addNode (hf : f.Known c) {x : Node}
    (hx : ∀ entity, x.entity = some entity → ∃ t, c.type? entity = some t) : (f.addNode x).2.Known c :=
  fun _ _ hn => (entity_addNode hn).elim (hf _ _) (hx _)

theorem Known.addSource (hf : f.Known c) {entity? : Option String} {isOptional : Bool}
    (h : ∀ entity, entity? = some entity → ∃ t, c.type? entity = some t) :
    (f.addSource entity? isOptional).2.Known c :=
  hf.addNode (x := {
    source := ⟨f.sources.length⟩, parent := none, edge := none, entity := entity?, field := none
    children := [], isOptional, isPresent := true, isRemoved := false, aliases := [[]], place := []
    wrapsBefore := 0 }) h

theorem Known.addField (hf : f.Known c) {field entity : String} {isOptional : Bool}
    (h : ∃ t, c.type? entity = some t) : (f.addField n field (some entity) isOptional).2.Known c := by
  unfold Forest.addField
  exact hf.addNode fun _ heq => by cases heq; exact h

theorem Known.follow (hf : f.Known c) {edge : NavigationEdge} (h : ∃ t, c.type? edge.target = some t) :
    (f.follow n edge).2.Known c := by
  unfold Forest.follow
  split
  · exact hf
  · exact hf.addNode fun entity heq => by cases heq; exact h

end Forest

end EntityQuery
