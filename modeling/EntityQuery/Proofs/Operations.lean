import EntityQuery.Proofs.Trees
import EntityQuery.Proofs.LiveTrees

/-!
# Operations on forests

An expansion changes its forest by eight operations only, and a forest is what a list of them has made of
the empty one (`Forest.after`). An operation adds a node, which `Operation.adds` tells, or it leaves the
nodes and sources where they are and changes what is said of them (`perform_cases`). What holds of the empty
forest and is kept by every allowed operation holds after each list of them (`Performable.invariant`).
-/

namespace EntityQuery

/-- The two nodes are at one place of one tree, but some children may be lost. -/
structure Node.Alike (x y : Node) : Prop where
  source : y.source = x.source
  parent : y.parent = x.parent
  edge : y.edge = x.edge
  field : y.field = x.field
  children : y.children.Sublist x.children

namespace Node.Alike

variable {x y z : Node}

theorem refl (x : Node) : x.Alike x := ⟨rfl, rfl, rfl, rfl, .refl _⟩

theorem trans (h : x.Alike y) (k : y.Alike z) : x.Alike z :=
  ⟨k.source.trans h.source, k.parent.trans h.parent, k.edge.trans h.edge, k.field.trans h.field,
    k.children.trans h.children⟩

theorem step? (h : x.Alike y) : y.step? = x.step? := by
  rw [Node.step?, Node.step?, h.edge, h.field]

end Node.Alike

namespace Forest

/-- A change of a forest. -/
inductive Operation where
  | addSource (entity : Option String) (isOptional : Bool)
  | follow (parent : NodeId) (edge : NavigationEdge)
  | addField (parent : NodeId) (field : String) (entity : Option String) (isOptional : Bool)
  | addAlias (n : NodeId) (path : List String)
  | remove (n : NodeId)
  | wrap (path : List String) (m : SourceId)
  | makePresent (n : NodeId) (place : List String)
  | makeOptional (m : SourceId)
  deriving DecidableEq

def perform (f : Forest) : Operation → Forest
  | .addSource entity isOptional => (f.addSource entity isOptional).2
  | .follow parent edge => (f.follow parent edge).2
  | .addField parent field entity isOptional => (f.addField parent field entity isOptional).2
  | .addAlias n path => f.addAlias n path
  | .remove n => f.remove n
  | .wrap path m => f.wrap path m
  | .makePresent n place => f.makePresent n place
  | .makeOptional m => f.makeOptional m

/-- The forest that operations make of the empty one. -/
def after (ops : List Operation) : Forest := ops.foldl perform .empty

theorem after_concat (ops : List Operation) (op : Operation) :
    after (ops ++ [op]) = (after ops).perform op := List.foldl_concat ..

/-- The nodes and sources of which the operation tells are there. -/
def Operation.Known (f : Forest) : Operation → Prop
  | .addSource _ _ => True
  | .follow n _ | .addField n _ _ _ | .addAlias n _ | .remove n | .makePresent n _ => n.index < f.size
  | .wrap _ m | .makeOptional m => m.index < f.sources.length

instance {f : Forest} : DecidablePred (Operation.Known f)
  | .addSource _ _ => inferInstanceAs (Decidable True)
  | .follow _ _ | .addField _ _ _ _ | .addAlias _ _ | .remove _ | .makePresent _ _
  | .wrap _ _ | .makeOptional _ => inferInstanceAs (Decidable (_ < _))

/-- A field that is added to a row is none of its members yet. -/
def Operation.Fresh (f : Forest) : Operation → Prop
  | .addField parent field _ _ => f.child? parent field = none
  | _ => True

instance {f : Forest} : DecidablePred (Operation.Fresh f)
  | .addField parent field _ _ => inferInstanceAs (Decidable (f.child? parent field = none))
  | .addSource _ _ | .follow _ _ | .addAlias _ _ | .remove _ | .makePresent _ _
  | .wrap _ _ | .makeOptional _ => inferInstanceAs (Decidable True)

/-- The operations can be performed one after the other, each of them where it is allowed. -/
def Performable (allowed : Forest → Operation → Prop) : Forest → List Operation → Prop
  | _, [] => True
  | f, op :: ops => allowed f op ∧ Performable allowed (f.perform op) ops

instance decidablePerformable {allowed : Forest → Operation → Prop} [∀ f, DecidablePred (allowed f)] :
    ∀ f ops, Decidable (Performable allowed f ops)
  | _, [] => inferInstanceAs (Decidable True)
  | f, op :: ops =>
    have : Decidable (Performable allowed (f.perform op) ops) := decidablePerformable (f.perform op) ops
    inferInstanceAs (Decidable (_ ∧ _))

section Runs

variable {allowed allowed' : Forest → Operation → Prop} {f : Forest} {ops : List Operation} {op : Operation}

theorem Performable.mono (h : Performable allowed f ops) (hsub : ∀ f op, allowed f op → allowed' f op) :
    Performable allowed' f ops := by
  induction ops generalizing f with
  | nil => trivial
  | cons op ops ih => exact ⟨hsub _ _ h.1, ih h.2⟩

theorem Performable.and (h : Performable allowed f ops) (always : ∀ op ∈ ops, ∀ f, allowed' f op) :
    Performable (fun f op => allowed f op ∧ allowed' f op) f ops := by
  induction ops generalizing f with
  | nil => trivial
  | cons op ops ih => exact ⟨⟨h.1, always op (.head _) f⟩, ih h.2 fun op hop => always op (.tail _ hop)⟩

theorem performable_append {ops' : List Operation} : Performable allowed f (ops ++ ops') ↔
    Performable allowed f ops ∧ Performable allowed (ops.foldl perform f) ops' := by
  induction ops generalizing f with
  | nil => simp [Performable]
  | cons op ops ih => rw [List.cons_append, Performable, ih, Performable, and_assoc, List.foldl_cons]

theorem performable_concat : Performable allowed .empty (ops ++ [op]) ↔
    Performable allowed .empty ops ∧ allowed (after ops) op := by
  rw [performable_append, Performable, Performable, and_true]
  rfl

/-- One of the operations has the property on the forest that it was performed on. -/
def Performed (ops : List Operation) (P : Forest → Operation → Prop) : Prop :=
  ∃ pre op post, ops = pre ++ op :: post ∧ P (after pre) op

theorem performed_concat {P : Forest → Operation → Prop} :
    Performed (ops ++ [op]) P ↔ Performed ops P ∨ P (after ops) op := by
  constructor
  · rintro ⟨pre, op', post, heq, h⟩
    rcases List.eq_nil_or_concat post with rfl | ⟨post, last, rfl⟩
    · obtain ⟨rfl, rfl⟩ := List.append_singleton_inj.1 heq
      exact .inr h
    · rw [List.concat_eq_append, ← List.cons_append, ← List.append_assoc] at heq
      exact .inl ⟨pre, op', post, (List.append_singleton_inj.1 heq).1, h⟩
  · rintro (⟨pre, op', post, rfl, h⟩ | h)
    · exact ⟨pre, op', post ++ [op], by simp, h⟩
    · exact ⟨ops, op, [], rfl, h⟩

theorem not_performed_nil {P : Forest → Operation → Prop} : ¬Performed [] P := by
  rintro ⟨_, _, _, heq, -⟩
  exact absurd heq (by simp)

/-- What each allowed operation keeps holds after all of them. -/
theorem Performable.invariant {I : Forest → Prop} (h : Performable allowed f ops) (hf : I f)
    (step : ∀ {f op}, I f → allowed f op → I (f.perform op)) : I (ops.foldl perform f) := by
  induction ops generalizing f with
  | nil => exact hf
  | cons op ops ih => exact ih h.2 (step hf h.1)

/-- No operation leads out of the forests that operations build. -/
theorem Built.perform (h : f.Built) (op : Operation) : (f.perform op).Built :=
  match op with
  | .addSource entity isOptional => h.addSource entity isOptional
  | .follow parent edge => h.follow parent edge
  | .addField parent field entity isOptional => h.addField parent field entity isOptional
  | .addAlias n path => h.addAlias n path
  | .remove n => h.remove n
  | .wrap path m => h.wrap path m
  | .makePresent n place => h.makePresent n place
  | .makeOptional m => h.makeOptional m

theorem built_after (ops : List Operation) : (after ops).Built :=
  List.foldlRecOn ops _ .empty fun _ h op _ => h.perform op

end Runs

section Nodes

/-- The node that the operation adds, if it adds one. -/
def Operation.adds (f : Forest) : Operation → Option Node
  | .addSource entity isOptional => some (f.wholeRow entity isOptional)
  | .follow parent edge => if (f.child? parent edge.name).isNone then some (f.target parent edge) else none
  | .addField parent field entity isOptional => some (f.fieldNode parent field entity isOptional)
  | _ => none

/-- The second forest has the nodes and sources of the first, in the same trees. -/
structure Kept (f g : Forest) : Prop where
  size : g.size = f.size
  sources : g.sources.length = f.sources.length
  root : ∀ m, g.root m = f.root m
  node : ∀ n, (f.node n).Alike (g.node n)

variable {f : Forest} {op : Operation} {n : NodeId} {m : SourceId}

theorem Kept.refl (f : Forest) : f.Kept f := ⟨rfl, rfl, fun _ => rfl, fun _ => .refl _⟩

theorem Kept.trans {g h : Forest} (hf : f.Kept g) (hg : g.Kept h) : f.Kept h where
  size := hg.size.trans hf.size
  sources := hg.sources.trans hf.sources
  root m := (hg.root m).trans (hf.root m)
  node n := (hf.node n).trans (hg.node n)

theorem Kept.modifyNode {change : Node → Node} (h : ∀ x : Node, x.Alike (change x)) (f : Forest) (n : NodeId) :
    f.Kept (f.modifyNode n change) where
  size := size_modifyNode
  sources := rfl
  root _ := rfl
  node := modifyNode_related .refl h f n

section Removing

variable {l : List NodeId} {k q : NodeId}

/-- Takes nodes out of their trees. -/
def mark (f : Forest) (l : List NodeId) : Forest :=
  l.foldl (fun f m => f.modifyNode m fun x => { x with isRemoved := true }) f

theorem node_mark (hk : k.index < f.size) :
    (f.mark l).node k = { f.node k with isRemoved := (f.node k).isRemoved || decide (k ∈ l) } := by
  induction l generalizing f with
  | nil => simp [mark]
  | cons m l ih =>
    refine (ih (by rwa [size_modifyNode])).trans ?_
    by_cases hm : k = m
    · subst hm
      rw [node_modifyNode_self hk]
      simp
    · rw [node_modifyNode_ne hm]
      simp [hm]

theorem remove_of_top (h : (f.node n).parent = none) : f.remove n = f.mark (f.subtree n) := by
  simp only [remove, h]
  rfl

theorem remove_of_parent (h : (f.node n).parent = some q) : f.remove n =
    (f.modifyNode q fun p => { p with children := p.children.filter (· ≠ n) }).mark (f.subtree n) := by
  simp only [remove, h]
  rfl

theorem kept_remove (f : Forest) (n : NodeId) : f.Kept (f.remove n) := by
  refine remove_induction n (.refl f) (fun hg => hg.trans (.modifyNode (fun _ => ?_) _ _)) fun hg =>
    hg.trans (.modifyNode (fun _ => ?_) _ _)
  · exact ⟨rfl, rfl, rfl, rfl, List.filter_sublist⟩
  · exact ⟨rfl, rfl, rfl, rfl, .refl _⟩

theorem sources_remove (f : Forest) (n : NodeId) : (f.remove n).sources = f.sources :=
  remove_induction n rfl id id

/-- What becomes of a node when one is removed. -/
theorem node_remove (hk : k.index < f.size) : (f.remove n).node k = { f.node k with
    children := if (f.node n).parent = some k then (f.node k).children.filter (· ≠ n) else (f.node k).children
    isRemoved := (f.node k).isRemoved || decide (k ∈ f.subtree n) } := by
  cases h : (f.node n).parent with
  | none => rw [remove_of_top h, node_mark hk, if_neg nofun]
  | some q =>
    rw [remove_of_parent h, node_mark (by rwa [size_modifyNode])]
    by_cases hq : k = q
    · subst hq
      rw [node_modifyNode_self hk, if_pos rfl]
    · rw [node_modifyNode_ne hq, if_neg fun heq => hq (Option.some.inj heq).symm]

end Removing

section Steps

variable {g : Forest} {x : Node}

theorem kept_makeOptional (f : Forest) (m : SourceId) : f.Kept (f.makeOptional m) where
  size := List.length_map ..
  sources := rfl
  root _ := rfl
  node n := by
    rcases f.node_makeOptional m n with h | h <;> rw [h]
    · exact .refl _
    · exact ⟨rfl, rfl, rfl, rfl, .refl _⟩

theorem kept_addAlias (f : Forest) (n : NodeId) (path : List String) : f.Kept (f.addAlias n path) :=
  .modifyNode (fun x => by split <;> exact ⟨rfl, rfl, rfl, rfl, .refl _⟩) f n

theorem kept_makePresent (f : Forest) (n : NodeId) (place : List String) : f.Kept (f.makePresent n place) := by
  refine .modifyNode (fun _ => ?_) f n
  exact ⟨rfl, rfl, rfl, rfl, .refl _⟩

theorem kept_wrap (f : Forest) (path : List String) (m : SourceId) : f.Kept (f.wrap path m) where
  size := rfl
  sources := (later_wrap f path m).sources
  root := (later_wrap f path m).root
  node _ := .refl _

theorem kept_wrapAll (f : Forest) (path : List String) (sources : List SourceId) :
    f.Kept (sources.foldl (·.wrap path) f) :=
  List.foldlRecOn sources _ (.refl f) fun g hg m _ => hg.trans (kept_wrap g path m)

/-- The rows of sources that are there can be wrapped, one source after the other. -/
theorem performable_wraps {sources : List SourceId} (path : List String)
    (range : ∀ m ∈ sources, m.index < f.sources.length) :
    Performable Operation.Known f (sources.map (.wrap path)) := by
  induction sources generalizing f with
  | nil => trivial
  | cons m sources ih =>
    refine ⟨range m (.head _), ih fun k hk => ?_⟩
    exact Nat.lt_of_lt_of_eq (range k (.tail _ hk)) (kept_wrap f path m).sources.symm

/-- Only the parent of a new node gets a child. -/
theorem Added.mem_children {c : NodeId} (h : Added f g x) (leaf : x.children = []) (hc : c ∈ (g.node n).children) :
    n.index < f.size ∧ (c ∈ (f.node n).children ∨ x.parent = some n ∧ c = ⟨f.size⟩) := by
  rcases h.cases n with hn | rfl | ⟨-, hd⟩
  · refine ⟨hn, ?_⟩
    rcases h.old hn with heq | ⟨hp, heq⟩ <;> rw [heq] at hc
    · exact .inl hc
    · exact (List.mem_append.1 hc).imp_right fun hc => ⟨hp, List.mem_singleton.1 hc⟩
  · rw [h.new, leaf] at hc
    cases hc
  · rw [hd] at hc
    cases hc

/-- The operations that add nodes. -/
theorem adds_cases (h : op.adds f = some x) :
    (∃ entity isOptional, op = .addSource entity isOptional ∧ x = f.wholeRow entity isOptional) ∨
    (∃ q edge, op = .follow q edge ∧ f.child? q edge.name = none ∧ x = f.target q edge) ∨
    ∃ q field entity isOptional, op = .addField q field entity isOptional ∧
      x = f.fieldNode q field entity isOptional := by
  cases op with
  | addSource entity isOptional => exact .inl ⟨_, _, rfl, (Option.some.inj h).symm⟩
  | follow q edge =>
    rw [Operation.adds] at h
    split at h
    · next hnone => exact .inr (.inl ⟨_, _, rfl, Option.isNone_iff_eq_none.1 hnone, (Option.some.inj h).symm⟩)
    · cases h
  | addField q field entity isOptional => exact .inr (.inr ⟨_, _, _, _, rfl, (Option.some.inj h).symm⟩)
  | addAlias | remove | wrap | makePresent | makeOptional => cases h

/-- A navigation that has been followed before leads to the child that is there. -/
theorem follow_of_adds {q : NodeId} {edge : NavigationEdge} (h : (Operation.follow q edge).adds f = none) :
    f.perform (.follow q edge) = f := by
  rw [perform, follow]
  cases hc : f.child? q edge.name with
  | some c => rfl
  | none => simp [Operation.adds, hc] at h

/-- A new node is a leaf of its tree, and not removed. -/
theorem leaf_of_adds (h : op.adds f = some x) : x.children = [] ∧ x.isRemoved = false := by
  rcases adds_cases h with ⟨_, _, -, rfl⟩ | ⟨_, _, -, -, rfl⟩ | ⟨_, _, _, _, -, rfl⟩ <;> exact ⟨rfl, rfl⟩

/-- An operation adds a node, or it leaves all nodes and sources in their places. -/
theorem perform_cases (h : op.Known f) : (∃ x, op.adds f = some x ∧ Added f (f.perform op) x) ∨
    op.adds f = none ∧ f.Kept (f.perform op) := by
  cases op with
  | addSource entity isOptional => exact .inl ⟨_, rfl, added_addSource f entity isOptional⟩
  | follow q edge =>
    rw [perform, Operation.adds, follow]
    cases f.child? q edge.name with
    | some k => exact .inr ⟨rfl, .refl f⟩
    | none => exact .inl ⟨_, rfl, (added_addNode fun q' hq' => by cases hq'; exact h).2.2⟩
  | addField q field entity isOptional =>
    exact .inl ⟨_, rfl, (added_addNode fun q' hq' => by cases hq'; exact h).2.2⟩
  | addAlias n path => exact .inr ⟨rfl, kept_addAlias f n path⟩
  | remove n => exact .inr ⟨rfl, kept_remove f n⟩
  | wrap path m => exact .inr ⟨rfl, kept_wrap f path m⟩
  | makePresent n place => exact .inr ⟨rfl, kept_makePresent f n place⟩
  | makeOptional m => exact .inr ⟨rfl, kept_makeOptional f m⟩

end Steps

end Nodes

end Forest

end EntityQuery
