import EntityQuery.Proofs.Branching
import EntityQuery.Proofs.Simulation

/-!
# Optional nodes

The rows of a node can be missing if the rows of its source can be, or if a step on the way down to it can
find no row. A node is told so when it is added, and again when its source becomes optional; `optional_iff`
says that this comes to the same, in whatever order it happens. So nothing below an optional node is
required, and a join below one keeps all rows and reads no key of a missing one.
-/

namespace EntityQuery

open EntityQuery.Expr

namespace Forest

variable {f g : Forest} {n k q c : NodeId} {m : SourceId} {x : Node} {ops : List Operation} {op : Operation}

/-- The rows of the source can be missing: from the start, or since a join. -/
def Loosened (ops : List Operation) (m : SourceId) : Prop :=
  Performed ops fun f op => op = .makeOptional m ∨
    ∃ entity, op = .addSource entity true ∧ (f.addSource entity true).1 = m

/-- The step that leads to the node can find no row: it is a navigation that is not required or leads to a
dependent, or an optional field. -/
def Loose (ops : List Operation) (k : NodeId) : Prop :=
  (∃ edge, ((after ops).node k).edge = some edge ∧ (edge.isRequired = false ∨ edge.toPrincipal = false)) ∨
  Performed ops fun f op =>
    ∃ q field entity, op = .addField q field entity true ∧ (f.addField q field entity true).1 = k

/-- What can make the rows of a node missing. -/
def CanBeMissing (ops : List Operation) (n : NodeId) : Prop :=
  Loosened ops ((after ops).node n).source ∨ ∃ k, (after ops).Above k n ∧ Loose ops k

theorem canBeMissing_top (h : ((after ops).node n).parent = none) :
    CanBeMissing ops n ↔ Loosened ops ((after ops).node n).source ∨ Loose ops n := by
  refine or_congr_right ⟨?_, fun hk => ⟨n, .refl, hk⟩⟩
  rintro ⟨k, hk, loose⟩
  rcases Relation.ReflTransGen.cases_head hk with rfl | ⟨q, hq, -⟩
  · exact loose
  · cases h.symm.trans hq

/-- Rows are missing with those of the parent, or where the last step finds none. -/
theorem canBeMissing_child (hq : ((after ops).node n).parent = some q)
    (source : ((after ops).node q).source = ((after ops).node n).source) :
    CanBeMissing ops n ↔ CanBeMissing ops q ∨ Loose ops n := by
  have above (k : NodeId) : (after ops).Above k n ↔ (after ops).Above k q ∨ k = n := by
    constructor
    · intro hk
      rcases Relation.ReflTransGen.cases_head hk with rfl | ⟨q', hq', hk⟩
      · exact .inr rfl
      · obtain rfl := Option.some.inj (hq.symm.trans hq')
        exact .inl hk
    · rintro (hk | rfl)
      · exact .head hq hk
      · exact .refl
  simp only [CanBeMissing, above, source, or_and_right, exists_or, exists_eq_left, or_assoc]

theorem edge_isOptional (edge : NavigationEdge) :
    edge.isOptional = true ↔ edge.isRequired = false ∨ edge.toPrincipal = false := by
  simp [NavigationEdge.isOptional]

theorem loosened_concat : Loosened (ops ++ [op]) m ↔ Loosened ops m ∨ op = .makeOptional m ∨
    ∃ entity, op = .addSource entity true ∧ m = ⟨(after ops).sources.length⟩ := by
  rw [Loosened, performed_concat]
  exact or_congr_right (or_congr_right (exists_congr fun _ => and_congr_right fun _ => eq_comm))

theorem loose_concat : Loose (ops ++ [op]) k ↔
    (∃ edge, (((after ops).perform op).node k).edge = some edge ∧
      (edge.isRequired = false ∨ edge.toPrincipal = false)) ∨
    (Performed ops fun f op =>
      ∃ q field entity, op = .addField q field entity true ∧ (f.addField q field entity true).1 = k) ∨
    ∃ q field entity, op = .addField q field entity true ∧ k = ⟨(after ops).size⟩ := by
  rw [Loose, performed_concat, after_concat]
  refine or_congr_right (or_congr_right ?_)
  exact exists_congr fun _ => exists_congr fun _ => exists_congr fun _ => and_congr_right fun _ => eq_comm

section Steps

/-- What an operation leaves alone of the nodes that are there. -/
theorem same_perform (known : op.Known f) (hn : n.index < f.size) :
    ((f.perform op).node n).source = (f.node n).source ∧ ((f.perform op).node n).parent = (f.node n).parent ∧
      ((f.perform op).node n).edge = (f.node n).edge := by
  rcases perform_cases known with ⟨x, -, added⟩ | ⟨-, kept⟩
  · exact ⟨(added.same hn).source, (added.same hn).parent, (added.same hn).edge⟩
  · exact ⟨(kept.node n).source, (kept.node n).parent, (kept.node n).edge⟩

theorem grows_perform (known : op.Known f) :
    f.size ≤ (f.perform op).size ∧ f.sources.length ≤ (f.perform op).sources.length := by
  rcases perform_cases known with ⟨x, -, added⟩ | ⟨-, kept⟩
  · exact ⟨added.grows.size, added.sources_le⟩
  · exact ⟨Nat.le_of_eq kept.size.symm, Nat.le_of_eq kept.sources.symm⟩

theorem above_perform (hf : f.Branching) (known : op.Known f) (hn : n.index < f.size) :
    (f.perform op).Above k n ↔ f.Above k n := by
  rw [← (hf.perform known).mem_lineage_iff, ← hf.mem_lineage_iff,
    lineage_of_parents (fun hn => (same_perform known hn).2.1) hn]

/-- An old node becomes optional with its source, and not otherwise. -/
theorem isOptional_perform (known : op.Known f) (hn : n.index < f.size) :
    ((f.perform op).node n).isOptional = true ↔
      (f.node n).isOptional = true ∨ op = .makeOptional (f.node n).source := by
  have other (h : ((f.perform op).node n).isOptional = (f.node n).isOptional)
      (hop : ∀ m, op ≠ .makeOptional m) : ((f.perform op).node n).isOptional = true ↔
        (f.node n).isOptional = true ∨ op = .makeOptional (f.node n).source := by
    rw [h, or_iff_left (hop _)]
  have changed {change : Node → Node} {k : NodeId} (h : ∀ x : Node, (change x).isOptional = x.isOptional) :
      ((f.modifyNode k change).node n).isOptional = (f.node n).isOptional := by
    rcases f.node_modifyNode k n change with hk | ⟨rfl, -, hk⟩ <;> rw [hk]
    exact h _
  cases op with
  | addSource | addField =>
    rcases perform_cases known with ⟨x, -, added⟩ | ⟨hx, -⟩
    · exact other (added.same hn).isOptional nofun
    · cases hx
  | follow q edge =>
    refine other ?_ nofun
    rcases perform_cases known with ⟨x, -, added⟩ | ⟨hx, -⟩
    · exact (added.same hn).isOptional
    · rw [follow_of_adds hx]
  | addAlias k path => exact other (changed fun x => by split <;> rfl) nofun
  | remove k => exact other (same_remove f k n).isOptional nofun
  | wrap path m => exact other rfl nofun
  | makePresent k place => exact other (changed fun _ => rfl) nofun
  | makeOptional m =>
    have hnode : (f.makeOptional m).node n =
        if (f.node n).source = m then { f.node n with isOptional := true } else f.node n := by
      simp only [node, makeOptional, List.getD_eq_getElem?_getD, List.getElem?_map, List.getElem?_eq_getElem hn]
      rfl
    change ((f.makeOptional m).node n).isOptional = true ↔ _
    rw [hnode, Operation.makeOptional.injEq]
    split
    · next h => simp [h]
    · next h => simp [Ne.symm h]

end Steps

section Ranges

variable (h : Performable Operation.Known .empty ops)
include h

theorem Loosened.range (hm : Loosened ops m) : m.index < (after ops).sources.length := by
  induction ops using List.reverseRecOn with
  | nil => exact absurd hm not_performed_nil
  | append_singleton ops op ih =>
    obtain ⟨h, known⟩ := performable_concat.1 h
    rw [after_concat]
    rcases loosened_concat.1 hm with hm | rfl | ⟨entity, rfl, rfl⟩
    · exact Nat.lt_of_lt_of_le (ih h hm) (grows_perform known).2
    · exact Nat.lt_of_lt_of_le known (grows_perform known).2
    · have length : ((after ops).addSource entity true).2.sources.length = (after ops).sources.length + 1 :=
        List.length_append
      exact Nat.lt_of_lt_of_eq (Nat.lt_succ_self _) length.symm

theorem Loose.range (hk : Loose ops k) : k.index < (after ops).size := by
  rcases hk with ⟨edge, hedge, -⟩ | hk
  · refine Nat.lt_of_not_le fun hle => ?_
    rw [node_of_size_le hle] at hedge
    cases hedge
  · induction ops using List.reverseRecOn with
    | nil => exact absurd hk not_performed_nil
    | append_singleton ops op ih =>
      obtain ⟨h, known⟩ := performable_concat.1 h
      rw [after_concat]
      rcases performed_concat.1 hk with hk | ⟨q, field, entity, rfl, rfl⟩
      · exact Nat.lt_of_lt_of_le (ih h hk) (grows_perform known).1
      · rcases perform_cases known with ⟨x, -, added⟩ | ⟨hx, -⟩
        · exact added.size ▸ Nat.lt_succ_self _
        · cases hx

/-- Nothing has been performed on a node that is only added now. -/
theorem loose_of_new (added : Added (after ops) ((after ops).perform op) x) :
    Loose (ops ++ [op]) ⟨(after ops).size⟩ ↔
      (∃ edge, x.edge = some edge ∧ (edge.isRequired = false ∨ edge.toPrincipal = false)) ∨
      ∃ q field entity, op = .addField q field entity true := by
  rw [loose_concat, added.new]
  refine or_congr_right ((or_iff_right fun hk => ?_).trans ?_)
  · exact Nat.lt_irrefl _ (Loose.range h (.inr hk))
  · simp

end Ranges

section History

variable (h : Performable Operation.Known .empty ops) (known : op.Known (after ops))
include h known

/-- For the nodes that are there, an operation matters only if it makes their source optional. -/
theorem canBeMissing_of_old (hn : n.index < (after ops).size) :
    CanBeMissing (ops ++ [op]) n ↔ CanBeMissing ops n ∨ op = .makeOptional ((after ops).node n).source := by
  have hf := branching_after h
  have source : Loosened (ops ++ [op]) ((after ops).node n).source ↔
      Loosened ops ((after ops).node n).source ∨ op = .makeOptional ((after ops).node n).source := by
    rw [loosened_concat]
    refine or_congr_right (or_iff_left ?_)
    rintro ⟨entity, -, heq⟩
    exact absurd (hf.source hn) (heq ▸ Nat.lt_irrefl _)
  have step {k : NodeId} (hk : (after ops).Above k n) : Loose (ops ++ [op]) k ↔ Loose ops k := by
    have range : k.index < (after ops).size := Nat.lt_of_le_of_lt (hf.index_le hk) hn
    rw [loose_concat, (same_perform known range).2.2]
    refine or_congr_right (or_iff_left ?_)
    rintro ⟨q, field, entity, -, rfl⟩
    exact Nat.lt_irrefl _ range
  rw [CanBeMissing, after_concat, (same_perform known hn).1, source, or_right_comm]
  refine or_congr_left (or_congr_right (exists_congr fun k => ?_))
  rw [above_perform hf known hn]
  exact and_congr_right step

/-- A new node is told all that can make its rows missing. -/
theorem canBeMissing_of_new (hx : op.adds (after ops) = some x)
    (ih : ∀ {n : NodeId}, n.index < (after ops).size →
      (((after ops).node n).isOptional = true ↔ CanBeMissing ops n)) :
    CanBeMissing (ops ++ [op]) ⟨(after ops).size⟩ ↔ x.isOptional = true := by
  obtain ⟨x', hx', added⟩ | ⟨hx', -⟩ := perform_cases known
  swap
  · cases hx.symm.trans hx'
  obtain rfl := Option.some.inj (hx.symm.trans hx')
  have new : (after (ops ++ [op])).node ⟨(after ops).size⟩ = x := after_concat ops op ▸ added.new
  -- A new child is told what its parent has been told.
  have child {q : NodeId} (hq : x.parent = some q) (range : q.index < (after ops).size)
      (source : ((after ops).node q).source = x.source) (hop : ∀ m, op ≠ .makeOptional m) :
      CanBeMissing (ops ++ [op]) ⟨(after ops).size⟩ ↔
        ((after ops).node q).isOptional = true ∨ Loose (ops ++ [op]) ⟨(after ops).size⟩ := by
    rw [canBeMissing_child (new ▸ hq), canBeMissing_of_old h known range, or_iff_left (hop _), ih range]
    rw [new, ← source, after_concat, (same_perform known range).1]
  have loose := loose_of_new h added
  rcases adds_cases hx with ⟨entity, isOptional, rfl, rfl⟩ | ⟨q, edge, rfl, -, rfl⟩ |
    ⟨q, field, entity, isOptional, rfl, rfl⟩
  · rw [canBeMissing_top (new ▸ rfl), loose, new, loosened_concat]
    have unheard : ¬Loosened ops ⟨(after ops).sources.length⟩ := fun hm => Nat.lt_irrefl _ (hm.range h)
    simp [wholeRow, unheard]
  · rw [child rfl known rfl nofun, loose]
    simp [target, edge_isOptional]
  · rw [child rfl known rfl nofun, loose]
    simp [fieldNode, or_comm]

end History

/-- A node says that its rows can be missing if and only if something has made it so. The induction is on
the operations, the last one at the end. -/
theorem isOptional_iff (h : Performable Operation.Known .empty ops) (hn : n.index < (after ops).size) :
    ((after ops).node n).isOptional = true ↔ CanBeMissing ops n := by
  induction ops using List.reverseRecOn generalizing n with
  | nil => exact absurd hn (Nat.not_lt_zero _)
  | append_singleton ops op ih =>
    obtain ⟨h, known⟩ := performable_concat.1 h
    by_cases old : n.index < (after ops).size
    · rw [canBeMissing_of_old h known old, after_concat, isOptional_perform known old, ih h old]
    · rw [after_concat] at hn ⊢
      rcases perform_cases known with ⟨x, hx, added⟩ | ⟨-, kept⟩
      · rcases added.cases n with hn' | rfl | ⟨hle, -⟩
        · exact absurd hn' old
        · rw [canBeMissing_of_new h known hx (ih h), added.new]
        · exact absurd hn (Nat.not_lt_of_le hle)
      · exact absurd (kept.size ▸ hn) old

/-- What is below an optional node is optional. -/
theorem isOptional_of_above (h : Performable Operation.Known .empty ops) (hq : (after ops).Above q n)
    (optional : ((after ops).node q).isOptional = true) : ((after ops).node n).isOptional = true := by
  have hf := branching_after h
  induction hq using Relation.ReflTransGen.head_induction_on with
  | refl => exact optional
  | @head n p hp _ ih =>
    have range := range_of_parent hp
    obtain ⟨older, source, -⟩ := hf.parent hp
    have above := (isOptional_iff h (Nat.lt_trans older range)).1 ih
    exact (isOptional_iff h range).2 ((canBeMissing_child hp source).2 (.inl above))

/-- What is optional stays optional. -/
theorem isOptional_of_more {more : List Operation} (h : Performable Operation.Known f more)
    (optional : (f.node n).isOptional = true) : ((more.foldl perform f).node n).isOptional = true := by
  have range : n.index < f.size := by
    refine Nat.lt_of_not_le fun hle => ?_
    rw [node_of_size_le hle] at optional
    cases optional
  refine (h.invariant (I := fun g => n.index < g.size ∧ (g.node n).isOptional = true) ⟨range, optional⟩ ?_).2
  intro g op hg known
  exact ⟨Nat.lt_of_lt_of_le hg.1 (grows_perform known).1, (isOptional_perform known hg.1).2 (.inl hg.2)⟩

end Forest

section Joins

variable {M : Model} {p p' : Progress} {s s' : Stream} {n q : NodeId}

/-- A join from an optional node to another one keeps the rows for which there is nothing, and reads a column of
its key only if there is a row to read it from. -/
theorem Runs.joinNode_below (h : Runs (EntityQuery.joinNode s n) M p s' p') (hq : (p.forest.node n).parent = some q)
    (owner : (p.forest.node q).isOptional = true) (optional : (p.forest.node n).isOptional = true) :
    ∃ path, p.forest.rowPath? q = some path ∧ ∃ targets columns innerKey note group row,
      s'.rows = flattenedJoin s.rows targets ⟨s.parameter, .key columns⟩ innerKey note group row ∧
      note.kind = .leftOuter ∧ note.outerNullGuard = true ∧
      ∀ column ∈ columns, ∃ type read,
        column = .cond (.eq (.readPath s.parameter path) .null) (.typedNull type) read := by
  obtain ⟨q', edge, path, outerKey, innerKey, target, note, rows, p'', found, rfl, -⟩ := Runs.joinNode h
  obtain rfl := Option.some.inj (hq.symm.trans found.above)
  have kind : note.kind = .leftOuter := by rw [found.optional, if_pos optional]
  have joined := found.joined
  simp only [owner, EntityQuery.keyedJoin, kind] at joined
  obtain ⟨rfl, -⟩ := Runs.leftOuterJoin joined
  refine ⟨path, found.present, _, _, _, note, _, _, rfl, kind, found.guarded.trans owner, ?_⟩
  intro column hcolumn
  obtain ⟨_, hmem, rfl⟩ := List.mem_map.1 hcolumn
  obtain ⟨⟨o, t⟩, -, rfl⟩ := List.mem_map.1 hmem
  exact ⟨o.dataType, _, rfl⟩

end Joins

open Forest

/-- A node is optional exactly if something has made it so, now or earlier. So all that is below an optional
node is optional, and stays it, and no join below one drops a row or reads a key of a missing one. -/
theorem optional_after {ops : List Operation} (h : Performable Operation.Known .empty ops) :
    (∀ n : NodeId, n.index < (after ops).size →
      (((after ops).node n).isOptional = true ↔ CanBeMissing ops n)) ∧
    (∀ n, ((after ops).node n).isOptional = true →
      ∀ c ∈ ((after ops).node n).children, ((after ops).node c).isOptional = true) ∧
    (∀ more, Performable Operation.Known .empty (ops ++ more) → ∀ n, ((after ops).node n).isOptional = true →
      ((after (ops ++ more)).node n).isOptional = true) ∧
    ∀ (M : Model) (p p' : Progress) (s s' : Stream) (n q : NodeId), p.forest = after ops →
      Runs (joinNode s n) M p s' p' → (after ops).Above q n → q ≠ n → ((after ops).node q).isOptional = true →
      ∃ parent path, ((after ops).node n).parent = some parent ∧ (after ops).rowPath? parent = some path ∧
        ∃ targets columns innerKey note group row,
          s'.rows = flattenedJoin s.rows targets ⟨s.parameter, .key columns⟩ innerKey note group row ∧
          note.kind = .leftOuter ∧ note.outerNullGuard = true ∧
          ∀ column ∈ columns, ∃ type read,
            column = .cond (.eq (.readPath s.parameter path) .null) (.typedNull type) read := by
  refine ⟨fun n hn => isOptional_iff h hn, fun n optional c hc => ?_, fun more hmore n optional => ?_, ?_⟩
  · exact isOptional_of_above h (.single ((branching_after h).children hc)) optional
  · rw [after, List.foldl_append]
    exact isOptional_of_more (performable_append.1 hmore).2 optional
  · intro M p p' s s' n q hforest run hq hne optional
    rcases Relation.ReflTransGen.cases_head hq with rfl | ⟨parent, hparent, habove⟩
    · exact absurd rfl hne
    · have owner := isOptional_of_above h habove optional
      have child := isOptional_of_above h hq optional
      rw [← hforest] at hparent owner child ⊢
      obtain ⟨path, hpath, joined⟩ := run.joinNode_below hparent owner child
      exact ⟨parent, path, hparent, hpath, joined⟩

namespace Shop

/-- Orders that can be missing, and their buyers. -/
def missingOrders : List Operation := [.addSource (some "Order") false, .makeOptional ⟨0⟩, .follow ⟨0⟩ buyer]

/-- Every order has a buyer, but one that is missing has none. -/
theorem optional_after_missingOrders : Performable Operation.Known .empty missingOrders ∧
    ((after missingOrders).node ⟨1⟩).isOptional = true ∧ CanBeMissing missingOrders ⟨1⟩ ∧
    ∃ s' p' path targets columns innerKey note group row,
      Runs (joinNode { customers [⟨0⟩] with rows := .entitySet "Order" } ⟨1⟩) ⟨catalog, {}⟩
        { forest := after missingOrders } s' p' ∧
      (after missingOrders).rowPath? ⟨0⟩ = some path ∧
      s'.rows = flattenedJoin (.entitySet "Order") targets ⟨"c", .key columns⟩ innerKey note group row ∧
      note.kind = .leftOuter ∧ note.outerNullGuard = true ∧
      ∀ column ∈ columns, ∃ type read,
        column = .cond (.eq (.readPath "c" path) .null) (.typedNull type) read := by
  have possible : Performable Operation.Known .empty missingOrders := by decide +kernel
  obtain ⟨characterized, -, -, joins⟩ := optional_after possible
  have optional : ((after missingOrders).node ⟨1⟩).isOptional = true := by decide +kernel
  obtain ⟨s', p', run⟩ : ∃ s' p', Runs (joinNode { customers [⟨0⟩] with rows := .entitySet "Order" } ⟨1⟩)
      ⟨catalog, {}⟩ { forest := after missingOrders } s' p' := ⟨_, _, rfl⟩
  obtain ⟨parent, path, hparent, hpath, targets, columns, innerKey, note, group, row, joined⟩ :=
    joins _ _ _ _ _ ⟨1⟩ ⟨0⟩ rfl run (.single rfl) (by decide) (by decide +kernel)
  obtain rfl : parent = ⟨0⟩ := (Option.some.inj hparent).symm
  exact ⟨possible, optional, (characterized ⟨1⟩ (by decide +kernel)).1 optional, s', p', path, targets, columns, innerKey,
    note, group, row, run, hpath, joined⟩

end Shop

end EntityQuery
