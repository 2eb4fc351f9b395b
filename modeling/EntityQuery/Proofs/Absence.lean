import EntityQuery.Proofs.Identity
import EntityQuery.Proofs.Links
import EntityQuery.Proofs.Tables
import EntityQuery.Proofs.Trees

/-!
# Rows that can be absent, after a projection

That a row can be absent is noted at its node, and an equality that reads a property of such a row is
guarded by it (`IsGuarded`). When the pending selector of a stream is applied, the projected rows get
nodes of their own. A new node keeps the note of the node that its rows come from (`KeepsAbsence`): the
root, if the rows are those of one node and are seen as rows of an entity, and each field of a new record.
The root of records that are passed on unchanged is a new node, too, but is always taken for present.
-/

namespace EntityQuery

open EntityQuery.Expr EntityQuery.Forest

variable {M : Model} {p p' : Progress} {f g : Forest} {s s' : Stream} {selector a b : Expr}
  {n q : NodeId} {r : RowRef} {entity? : Option String}

section Guards

/-- An equality of the two sides has a guard. -/
def IsGuarded (f : Forest) (a b : Expr) : Prop :=
  ∃ guards, guardedEquality f a b = .nullSafeEqual guards a b

theorem isGuarded_iff : IsGuarded f a b ↔ optionalReads f a ++ optionalReads f b ≠ [] := by
  unfold IsGuarded guardedEquality
  cases h : distinctNodes (optionalReads f a ++ optionalReads f b) with
  | nil =>
    refine iff_of_false (fun ⟨_, h⟩ => nomatch h) (not_not.2 ?_)
    refine List.eq_nil_iff_forall_not_mem.2 fun r hr => ?_
    obtain ⟨r', hr', -⟩ := exists_distinctNodes hr
    rw [h] at hr'
    cases hr'
  | cons guard guards =>
    refine iff_of_true ⟨_, rfl⟩ (List.ne_nil_of_mem (mem_of_distinctNodes (r := guard) ?_))
    rw [h]
    exact .head _

instance : Decidable (IsGuarded f a b) := decidable_of_iff _ isGuarded_iff.symm

/-- A column of a row, compared with something that reads no row that can be absent, is guarded if and
only if the row can be absent. -/
theorem isGuarded_member_iff {column : String} (hb : optionalReads f b = []) :
    IsGuarded f (.member (.rowRef r) column) b ↔ (f.node r.node).isOptional = true := by
  rw [isGuarded_iff, hb, List.append_nil, optionalReads, gather_eq]
  dsimp only [Option.getD_some]
  cases (f.node r.node).isOptional <;> simp

/-- The second node can be absent if and only if the first one can, so that a column of the one is guarded
if and only if a column of the other is. -/
structure KeepsAbsence (f : Forest) (n : NodeId) (f' : Forest) (n' : NodeId) : Prop where
  isOptional : (f'.node n').isOptional = (f.node n).isOptional
  guarded : ∀ column a b, optionalReads f a = [] → optionalReads f' b = [] →
    (IsGuarded f (.member (f.ref n) column) a ↔ IsGuarded f' (.member (f'.ref n') column) b)

theorem keepsAbsence_iff : KeepsAbsence f n g q ↔ (g.node q).isOptional = (f.node n).isOptional := by
  refine ⟨KeepsAbsence.isOptional, fun h => ⟨h, fun column a b ha hb => ?_⟩⟩
  rw [Forest.ref, Forest.ref, isGuarded_member_iff ha, isGuarded_member_iff hb, h]

end Guards

section Fields

/-- The rows of a node are what a selector puts into a field of the record that it returns. -/
inductive Provides (f : Forest) : Expr → String → NodeId → Prop
  | projected {fields : List (String × Expr)} {name : String} {r : RowRef} :
    (name, .rowRef r) ∈ fields → Provides f (.record fields) name r.node
  | passed {r : RowRef} {name : String} {c : NodeId} : c ∈ (f.node r.node).children →
    (f.node c).field = some name → (f.node c).isRemoved = false → Provides f (.rowRef r) name c

theorem mem_entityFields_iff {field : EntityField} : field ∈ entityFields f selector ↔
    ∃ n, Provides f selector field.name n ∧ (f.node n).entity = some field.entity ∧
      field.isOptional = (f.node n).isOptional := by
  constructor
  · intro h
    unfold entityFields at h
    split at h
    · obtain ⟨⟨name, value⟩, hmem, h⟩ := List.mem_filterMap.1 h
      dsimp only at h
      split at h
      · next r =>
        obtain ⟨entity, hentity, rfl⟩ := Option.map_eq_some_iff.1 h
        exact ⟨r.node, .projected hmem, hentity, rfl⟩
      · cases h
    · obtain ⟨c, hc, h⟩ := List.mem_filterMap.1 h
      dsimp only at h
      split at h
      · next name entity hname hentity =>
        split at h
        · cases h
        · next live =>
          cases h
          exact ⟨c, .passed hc hname (Bool.not_eq_true _ ▸ live), hentity, rfl⟩
      · cases h
    · cases h
  · obtain ⟨name, entity, isOptional⟩ := field
    rintro ⟨n, hprovides, hentity, rfl⟩
    cases hprovides with
    | projected hmem => exact List.mem_filterMap.2 ⟨_, hmem, by simp [hentity]⟩
    | passed hc hname live => exact List.mem_filterMap.2 ⟨n, hc, by simp [hname, hentity, live]⟩

end Fields

section Sources

/-- The root of a new source is the last node, and it has no children yet. -/
theorem addSource_root (f : Forest) (entity? : Option String) (isOptional : Bool) :
    (f.addSource entity? isOptional).2.root ⟨f.sources.length⟩ = ⟨f.size⟩ ∧
      (f.addSource entity? isOptional).2.size = f.size + 1 ∧
      ((f.addSource entity? isOptional).2.node ⟨f.size⟩).isOptional = isOptional ∧
      ((f.addSource entity? isOptional).2.node ⟨f.size⟩).children = [] := by
  have hroot : (f.addSource entity? isOptional).2.root ⟨f.sources.length⟩ = ⟨f.size⟩ :=
    congrArg RowSource.root ((source_addSource ..).trans (if_pos rfl))
  have added := added_addSource f entity? isOptional
  rw [added.new]
  exact ⟨hroot, added.size, rfl, rfl⟩

/-- The field of a record that a node stands for. -/
structure IsField (f : Forest) (n : NodeId) (field : EntityField) : Prop where
  name : (f.node n).field = some field.name
  entity : (f.node n).entity = some field.entity
  isOptional : (f.node n).isOptional = field.isOptional

/-- A node that is always present has these fields below it. -/
structure HasFields (f : Forest) (n : NodeId) (fields : List EntityField) : Prop where
  range : n.index < f.size
  isOptional : (f.node n).isOptional = false
  children : ∀ c ∈ (f.node n).children, c.index < f.size
  fields : List.Forall₂ (IsField f) (f.node n).children fields

theorem HasFields.addField {fields : List EntityField} (h : HasFields f n fields) (field : EntityField) :
    HasFields (f.addField n field.name (some field.entity) field.isOptional).2 n (fields ++ [field]) := by
  let x : Node := {
    source := (f.node n).source, parent := some n, edge := none, entity := some field.entity
    field := some field.name, children := [], isOptional := field.isOptional || (f.node n).isOptional
    isPresent := true, isRemoved := false, aliases := [[field.name]], place := [field.name]
    wrapsBefore := (f.source (f.node n).source).wraps.length }
  obtain ⟨-, -, added⟩ := added_addNode (f := f) (x := x) (fun _ hq => by cases hq; exact h.range)
  have children : ((f.addNode x).2.node n).children = (f.node n).children ++ [⟨f.size⟩] :=
    (children_addNode rfl h.range).trans (if_pos rfl)
  change HasFields (f.addNode x).2 n _
  refine ⟨added.size ▸ Nat.lt_succ_of_lt h.range, (added.same h.range).isOptional.trans h.isOptional,
    fun c hc => ?_, ?_⟩
  · rw [added.size]
    rcases List.mem_append.1 (children ▸ hc) with hc | hc
    · exact Nat.lt_succ_of_lt (h.children c hc)
    · exact List.mem_singleton.1 hc ▸ Nat.lt_succ_self _
  · have old : List.Forall₂ (IsField (f.addNode x).2) (f.node n).children fields := by
      refine List.forall₂_iff_zip.2 ⟨h.fields.length_eq, fun {c field} hc => ?_⟩
      have same := added.same (h.children c (List.of_mem_zip hc).1)
      have hfield := (List.forall₂_iff_zip.1 h.fields).2 hc
      exact ⟨same.field.trans hfield.name, same.entity.trans hfield.entity,
        same.isOptional.trans hfield.isOptional⟩
    have new : IsField (f.addNode x).2 ⟨f.size⟩ field := by
      constructor <;> rw [added.new]
      exact (congrArg _ h.isOptional).trans (Bool.or_false _)
    rw [children]
    exact List.rel_append old (.cons new .nil)

theorem Runs.addFields {before fields : List EntityField} {u : Unit} (hp : HasFields p.forest n before)
    (h : Runs (fields.forM fun field => do
      let _ ← Expansion.growForest (·.addField n field.name (some field.entity) field.isOptional))
      M p u p') :
    HasFields p'.forest n (before ++ fields) ∧ p'.forest.sources = p.forest.sources := by
  induction fields generalizing p before with
  | nil =>
    obtain ⟨-, rfl⟩ := Runs.pure_iff.1 h
    exact ⟨(List.append_nil before).symm ▸ hp, rfl⟩
  | cons field fields ih =>
    obtain ⟨_, q, hfield, h⟩ := Runs.bind_iff.1 (show Runs (_ >>= fun _ => fields.forM _) M p u p' from h)
    simp only [Runs.bind_iff, Runs.growForest_iff, Runs.pure_iff] at hfield
    obtain ⟨_, _, ⟨rfl, rfl⟩, -, rfl⟩ := hfield
    obtain ⟨done, sources⟩ := ih (hp.addField field) h
    exact ⟨by rwa [List.append_assoc] at done, sources⟩

/-- What is known of the root of a new source for projected rows. -/
structure ProjectedRoot (f : Forest) (selector : Expr) (entity? : Option String) (g : Forest)
    (root : NodeId) : Prop where
  isOptional : ∀ r, selector = .rowRef r →
    entity?.isSome ∨ (f.node r.node).entity.isSome ∨ (f.node r.node).isOptional = false →
    (g.node root).isOptional = (f.node r.node).isOptional
  fields : ∀ c ∈ (g.node root).children, ∃ field ∈ entityFields f selector, IsField g c field

theorem ProjectedRoot.entity (entity : String) {isOptional : Bool}
    (h : ∀ r, selector = .rowRef r → isOptional = (f.node r.node).isOptional) :
    ProjectedRoot f selector entity? (f.addSource (some entity) isOptional).2 ⟨f.size⟩ := by
  obtain ⟨-, -, optional, children⟩ := addSource_root f (some entity) isOptional
  refine ⟨fun r hr _ => optional.trans (h r hr), ?_⟩
  rw [children]
  nofun

theorem Runs.projectedSource {m : SourceId}
    (h : Runs (EntityQuery.projectedSource selector entity?) M p m p') :
    m = ⟨p.forest.sources.length⟩ ∧ p'.forest.root m = ⟨p.forest.size⟩ ∧
      ProjectedRoot p.forest selector entity? p'.forest ⟨p.forest.size⟩ := by
  simp only [EntityQuery.projectedSource, Runs.bind_iff, Runs.forest_iff] at h
  obtain ⟨_, _, ⟨rfl, rfl⟩, h⟩ := h
  split at h
  · obtain ⟨rfl, rfl⟩ := Runs.growForest_iff.1 h
    exact ⟨rfl, (addSource_root ..).1, .entity _ (by rintro r rfl; rfl)⟩
  · obtain ⟨rfl, rfl⟩ := Runs.growForest_iff.1 h
    exact ⟨rfl, (addSource_root ..).1, .entity _ (by rintro r rfl; rfl)⟩
  · next hentity =>
    simp only [Runs.bind_iff, Runs.growForest_iff, Runs.forest_iff, Runs.pure_iff] at h
    obtain ⟨_, _, ⟨rfl, rfl⟩, _, _, ⟨rfl, rfl⟩, _, q, hfields, rfl, rfl⟩ := h
    obtain ⟨root, size, isOptional, children⟩ := addSource_root p.forest none false
    have empty : HasFields (p.forest.addSource none false).2 ⟨p.forest.size⟩ [] :=
      ⟨size ▸ Nat.lt_succ_self _, isOptional, by rw [children]; simp, by rw [children]; exact .nil⟩
    rw [show (p.forest.addSource none false).1 = ⟨p.forest.sources.length⟩ from rfl, root] at hfields
    obtain ⟨done, sources⟩ := Runs.addFields empty hfields
    refine ⟨rfl, ?_, ?_, fun c hc => ?_⟩
    · exact (congrArg (fun m => (m.getD p.forest.sources.length default).root) sources).trans root
    · rintro r rfl (h | h | h)
      · simp at h
      · dsimp only [Option.bind_some] at hentity
        rw [hentity] at h
        cases h
      · rw [h, done.isOptional]
    · obtain ⟨length, each⟩ := List.forall₂_iff_get.1 done.fields
      obtain ⟨i, hi, rfl⟩ := List.getElem_of_mem hc
      exact ⟨_, List.getElem_mem (length ▸ hi), each i hi (length ▸ hi)⟩

end Sources

section Materializing

/-- What projected rows keep of the rows that they come from. The root of the new source can be absent
if and only if the row could that the selector refers to, if the new rows are seen as rows of an entity
or that row was always present; and a field can be absent if and only if the rows could that the selector
puts there. -/
theorem materialize_keepsAbsence (h : Runs (materialize s entity?) M p s' p')
    (hfresh : s.needsProjection = true ∨ entity?.isSome ∧ s.entity? p.forest ≠ entity?) :
    ∃ m, s'.sources = [m] ∧ p.forest.sources.length ≤ m.index ∧
      s'.selector = p'.forest.ref (p'.forest.root m) ∧
      (∀ r, s.selector = .rowRef r → entity?.isSome ∨ (p.forest.node r.node).entity.isSome ∨
          (p.forest.node r.node).isOptional = false →
        KeepsAbsence p.forest r.node p'.forest (p'.forest.root m)) ∧
      ∀ c ∈ (p'.forest.node (p'.forest.root m)).children, ∃ name n,
        (p'.forest.node c).field = some name ∧ Provides p.forest s.selector name n ∧
        (p'.forest.node c).entity = (p.forest.node n).entity ∧ KeepsAbsence p.forest n p'.forest c := by
  simp only [materialize, Runs.bind_iff, Runs.forest_iff] at h
  obtain ⟨_, _, ⟨rfl, rfl⟩, h⟩ := h
  rw [if_neg (by obtain hprojects | ⟨hsome, hne⟩ := hfresh <;> simp [*])] at h
  simp only [Runs.bind_iff, Runs.modifyTally_iff, Runs.forest_iff, Runs.ref_iff, Runs.pure_iff] at h
  obtain ⟨body, q, hbody, source, q', hsource, _, _, rfl, _, _, ⟨rfl, rfl⟩, _, _, ⟨rfl, rfl⟩, rfl,
    rfl⟩ := h
  obtain ⟨rfl, root, projected⟩ := Runs.projectedSource hsource
  rw [Stream.resolve_forest hbody] at root projected ⊢
  refine ⟨_, rfl, Nat.le_refl _, rfl, fun r hr hkept => ?_, fun c hc => ?_⟩
  · rw [root, keepsAbsence_iff]
    exact projected.isOptional r hr hkept
  · obtain ⟨field, hfield, isField⟩ := projected.fields c (root ▸ hc)
    obtain ⟨n, provides, entity, isOptional⟩ := mem_entityFields_iff.1 hfield
    exact ⟨field.name, n, isField.name, provides, isField.entity.trans entity.symm,
      keepsAbsence_iff.2 (isField.isOptional.trans isOptional)⟩

end Materializing

namespace Shop

/-- Where customers are rows that can be absent. -/
def lostCustomers : Progress where
  forest := (Forest.empty.addSource "Customer" true).2

/-- Where records without an entity are rows that can be absent. -/
def lostRecords : Progress where
  forest := (Forest.empty.addSource none true).2

/-- A stream that is still to be projected to the rows of the only source. -/
def projected : Stream where
  parameter := "c"
  sources := [⟨0⟩]
  needsProjection := true
  ordered := false
  cardinality := none
  rows := .entitySet "Customer"
  selector := .rowRef ⟨⟨0⟩, ⟨0⟩, []⟩

end Shop

/-- A column of a customer that can be absent is guarded after the projection, too. -/
theorem materialize_lostCustomers : ∃ s' p',
    Runs (materialize Shop.projected none) ⟨Shop.catalog, {}⟩ Shop.lostCustomers s' p' ∧
    IsGuarded p'.forest (.member s'.selector "Name") .null := by
  obtain ⟨⟨s', p'⟩, h⟩ := Except.exists_of_isSome
    (show (materialize Shop.projected none ⟨Shop.catalog, {}⟩ Shop.lostCustomers).toOption.isSome = true
      by decide +kernel)
  refine ⟨s', p', h, ?_⟩
  obtain ⟨m, -, -, selector, root, -⟩ := materialize_keepsAbsence h (.inl rfl)
  rw [selector]
  exact ((root _ rfl (.inr (.inl rfl))).guarded "Name" .null .null rfl rfl).1 ⟨_, rfl⟩

/-- A column of a record that can be absent is guarded before the projection, and not after it. -/
theorem materialize_lostRecords : ∃ s' p',
    Runs (materialize Shop.projected none) ⟨Shop.catalog, {}⟩ Shop.lostRecords s' p' ∧
    IsGuarded Shop.lostRecords.forest (.member Shop.projected.selector "Name") .null ∧
    ¬ IsGuarded p'.forest (.member s'.selector "Name") .null := by
  obtain ⟨⟨s', p'⟩, h, unguarded⟩ := Except.exists_of_any
    (show (materialize Shop.projected none ⟨Shop.catalog, {}⟩ Shop.lostRecords).toOption.any (fun r =>
      decide (¬ IsGuarded r.2.forest (.member r.1.selector "Name") .null)) = true by decide +kernel)
  exact ⟨s', p', h, ⟨_, rfl⟩, of_decide_eq_true unguarded⟩

end EntityQuery
