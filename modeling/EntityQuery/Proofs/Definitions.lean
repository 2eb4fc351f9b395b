import EntityQuery.Catalog.Definition
import EntityQuery.Proofs.Catalogs
import EntityQuery.Proofs.Layer
import Mathlib.Data.List.Forall2
import Mathlib.Data.List.Nodup

/-!
# Which definitions describe a catalog

`CatalogDefinition.Consistent` says when the parts of a definition go together: entities have distinct
names and declared keys, and every navigation leads to a defined entity along two keys that are declared on
their sides and have the same types. Such a definition is accepted, and no other, as long as every
navigation has a key column at all (`CatalogDefinition.toCatalog_isOk_iff`); a navigation without one is
consistent, but it is refused (`CatalogDefinition.toCatalog_keyless`). The catalog has what the definition
says, with the principal keys that are left out filled in.
-/

namespace EntityQuery

section Lists

variable {ε α β : Type}

theorem Except.mapM_eq_ok_iff {f : α → Except ε β} {l : List α} {l' : List β} :
    l.mapM f = .ok l' ↔ List.Forall₂ (fun a b => f a = .ok b) l l' := by
  induction l generalizing l' with
  | nil =>
    rw [List.mapM_nil, List.forall₂_nil_left_iff]
    exact ⟨fun h => by cases h; rfl, fun h => h ▸ rfl⟩
  | cons a l ih =>
    rw [List.mapM_cons, bind_eq_ok, List.forall₂_cons_left_iff]
    constructor
    · rintro ⟨b, hb, h⟩
      obtain ⟨bs, hbs, h⟩ := bind_eq_ok.1 h
      cases h
      exact ⟨b, bs, hb, ih.1 hbs, rfl⟩
    · rintro ⟨b, bs, hb, hbs, rfl⟩
      exact ⟨b, hb, bind_eq_ok.2 ⟨bs, ih.2 hbs, rfl⟩⟩

theorem Except.exists_mapM {f : α → Except ε β} {l : List α} (h : ∀ a ∈ l, ∃ b, f a = .ok b) :
    ∃ l', List.Forall₂ (fun a b => f a = .ok b) l l' := by
  induction l with
  | nil => exact ⟨[], .nil⟩
  | cons a l ih =>
    obtain ⟨b, hb⟩ := h a (.head _)
    obtain ⟨l', hl⟩ := ih fun x hx => h x (.tail _ hx)
    exact ⟨b :: l', .cons hb hl⟩

/-- Where names are distinct, an element is found under its own. -/
theorem find?_name (name : α → String) {l : List α} (hl : (l.map name).Nodup) {a : α} (ha : a ∈ l) :
    l.find? (name · == name a) = some a := by
  induction l with
  | nil => cases ha
  | cons b l ih =>
    rw [List.map_cons, List.nodup_cons] at hl
    rcases List.mem_cons.1 ha with rfl | ha
    · exact List.find?_cons_of_pos (beq_self_eq_true _)
    · rw [List.find?_cons_of_neg, ih hl.2 ha]
      simp only [beq_iff_eq]
      exact fun heq => hl.1 (heq ▸ List.mem_map_of_mem ha)

end Lists

/-- The type of the column of that name. Of two columns of one name the first one counts. -/
def columnType? (properties : List Property) (column : String) : Option ScalarType :=
  (properties.find? (·.name == column)).map (·.dataType)

/-- The columns of both keys are declared on their sides, and the keys have the same types one by one. -/
structure KeysMatch (dependent principal : List Property) (columns principalColumns : List String) :
    Prop where
  foreignKey : ∀ column ∈ columns, ∃ p ∈ dependent, p.name = column
  principalKey : ∀ column ∈ principalColumns, ∃ p ∈ principal, p.name = column
  types : columns.map (columnType? dependent) = principalColumns.map (columnType? principal)

theorem KeysMatch.symm {dependent principal : List Property} {columns principalColumns : List String}
    (h : KeysMatch dependent principal columns principalColumns) :
    KeysMatch principal dependent principalColumns columns :=
  ⟨h.principalKey, h.foreignKey, h.types.symm⟩

theorem KeysMatch.eq_nil_iff {dependent principal : List Property} {columns principalColumns : List String}
    (h : KeysMatch dependent principal columns principalColumns) : columns = [] ↔ principalColumns = [] := by
  rw [← List.map_eq_nil_iff, h.types, List.map_eq_nil_iff]

instance (dependent principal : List Property) (columns principalColumns : List String) :
    Decidable (KeysMatch dependent principal columns principalColumns) :=
  decidable_of_iff (_ ∧ _ ∧ _) ⟨fun h => ⟨h.1, h.2.1, h.2.2⟩, fun h => ⟨h.1, h.2, h.3⟩⟩

namespace NavigationDefinition

/-- The side that the foreign key is on. -/
def dependent (n : NavigationDefinition) (owner target : EntityDefinition) : EntityDefinition :=
  if n.toPrincipal then owner else target

/-- The side that the foreign key points to. -/
def principal (n : NavigationDefinition) (owner target : EntityDefinition) : EntityDefinition :=
  if n.toPrincipal then target else owner

/-- The columns of the principal key, by default those of the principal's primary key. -/
def principalColumns (n : NavigationDefinition) (principal : EntityDefinition) : List String :=
  (n.principalKey.getD principal.key).columns

/-- The navigation leads from its owner to the target along keys that match, and not to many
principals. -/
structure Fits (n : NavigationDefinition) (owner target : EntityDefinition) : Prop where
  named : target.name = n.target
  single : ¬(n.collection = true ∧ n.toPrincipal = true)
  keys : KeysMatch (n.dependent owner target).properties (n.principal owner target).properties
    n.foreignKey.columns (n.principalColumns (n.principal owner target))

instance (n : NavigationDefinition) (owner target : EntityDefinition) : Decidable (n.Fits owner target) :=
  decidable_of_iff (_ ∧ _ ∧ _) ⟨fun h => ⟨h.1, h.2.1, h.2.2⟩, fun h => ⟨h.1, h.2, h.3⟩⟩

/-- The edge from the owner to the target. -/
def between (n : NavigationDefinition) (owner target : EntityDefinition) : NavigationEdge where
  name := n.name
  target := n.target
  foreignKey := n.foreignKey.columns
  principalKey := n.principalColumns (n.principal owner target)
  toPrincipal := n.toPrincipal
  isCollection := n.collection
  isRequired := n.required

end NavigationDefinition

namespace CatalogDefinition

/-- The parts of the definition go together. -/
structure Consistent (d : CatalogDefinition) : Prop where
  names : (d.entities.map (·.name)).Nodup
  keys : ∀ e ∈ d.entities, e.key.columns ≠ [] ∧ ∀ column ∈ e.key.columns, ∃ p ∈ e.properties, p.name = column
  navigations : ∀ e ∈ d.entities, ∀ n ∈ e.navigations, ∃ target ∈ d.entities, n.Fits e target

instance (d : CatalogDefinition) : Decidable d.Consistent :=
  decidable_of_iff (_ ∧ _ ∧ _) ⟨fun h => ⟨h.1, h.2.1, h.2.2⟩, fun h => ⟨h.1, h.2, h.3⟩⟩

/-- Every navigation has a key column. -/
def Keyed (d : CatalogDefinition) : Prop :=
  ∀ e ∈ d.entities, ∀ n ∈ e.navigations, n.foreignKey.columns ≠ []

instance (d : CatalogDefinition) : Decidable d.Keyed := by unfold Keyed; infer_instance

/-- The type is what the definition says of an entity: its key and properties as they are written, and its
navigations in order, each of them leading to the entity that it names. -/
structure Describes (d : CatalogDefinition) (e : EntityDefinition) (t : EntityType) : Prop where
  name : t.name = e.name
  primaryKey : t.primaryKey = e.key.columns
  properties : t.properties = e.properties
  navigations : List.Forall₂ (fun n edge => ∃ target ∈ d.entities, target.name = n.target ∧
    edge = n.between e target) e.navigations t.navigations

end CatalogDefinition

section Checks

variable {t owner : EntityType} {c : Catalog} {names : List String} {properties : List Property}

theorem EntityType.propertiesNamed_eq_ok_iff :
    t.propertiesNamed names = .ok properties ↔ names.map t.property? = properties.map some := by
  induction names generalizing properties with
  | nil =>
    cases properties with
    | nil => exact iff_of_true rfl rfl
    | cons p ps => exact iff_of_false nofun nofun
  | cons name names ih =>
    have property {p} : t.property name = .ok p ↔ t.property? name = some p := by
      rw [EntityType.property]
      split
      · next q hq => rw [hq, Except.ok.injEq, Option.some.injEq]
      · next hq => rw [hq]; exact iff_of_false nofun nofun
    rw [propertiesNamed, Except.bind_eq_ok]
    constructor
    · rintro ⟨p, hp, h⟩
      obtain ⟨ps, hps, h⟩ := Except.bind_eq_ok.1 h
      cases h
      rw [List.map_cons, List.map_cons, property.1 hp, ih.1 hps]
    · intro h
      cases properties with
      | nil => cases h
      | cons p ps =>
        obtain ⟨hp, hps⟩ := List.cons.inj h
        exact ⟨p, property.2 hp, Except.bind_eq_ok.2 ⟨ps, ih.2 hps, rfl⟩⟩

/-- The columns can be looked up if they are declared. -/
theorem EntityType.exists_propertiesNamed :
    (∃ properties, t.propertiesNamed names = .ok properties) ↔
      ∀ column ∈ names, ∃ p ∈ t.properties, p.name = column := by
  simp only [propertiesNamed_eq_ok_iff]
  constructor
  · rintro ⟨properties, h⟩ column hc
    have hm : t.property? column ∈ properties.map some := h ▸ List.mem_map_of_mem hc
    obtain ⟨p, -, hp⟩ := List.mem_map.1 hm
    exact ⟨p, List.mem_of_find?_eq_some hp.symm, by simpa using List.find?_some hp.symm⟩
  · intro h
    refine ⟨names.filterMap t.property?, ?_⟩
    induction names with
    | nil => rfl
    | cons name names ih =>
      obtain ⟨p, hp, rfl⟩ := h _ (.head _)
      have found : (t.property? p.name).isSome = true :=
        List.find?_isSome.2 ⟨p, hp, beq_self_eq_true _⟩
      obtain ⟨q, hq⟩ := Option.isSome_iff_exists.1 found
      rw [List.filterMap_cons_some hq, List.map_cons, List.map_cons, hq,
        ih fun column hc => h column (.tail _ hc)]

theorem EntityType.columnTypes (h : t.propertiesNamed names = .ok properties) :
    names.map (columnType? t.properties) = (properties.map (·.dataType)).map some := by
  have found : names.map (columnType? t.properties) = (names.map t.property?).map (Option.map (·.dataType)) := by
    rw [List.map_map]
    rfl
  rw [found, propertiesNamed_eq_ok_iff.1 h, List.map_map, List.map_map]
  rfl

theorem sameShape_iff {source other : List Property} : sameShape source other = true ↔
    source ≠ [] ∧ source.map (·.dataType) = other.map (·.dataType) := by
  have types : (source.length = other.length ∧ ∀ p ∈ source.zip other, p.1.dataType = p.2.dataType) ↔
      source.map (·.dataType) = other.map (·.dataType) := by
    rw [← List.forall₂_eq_eq_eq, List.forall₂_map_left_iff, List.forall₂_map_right_iff,
      List.forall₂_iff_zip]
    exact and_congr_right fun _ => ⟨fun h _ _ hp => h _ hp, fun h p hp => h hp⟩
  rw [← types]
  simp [sameShape, and_assoc, and_left_comm]

theorem Catalog.checkNavigation_eq_ok_iff {e : NavigationEdge} : c.checkNavigation owner e = .ok () ↔
    ∃ target, c.type? e.target = some target ∧ ¬(e.isCollection = true ∧ e.toPrincipal = true) ∧
      e.sourceKey ≠ [] ∧ KeysMatch owner.properties target.properties e.sourceKey e.targetKey := by
  have shape {target : EntityType} {source other : List Property}
      (hs : owner.propertiesNamed e.sourceKey = .ok source)
      (ho : target.propertiesNamed e.targetKey = .ok other) : sameShape source other = true ↔
      e.sourceKey ≠ [] ∧ KeysMatch owner.properties target.properties e.sourceKey e.targetKey := by
    have hlength : source = [] ↔ e.sourceKey = [] := by
      rw [← (EntityType.names_of_propertiesNamed hs).1, List.map_eq_nil_iff]
    have htypes : source.map (·.dataType) = other.map (·.dataType) ↔
        e.sourceKey.map (columnType? owner.properties) = e.targetKey.map (columnType? target.properties) := by
      rw [EntityType.columnTypes hs, EntityType.columnTypes ho]
      exact (List.map_inj_right fun _ _ => Option.some.inj).symm
    rw [sameShape_iff, ne_eq, hlength, htypes]
    exact and_congr_right fun _ => ⟨fun h => ⟨EntityType.exists_propertiesNamed.1 ⟨_, hs⟩,
      EntityType.exists_propertiesNamed.1 ⟨_, ho⟩, h⟩, fun h => h.types⟩
  unfold checkNavigation
  constructor
  · intro h
    split at h
    · next target ht =>
      split at h
      · cases h
      · next hsingle =>
        obtain ⟨source, hs, h⟩ := Except.bind_eq_ok.1 h
        obtain ⟨other, ho, h⟩ := Except.bind_eq_ok.1 h
        split at h
        · cases h
        · next hshape =>
          exact ⟨target, ht, by simpa using hsingle, (shape hs ho).1 (by simpa using hshape)⟩
    · cases h
  · rintro ⟨target, ht, hsingle, hkey, keys⟩
    obtain ⟨source, hs⟩ := EntityType.exists_propertiesNamed.2 keys.foreignKey
    obtain ⟨other, ho⟩ := EntityType.exists_propertiesNamed.2 keys.principalKey
    rw [ht]
    dsimp only
    rw [if_neg (by simpa using hsingle)]
    refine Except.bind_eq_ok.2 ⟨source, hs, Except.bind_eq_ok.2 ⟨other, ho, ?_⟩⟩
    rw [(shape hs ho).2 ⟨hkey, keys⟩]
    rfl

theorem Catalog.checkType_eq_ok_iff : c.checkType t = .ok () ↔
    (t.primaryKey ≠ [] ∧ ∀ column ∈ t.primaryKey, ∃ p ∈ t.properties, p.name = column) ∧
      ∀ e ∈ t.navigations, c.checkNavigation t e = .ok () := by
  rw [← EntityType.exists_propertiesNamed, ← Except.forM_eq_ok_iff]
  unfold checkType
  split
  · next hempty =>
    rw [List.isEmpty_iff] at hempty
    exact iff_of_false nofun fun h => h.1.1 hempty
  · next hkey =>
    rw [List.isEmpty_iff] at hkey
    constructor
    · intro h
      obtain ⟨key, hk, h⟩ := Except.bind_eq_ok.1 h
      exact ⟨⟨hkey, key, hk⟩, h⟩
    · rintro ⟨⟨-, key, hk⟩, h⟩
      exact Except.bind_eq_ok.2 ⟨key, hk, h⟩

theorem Catalog.checkNames_eq_ok_iff {seen : List String} {types : List EntityType} :
    checkNames seen types = .ok () ↔ (types.map (·.name)).Nodup ∧ ∀ t ∈ types, t.name ∉ seen := by
  induction types generalizing seen with
  | nil => exact iff_of_true rfl ⟨List.nodup_nil, fun t ht => nomatch ht⟩
  | cons t types ih =>
    rw [checkNames, List.map_cons, List.nodup_cons, List.forall_mem_cons]
    split
    · next hseen => exact iff_of_false nofun fun h => h.2.1 hseen
    · next hnew =>
      rw [ih]
      simp only [List.mem_cons, not_or, List.mem_map, not_exists, not_and]
      constructor
      · rintro ⟨hnodup, hrest⟩
        exact ⟨⟨fun u hu => (hrest u hu).1, hnodup⟩, hnew, fun u hu => (hrest u hu).2⟩
      · rintro ⟨⟨hne, hnodup⟩, -, hrest⟩
        exact ⟨hnodup, fun u hu => ⟨hne u hu, hrest u hu⟩⟩

theorem Catalog.checked_eq_ok_iff {types : List EntityType} : Catalog.checked types = .ok c ↔
    (types.map (·.name)).Nodup ∧ (∀ t ∈ types, (⟨types⟩ : Catalog).checkType t = .ok ()) ∧ c = ⟨types⟩ := by
  have names : checkNames [] types = .ok () ↔ (types.map (·.name)).Nodup := by
    rw [checkNames_eq_ok_iff]
    exact and_iff_left fun _ _ => List.not_mem_nil
  rw [checked, Except.bind_eq_ok, ← names, ← Except.forM_eq_ok_iff]
  constructor
  · rintro ⟨_, hnames, h⟩
    obtain ⟨_, htypes, h⟩ := Except.bind_eq_ok.1 h
    cases h
    exact ⟨hnames, htypes, rfl⟩
  · rintro ⟨hnames, htypes, rfl⟩
    exact ⟨(), hnames, Except.bind_eq_ok.2 ⟨(), htypes, rfl⟩⟩

end Checks

namespace CatalogDefinition

variable {d : CatalogDefinition} {e owner target : EntityDefinition} {n : NavigationDefinition}
  {t : EntityType} {types : List EntityType} {edge : NavigationEdge}

theorem primaryKey?_eq (hd : (d.entities.map (·.name)).Nodup) (he : e ∈ d.entities) :
    d.primaryKey? e.name = some e.key.columns := by
  have found : d.entities.reverse.find? (·.name == e.name) = some e := by
    refine find?_name EntityDefinition.name ?_ (List.mem_reverse.2 he)
    rwa [List.map_reverse, List.nodup_reverse]
  rw [primaryKey?, found]
  rfl

/-- Between defined entities a navigation has an edge, with its keys filled in. -/
theorem edge_eq (hd : (d.entities.map (·.name)).Nodup) (ho : owner ∈ d.entities) (ht : target ∈ d.entities)
    (hn : target.name = n.target) : d.edge owner.name n = .ok (n.between owner target) := by
  have key : d.primaryKey? (if n.toPrincipal then n.target else owner.name) =
      some (n.principal owner target).key.columns := by
    rw [NavigationDefinition.principal]
    split
    · exact hn ▸ primaryKey?_eq hd ht
    · exact primaryKey?_eq hd ho
  rw [CatalogDefinition.edge, NavigationDefinition.between, NavigationDefinition.principalColumns]
  cases n.principalKey with
  | some columns => rfl
  | none =>
    dsimp only
    rw [key]
    rfl

theorem edge_target {name : String} (h : d.edge name n = .ok edge) : edge.target = n.target := by
  unfold CatalogDefinition.edge at h
  dsimp only at h
  split at h
  · cases h
    rfl
  · split at h
    · cases h
      rfl
    · cases h

theorem entityType_eq_ok_iff : d.entityType e = .ok t ↔ t.name = e.name ∧ t.primaryKey = e.key.columns ∧
    t.properties = e.properties ∧
    List.Forall₂ (fun n edge => d.edge e.name n = .ok edge) e.navigations t.navigations := by
  rw [entityType, Except.bind_eq_ok]
  simp only [Except.mapM_eq_ok_iff]
  constructor
  · rintro ⟨edges, hedges, h⟩
    cases h
    exact ⟨rfl, rfl, rfl, hedges⟩
  · rintro ⟨hname, hkey, hproperties, hedges⟩
    refine ⟨t.navigations, hedges, ?_⟩
    rw [← hname, ← hkey, ← hproperties]
    rfl

/-- The two keys of an edge match from side to side if they match from the dependent to the principal. -/
theorem between_keysMatch : KeysMatch owner.properties target.properties (n.between owner target).sourceKey
    (n.between owner target).targetKey ↔
      KeysMatch (n.dependent owner target).properties (n.principal owner target).properties
        n.foreignKey.columns (n.principalColumns (n.principal owner target)) := by
  unfold NavigationDefinition.between NavigationDefinition.dependent NavigationDefinition.principal
    NavigationEdge.sourceKey NavigationEdge.targetKey
  by_cases hside : n.toPrincipal = true
  · simp only [if_pos hside]
  · simp only [if_neg hside]
    exact ⟨KeysMatch.symm, KeysMatch.symm⟩

/-- Where the keys match, one side has a column if the other has. -/
theorem sourceKey_eq_nil (h : KeysMatch owner.properties target.properties (n.between owner target).sourceKey
    (n.between owner target).targetKey) :
    (n.between owner target).sourceKey = [] ↔ n.foreignKey.columns = [] := by
  have hnil := h.eq_nil_iff
  unfold NavigationEdge.targetKey at hnil
  unfold NavigationDefinition.between NavigationEdge.sourceKey at hnil ⊢
  by_cases hside : n.toPrincipal = true
  · simp only [if_pos hside]
  · simp only [if_neg hside] at hnil ⊢
    exact hnil

section Types

variable (hd : (d.entities.map (·.name)).Nodup)
  (hT : List.Forall₂ (fun e t => d.entityType e = .ok t) d.entities types)

include hT in
theorem map_name : types.map (·.name) = d.entities.map (·.name) := by
  refine List.forall₂_eq_eq_eq ▸ List.forall₂_map_left_iff.2 (List.forall₂_map_right_iff.2 ?_)
  exact hT.flip.imp fun _ _ h => (entityType_eq_ok_iff.1 h).1

include hT in
/-- A type that is found is that of a defined entity. -/
theorem exists_of_type? {name : String} (h : (⟨types⟩ : Catalog).type? name = some t) :
    ∃ e ∈ d.entities, e.name = name ∧ d.entityType e = .ok t := by
  obtain ⟨e, he, ht⟩ := Expr.exists_of_mem_right hT (List.mem_of_find?_eq_some h)
  have hname : t.name = name := by simpa using List.find?_some h
  exact ⟨e, he, (entityType_eq_ok_iff.1 ht).1 ▸ hname, ht⟩

include hd hT in
/-- A defined entity is found under its name. -/
theorem type?_eq (he : e ∈ d.entities) :
    ∃ t, (⟨types⟩ : Catalog).type? e.name = some t ∧ d.entityType e = .ok t := by
  obtain ⟨t, ht, h⟩ := Expr.exists_of_mem_left hT he
  refine ⟨t, ?_, h⟩
  rw [← (entityType_eq_ok_iff.1 h).1]
  exact find?_name EntityType.name (map_name hT ▸ hd) ht

include hd hT in
/-- The edge of a navigation passes its check exactly if the navigation fits some defined entity and has a
key column. -/
theorem checkNavigation_edge (ho : owner ∈ d.entities) (ht : d.entityType owner = .ok t)
    (hedge : d.edge owner.name n = .ok edge) : (⟨types⟩ : Catalog).checkNavigation t edge = .ok () ↔
      (∃ target ∈ d.entities, n.Fits owner target) ∧ n.foreignKey.columns ≠ [] := by
  obtain ⟨-, -, hproperties, -⟩ := entityType_eq_ok_iff.1 ht
  rw [Catalog.checkNavigation_eq_ok_iff, edge_target hedge, hproperties]
  have filled {target : EntityDefinition} (htarget : target ∈ d.entities) (hname : target.name = n.target) :
      edge = n.between owner target :=
    Except.ok.inj (hedge.symm.trans (edge_eq hd ho htarget hname))
  constructor
  · rintro ⟨found, hfound, hsingle, hkey, keys⟩
    obtain ⟨target, htarget, hname, h⟩ := exists_of_type? hT hfound
    obtain ⟨-, -, htargetProperties, -⟩ := entityType_eq_ok_iff.1 h
    cases filled htarget hname
    rw [htargetProperties] at keys
    exact ⟨⟨target, htarget, hname, hsingle, between_keysMatch.1 keys⟩, fun hnil =>
      hkey ((sourceKey_eq_nil keys).2 hnil)⟩
  · rintro ⟨⟨target, htarget, hname, hsingle, keys⟩, hkey⟩
    obtain ⟨found, hfound, h⟩ := type?_eq hd hT htarget
    obtain ⟨-, -, htargetProperties, -⟩ := entityType_eq_ok_iff.1 h
    cases filled htarget hname
    have sides := between_keysMatch.2 keys
    refine ⟨found, hname ▸ hfound, hsingle, fun hnil => hkey ((sourceKey_eq_nil sides).1 hnil), ?_⟩
    rw [htargetProperties]
    exact sides

include hd hT in
/-- The type of an entity passes its check exactly if the entity has a declared key and its navigations
fit. -/
theorem checkType_entity (he : e ∈ d.entities) (ht : d.entityType e = .ok t) :
    (⟨types⟩ : Catalog).checkType t = .ok () ↔
      (e.key.columns ≠ [] ∧ ∀ column ∈ e.key.columns, ∃ p ∈ e.properties, p.name = column) ∧
        ∀ n ∈ e.navigations, (∃ target ∈ d.entities, n.Fits e target) ∧ n.foreignKey.columns ≠ [] := by
  obtain ⟨-, hkey, hproperties, hedges⟩ := entityType_eq_ok_iff.1 ht
  rw [Catalog.checkType_eq_ok_iff, hkey, hproperties]
  refine and_congr_right fun _ => ⟨fun h n hn => ?_, fun h edge hedge => ?_⟩
  · obtain ⟨edge, hedge, hn⟩ := Expr.exists_of_mem_left hedges hn
    exact (checkNavigation_edge hd hT he ht hn).1 (h edge hedge)
  · obtain ⟨n, hn, hedge⟩ := Expr.exists_of_mem_right hedges hedge
    exact (checkNavigation_edge hd hT he ht hedge).2 (h n hn)

end Types

/-- All checks together. -/
theorem toCatalog_eq_ok_iff {c : Catalog} : d.toCatalog = .ok c ↔ d.Consistent ∧ d.Keyed ∧
    List.Forall₂ (fun e t => d.entityType e = .ok t) d.entities c.types := by
  rw [toCatalog, Except.bind_eq_ok]
  simp only [Except.mapM_eq_ok_iff, Catalog.checked_eq_ok_iff]
  constructor
  · rintro ⟨types, hT, hnames, hchecks, rfl⟩
    have hd : (d.entities.map (·.name)).Nodup := map_name hT ▸ hnames
    have checks {e : EntityDefinition} (he : e ∈ d.entities) :
        (e.key.columns ≠ [] ∧ ∀ column ∈ e.key.columns, ∃ p ∈ e.properties, p.name = column) ∧
          ∀ n ∈ e.navigations, (∃ target ∈ d.entities, n.Fits e target) ∧ n.foreignKey.columns ≠ [] := by
      obtain ⟨t, ht, h⟩ := Expr.exists_of_mem_left hT he
      exact (checkType_entity hd hT he h).1 (hchecks t ht)
    exact ⟨⟨hd, fun e he => (checks he).1, fun e he n hn => ((checks he).2 n hn).1⟩,
      fun e he n hn => ((checks he).2 n hn).2, hT⟩
  · rintro ⟨⟨hd, hkeys, hnavigations⟩, hkeyed, hT⟩
    refine ⟨c.types, hT, (map_name hT).symm ▸ hd, fun t ht => ?_, rfl⟩
    obtain ⟨e, he, h⟩ := Expr.exists_of_mem_right hT ht
    exact (checkType_entity hd hT he h).2
      ⟨hkeys e he, fun n hn => ⟨hnavigations e he n hn, hkeyed e he n hn⟩⟩

theorem Consistent.exists_entityType (h : d.Consistent) (he : e ∈ d.entities) :
    ∃ t, d.entityType e = .ok t := by
  have edges : ∀ n ∈ e.navigations, ∃ edge, d.edge e.name n = .ok edge := fun n hn => by
    obtain ⟨target, ht, fits⟩ := h.navigations e he n hn
    exact ⟨_, edge_eq h.names he ht fits.named⟩
  obtain ⟨edges, hedges⟩ := Except.exists_mapM edges
  exact ⟨⟨e.name, e.key.columns, e.properties, edges⟩, entityType_eq_ok_iff.2 ⟨rfl, rfl, rfl, hedges⟩⟩

theorem Consistent.describes (h : d.Consistent) (he : e ∈ d.entities) (ht : d.entityType e = .ok t) :
    d.Describes e t := by
  obtain ⟨hname, hkey, hproperties, hedges⟩ := entityType_eq_ok_iff.1 ht
  refine ⟨hname, hkey, hproperties, ((List.forall₂_and_left _ _).2 ⟨h.navigations e he, hedges⟩).imp ?_⟩
  rintro n edge ⟨⟨target, htarget, fits⟩, hedge⟩
  rw [edge_eq h.names he htarget fits.named] at hedge
  exact ⟨target, htarget, fits.named, (Except.ok.inj hedge).symm⟩

/-- The definitions that go together are accepted, as long as each navigation has a key column, and no
others. The catalog has a type for each entity, which is as its definition says, and no other type. -/
theorem toCatalog_isOk_iff (d : CatalogDefinition) :
    ((∃ c, d.toCatalog = .ok c) ↔ d.Consistent ∧ d.Keyed) ∧
      ∀ c, d.toCatalog = .ok c →
        (∀ e ∈ d.entities, ∃ t, c.type? e.name = some t ∧ d.Describes e t) ∧
          ∀ name, name ∉ d.entities.map (·.name) → c.type? name = none := by
  refine ⟨⟨fun ⟨c, hc⟩ => ?_, fun ⟨hd, hkeyed⟩ => ?_⟩, fun c hc => ?_⟩
  · obtain ⟨hd, hkeyed, -⟩ := toCatalog_eq_ok_iff.1 hc
    exact ⟨hd, hkeyed⟩
  · obtain ⟨types, hT⟩ := Except.exists_mapM fun e he => hd.exists_entityType he
    exact ⟨⟨types⟩, toCatalog_eq_ok_iff.2 ⟨hd, hkeyed, hT⟩⟩
  · obtain ⟨hd, -, hT⟩ := toCatalog_eq_ok_iff.1 hc
    refine ⟨fun e he => ?_, fun name hname => ?_⟩
    · obtain ⟨t, ht, h⟩ := type?_eq hd.names hT he
      exact ⟨t, ht, hd.describes he h⟩
    · refine Option.eq_none_iff_forall_ne_some.2 fun t ht => hname ?_
      obtain ⟨e, he, rfl, -⟩ := exists_of_type? hT ht
      exact List.mem_map_of_mem he

end CatalogDefinition

namespace Shipping

def int (name : String) : Property := ⟨name, .int, false⟩

/-- A ledger of shipments and their lines: a composite key on both sides, and a principal key that is left
out. -/
def definition : CatalogDefinition where
  entities := [
    { name := "Shipment", key := .composite ["Year", "Number"], properties := [int "Year", int "Number"]
      navigations := [{ name := "Lines", target := "Line", foreignKey := .composite ["Year", "Shipment"],
                        collection := true }] },
    { name := "Line", key := .single "Id", properties := [int "Id", int "Year", int "Shipment"]
      navigations := [{ name := "Shipment", target := "Shipment", foreignKey := .composite ["Year", "Shipment"],
                        principalKey := some (.composite ["Year", "Number"]), toPrincipal := true }] }]

/-- One entity that leads to itself, along no column. -/
def loop : CatalogDefinition where
  entities := [
    { name := "Line", key := .single "Id", properties := [int "Id"]
      navigations := [{ name := "Same", target := "Line", foreignKey := .composite [],
                        principalKey := some (.composite []) }] }]

end Shipping

theorem CatalogDefinition.toCatalog_shipping :
    ∃ c, Shipping.definition.toCatalog = .ok c ∧
      ∀ e ∈ Shipping.definition.entities, ∃ t, c.type? e.name = some t ∧ Shipping.definition.Describes e t := by
  have h := toCatalog_isOk_iff Shipping.definition
  obtain ⟨c, hc⟩ := h.1.2 ⟨by decide, by decide⟩
  exact ⟨c, hc, (h.2 c hc).1⟩

/-- Two keys without a column are declared and of the same length, but a navigation along them is refused. -/
theorem CatalogDefinition.toCatalog_keyless :
    Shipping.loop.Consistent ∧
      Shipping.loop.toCatalog = .error (.keyShapeMismatch "Line" "Same" [] []) := by
  decide

end EntityQuery
