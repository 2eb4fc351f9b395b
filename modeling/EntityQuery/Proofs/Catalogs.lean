import EntityQuery.Catalog.Check
import EntityQuery.Proofs.Denotation

/-!
# What a checked catalog promises

Each navigation of a checked catalog leads to a declared type, its two keys are declared on their
sides and have the same positive number of columns, and a collection does not lead to its principal.
-/

namespace EntityQuery

/-- What the check of a catalog says of one navigation. -/
structure NavigationEdge.Declared (e : NavigationEdge) (c : Catalog) (owner : EntityType) : Prop where
  target : ∃ target source other, c.type? e.target = some target ∧
    owner.propertiesNamed e.sourceKey = .ok source ∧
    target.propertiesNamed e.targetKey = .ok other ∧ source.length = other.length ∧ source ≠ []
  dependent : e.isCollection = true → e.toPrincipal = false

/-- All navigations of a catalog are declared on both sides. -/
def Catalog.Sound (c : Catalog) : Prop :=
  ∀ {entity owner name edge}, c.type? entity = some owner → owner.navigation? name = some edge →
    edge.Declared c owner

namespace Except

variable {ε α β : Type}

theorem bind_eq_ok {x : Except ε α} {f : α → Except ε β} {b : β} :
    x >>= f = .ok b ↔ ∃ a, x = .ok a ∧ f a = .ok b := by
  cases x with
  | error e => exact ⟨fun h => (nomatch h), fun ⟨_, h, _⟩ => (nomatch h)⟩
  | ok a => exact ⟨fun h => ⟨a, rfl, h⟩, fun ⟨_, h, k⟩ => by cases h; exact k⟩

theorem forM_eq_ok_iff {f : α → Except ε Unit} {l : List α} : l.forM f = .ok () ↔ ∀ a ∈ l, f a = .ok () := by
  induction l with
  | nil => exact iff_of_true rfl fun a ha => nomatch ha
  | cons x xs ih =>
    change f x >>= (fun _ => xs.forM f) = .ok () ↔ _
    rw [bind_eq_ok, List.forall_mem_cons, ih]
    exact ⟨fun ⟨_, hx, hxs⟩ => ⟨hx, hxs⟩, fun ⟨hx, hxs⟩ => ⟨(), hx, hxs⟩⟩

theorem forM_eq_ok {f : α → Except ε Unit} {l : List α} (h : l.forM f = .ok ()) :
    ∀ a ∈ l, f a = .ok () :=
  forM_eq_ok_iff.1 h

theorem exists_of_isSome {x : Except ε α} (h : x.toOption.isSome = true) : ∃ a, x = .ok a := by
  cases x with
  | error e => cases h
  | ok a => exact ⟨a, rfl⟩

theorem exists_of_any {x : Except ε α} {test : α → Bool} (h : x.toOption.any test = true) :
    ∃ a, x = .ok a ∧ test a = true := by
  cases x with
  | error e => cases h
  | ok a => exact ⟨a, rfl, h⟩

end Except

namespace Catalog

theorem declared_of_checkNavigation {c : Catalog} {owner : EntityType} {e : NavigationEdge}
    (h : c.checkNavigation owner e = .ok ()) : e.Declared c owner := by
  unfold checkNavigation at h
  split at h
  · next target ht =>
    split at h
    · cases h
    · next hc =>
      obtain ⟨source, hs, h⟩ := Except.bind_eq_ok.1 h
      obtain ⟨other, hother, h⟩ := Except.bind_eq_ok.1 h
      split at h
      · cases h
      · next hshape =>
        simp only [sameShape, Bool.not_eq_true', Bool.not_eq_false, Bool.and_eq_true, beq_iff_eq,
          Bool.not_eq_true', List.isEmpty_eq_false_iff] at hshape
        refine ⟨⟨target, source, other, ht, hs, hother, hshape.1.1, hshape.1.2⟩, fun he => ?_⟩
        simpa [he] using hc
  · cases h

theorem sound_of_checked {types : List EntityType} {c : Catalog}
    (h : Catalog.checked types = .ok c) : c.Sound := by
  obtain ⟨_, -, h⟩ := Except.bind_eq_ok.1 h
  obtain ⟨_, htypes, h⟩ := Except.bind_eq_ok.1 h
  cases h
  intro entity owner name edge howner hedge
  have ht := Except.forM_eq_ok htypes owner (List.mem_of_find?_eq_some howner)
  unfold checkType at ht
  split at ht
  · cases ht
  · obtain ⟨_, -, ht⟩ := Except.bind_eq_ok.1 ht
    exact declared_of_checkNavigation
      (Except.forM_eq_ok ht edge (List.mem_of_find?_eq_some hedge))

theorem navigation?_eq_some {c : Catalog} {entity name : String} {edge : NavigationEdge} :
    c.navigation? entity name = some edge ↔
      ∃ t, c.type? entity = some t ∧ t.navigation? name = some edge :=
  Option.bind_eq_some_iff

theorem navigation?_name {c : Catalog} {entity name : String} {edge : NavigationEdge}
    (h : c.navigation? entity name = some edge) : edge.name = name := by
  obtain ⟨t, -, h⟩ := navigation?_eq_some.1 h
  simpa using List.find?_some h

end Catalog

/-- The names of declared columns. -/
theorem EntityType.names_of_propertiesNamed {t : EntityType} {names : List String}
    {properties : List Property} (h : t.propertiesNamed names = .ok properties) :
    properties.map (·.name) = names ∧ ∀ p ∈ properties, t.property? p.name = some p := by
  induction names generalizing properties with
  | nil =>
    cases h
    exact ⟨rfl, fun p hp => nomatch hp⟩
  | cons name names ih =>
    obtain ⟨p, hp, h⟩ := Except.bind_eq_ok.1 h
    obtain ⟨ps, hps, h⟩ := Except.bind_eq_ok.1 h
    cases h
    obtain ⟨hnames, hall⟩ := ih hps
    unfold property at hp
    split at hp
    · next q hq =>
      cases hp
      have hname : p.name = name := by simpa using List.find?_some hq
      refine ⟨by rw [List.map_cons, hnames, hname], fun r hr => ?_⟩
      rcases List.mem_cons.1 hr with rfl | hr
      · rw [hname]
        exact hq
      · exact hall r hr
    · cases hp

/-- The column of a key that has one. -/
theorem EntityType.single_of_propertiesNamed {t : EntityType} {name : String}
    {properties : List Property} (h : t.propertiesNamed [name] = .ok properties) :
    ∃ p, properties = [p] ∧ p.name = name ∧ t.property? p.name = some p := by
  obtain ⟨hnames, hall⟩ := names_of_propertiesNamed h
  obtain ⟨p, rfl, rfl⟩ := List.map_eq_singleton_iff.1 hnames
  exact ⟨p, rfl, rfl, hall p (.head _)⟩

end EntityQuery
