import EntityQuery.Proofs.Catalogs
import EntityQuery.Proofs.Typing

/-!
# Checking tables

Whether tables carry what a catalog declares can be computed, type by type and row by row. As an
instance, a shop in which orders belong to customers, and customers may have been referred by others.
-/

namespace EntityQuery

/-- Whether the row has a scalar for every property of the type. -/
def Value.carries (row : Value) (t : EntityType) : Bool :=
  match row with
  | .record fields => t.properties.all fun p => (Value.field? fields p.name).any (·.isScalar)
  | _ => false

theorem Value.carries_iff {row : Value} {t : EntityType} : row.carries t = true ↔ row.Carries t := by
  cases row with
  | record fields => simp [carries, Carries, Option.any_eq_true]
  | _ => simp [carries, Carries]

/-- Whether the owner has as many related rows as a single-valued edge promises. -/
def NavigationEdge.keepsPromise (e : NavigationEdge) (tables : Tables) (owner : Value) : Bool :=
  e.isCollection ||
    decide ((e.related tables owner).length ≤ 1 ∧
      (e.isOptional = false → (e.related tables owner).length = 1))

theorem NavigationEdge.keepsPromise_iff {e : NavigationEdge} {tables : Tables} {owner : Value} :
    e.keepsPromise tables owner = true ↔ (e.isCollection = false →
      (e.related tables owner).length ≤ 1 ∧
        (e.isOptional = false → (e.related tables owner).length = 1)) := by
  rw [keepsPromise, Bool.or_eq_true, decide_eq_true_iff, or_iff_not_imp_left, Bool.not_eq_true]

/-- Whether the entity of that name has a table whose rows carry its properties and keep the promises
of its navigations. -/
def Catalog.isConsistentAt (c : Catalog) (tables : Tables) (entity : String) : Bool :=
  match c.type? entity, tables.lookup entity with
  | none, _ => true
  | some _, none => false
  | some t, some rows => rows.all fun row => row.carries t && t.navigations.all fun e =>
    (t.navigation? e.name).all (·.keepsPromise tables row)

theorem Catalog.isConsistentAt_iff {c : Catalog} {tables : Tables} {entity : String} {t : EntityType}
    (hc : c.type? entity = some t) : c.isConsistentAt tables entity = true ↔
      ∃ rows, tables.lookup entity = some rows ∧ ∀ row ∈ rows, row.Carries t ∧
        ∀ name edge, t.navigation? name = some edge → edge.keepsPromise tables row = true := by
  have navigations (row : Value) : (t.navigations.all fun e =>
      (t.navigation? e.name).all (·.keepsPromise tables row)) = true ↔
      ∀ name edge, t.navigation? name = some edge → edge.keepsPromise tables row = true := by
    simp only [List.all_eq_true, Option.all_eq_true]
    constructor
    · intro h name edge he
      have hname : edge.name = name := by simpa using List.find?_some he
      exact h edge (List.mem_of_find?_eq_some he) edge (hname ▸ he)
    · exact fun h e _ edge he => h e.name edge he
  rw [isConsistentAt, hc]
  cases tables.lookup entity with
  | none => simp
  | some rows => simp [navigations, Value.carries_iff]

theorem consistent_iff {c : Catalog} {tables : Tables} :
    Consistent c tables ↔ ∀ t ∈ c.types, c.isConsistentAt tables t.name = true := by
  constructor
  · intro h t _
    cases hc : c.type? t.name with
    | none => rw [Catalog.isConsistentAt, hc]
    | some t' =>
      obtain ⟨rows, hl, hcarries⟩ := h.carries hc
      refine (Catalog.isConsistentAt_iff hc).2 ⟨rows, hl, fun row hrow => ⟨hcarries row hrow, ?_⟩⟩
      intro name edge he
      have hn : c.navigation? t.name name = some edge := Catalog.navigation?_eq_some.2 ⟨t', hc, he⟩
      exact NavigationEdge.keepsPromise_iff.2 fun hcollection =>
        ⟨h.single hn hl hrow hcollection, h.required hn hl hrow hcollection⟩
  · intro h
    have at_entity {entity : String} {t : EntityType} (hc : c.type? entity = some t) := by
      have hname : t.name = entity := by simpa using List.find?_some hc
      exact (Catalog.isConsistentAt_iff hc).1 (hname ▸ h t (List.mem_of_find?_eq_some hc))
    have kept {entity name : String} {edge : NavigationEdge} {rows : List Value} {owner : Value}
        (hn : c.navigation? entity name = some edge) (hl : tables.lookup entity = some rows)
        (howner : owner ∈ rows) : edge.keepsPromise tables owner = true := by
      obtain ⟨t, hc, he⟩ := Catalog.navigation?_eq_some.1 hn
      obtain ⟨rows', hl', hrows⟩ := at_entity hc
      obtain rfl := Option.some.inj (hl.symm.trans hl')
      exact (hrows owner howner).2 name edge he
    constructor
    · intro entity t hc
      obtain ⟨rows, hl, hrows⟩ := at_entity hc
      exact ⟨rows, hl, fun row hrow => (hrows row hrow).1⟩
    · intro entity name edge rows owner hn hl howner hcollection
      exact (NavigationEdge.keepsPromise_iff.1 (kept hn hl howner) hcollection).1
    · intro entity name edge rows owner hn hl howner hcollection
      exact (NavigationEdge.keepsPromise_iff.1 (kept hn hl howner) hcollection).2

instance (c : Catalog) (tables : Tables) : Decidable (Consistent c tables) :=
  decidable_of_iff _ consistent_iff.symm

namespace Shop

def referrer : NavigationEdge where
  name := "Referrer"
  target := "Customer"
  foreignKey := ["ReferrerId"]
  principalKey := ["Id"]
  toPrincipal := true
  isCollection := false
  isRequired := false

def orders : NavigationEdge where
  name := "Orders"
  target := "Order"
  foreignKey := ["CustomerId"]
  principalKey := ["Id"]
  toPrincipal := false
  isCollection := true
  isRequired := true

def buyer : NavigationEdge where
  name := "Buyer"
  target := "Customer"
  foreignKey := ["CustomerId"]
  principalKey := ["Id"]
  toPrincipal := true
  isCollection := false
  isRequired := true

/-- Orders belong to customers, and customers may have been referred by others. -/
def types : List EntityType := [
  { name := "Customer"
    primaryKey := ["Id"]
    properties := [⟨"Id", .int, false⟩, ⟨"Name", .string, false⟩, ⟨"ReferrerId", .int, true⟩]
    navigations := [referrer, orders] },
  { name := "Order"
    primaryKey := ["Id"]
    properties := [⟨"Id", .int, false⟩, ⟨"CustomerId", .int, false⟩, ⟨"Total", .int, false⟩]
    navigations := [buyer] }]

def catalog : Catalog := ⟨types⟩

theorem checked_types : Catalog.checked types = .ok catalog := by rfl

def customer (id : Int) (name : String) (referrer : Value) : Value :=
  .record [("Id", .int id), ("Name", .str name), ("ReferrerId", referrer)]

def order (id customer total : Int) : Value :=
  .record [("Id", .int id), ("CustomerId", .int customer), ("Total", .int total)]

def tables : Tables := [
  ("Customer", [customer 1 "Ann" .null, customer 2 "Bob" (.int 1)]),
  ("Order", [order 10 1 5, order 11 2 7, order 12 2 3])]

theorem consistent_tables : Consistent catalog tables := by decide +kernel

/-- The types of a shop in which the foreign key of an order has the name of the navigation to its buyer. -/
def namesakeTypes : List EntityType := [
  { name := "Customer"
    primaryKey := ["Id"]
    properties := [⟨"Id", .int, false⟩]
    navigations := [{ orders with foreignKey := ["Buyer"] }] },
  { name := "Order"
    primaryKey := ["Id"]
    properties := [⟨"Id", .int, false⟩, ⟨"Buyer", .int, false⟩]
    navigations := [{ buyer with foreignKey := ["Buyer"] }] }]

def namesakes : Catalog := ⟨namesakeTypes⟩

theorem checked_namesakeTypes : Catalog.checked namesakeTypes = .ok namesakes := by rfl

def namesakeOrder : Value := .record [("Id", .int 10), ("Buyer", .int 1)]

/-- One customer with one order. -/
def namesakeTables : Tables := [("Customer", [.record [("Id", .int 1)]]), ("Order", [namesakeOrder])]

theorem consistent_namesakeTables : Consistent namesakes namesakeTables := by decide +kernel

end Shop

end EntityQuery
