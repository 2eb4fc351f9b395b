import Mathlib
import EntityQuery.Proofs.Roots
import EntityQuery.Proofs.Simulation
import EntityQuery.Proofs.Steps

/-!
# Filters by keys and joins by keys

A collection is told apart from the rest of its target set in two ways: by a filter over the target
rows, and, once its selector is hoisted, by a join on the same key columns. The filter compares the
owner's key with nulls as a whole, `(a, b) != (null, null)`, while a join leaves an owner out that has
a null in any column. So the two agree on keys that are whole (`WholeKey`): wholly missing, or without
a null. Of a key that is partly null the filter finds rows that no join pairs with the owner.

The filters that a selector may be hoisted with are recognised by their shape alone, a guard and an
equality. That the equality is one of the keys (`EquatesKeys`) makes the filter find no rows but those of
an equal key. For it to say what the join on its keys says, the guard has to read the owner's key, too
(`ComparesWithNulls`). A guard that reads anything else is taken for one that does.
-/

namespace EntityQuery

open EntityQuery.Expr

section Keys

variable {x : Value} {xs ys : List Value}

/-- The columns of a key are all null, or none of them has a null in it. -/
def WholeKey (key : List Value) : Prop :=
  key ≠ [] ∧ ((∀ v ∈ key, v.isNull = true) ∨ ∀ v ∈ key, v.hasNull = false)

/-- A key of one column is whole. -/
theorem wholeKey_single (h : x.isScalar = true) : WholeKey [x] := by
  refine ⟨List.cons_ne_nil _ _, ?_⟩
  simp only [List.mem_singleton, forall_eq, Value.hasNull_scalar h]
  cases x.isNull
  · exact .inr rfl
  · exact .inl rfl

theorem Value.hasNull_of_isNull (h : x.isNull = true) : x.hasNull = true := by
  cases x <;> first | rfl | cases h

/-- Of a whole key some column is present if and only if all are. -/
theorem WholeKey.present_iff (h : WholeKey xs) :
    (∃ v ∈ xs, v.isNull = false) ↔ (keyValue xs).hasNull = false := by
  obtain ⟨hne, hnull | hnone⟩ := h
  · have missing : (keyValue xs).hasNull = true := by
      obtain ⟨v, hv⟩ := List.exists_mem_of_ne_nil xs hne
      rw [hasNull_keyValue]
      exact List.any_eq_true.2 ⟨v, hv, Value.hasNull_of_isNull (hnull v hv)⟩
    rw [missing]
    exact ⟨fun ⟨v, hv, h⟩ => by simp [hnull v hv] at h, nofun⟩
  · have present : (keyValue xs).hasNull = false := by
      rw [hasNull_keyValue, List.any_eq_false]
      exact fun v hv => by simp [hnone v hv]
    refine ⟨fun _ => present, fun _ => ?_⟩
    obtain ⟨v, hv⟩ := List.exists_mem_of_ne_nil xs hne
    refine ⟨v, hv, Bool.not_eq_true _ ▸ fun hnull => ?_⟩
    have := Value.hasNull_of_isNull hnull
    rw [hnone v hv] at this
    cases this

/-- A join pairs a row with an owner if no part of the owner's key is null and the keys are equal. -/
theorem mem_matchingRows_single {key k row : Value} :
    row ∈ matchingRows key [(k, row)] ↔ key.hasNull = false ∧ key.equals k = true := by
  rw [matchingRows]
  cases key.hasNull <;> cases h : key.equals k <;> simp [h]

/-- The value of `key != nulls && other == key`. -/
def keyFilterValue (key other : List Value) : Bool :=
  (key.any fun v => !v.isNull) && (keyValue other).equals (keyValue key)

theorem keyFilterValue_iff (hlen : ys.length = xs.length) : keyFilterValue xs ys = true ↔
    (∃ v ∈ xs, v.isNull = false) ∧ ∀ x ∈ xs.zip ys, x.1.equals x.2 = true := by
  rw [keyFilterValue, Bool.and_eq_true, List.any_eq_true, Value.equals_comm, equals_keyValue hlen.symm,
    List.all_eq_true]
  simp only [Bool.not_eq_true']

/-- Of a whole key the filter finds the rows that a join pairs with it. -/
theorem WholeKey.keyFilterValue_iff (h : WholeKey xs) {row : Value} : keyFilterValue xs ys = true ↔
    row ∈ matchingRows (keyValue xs) [(keyValue ys, row)] := by
  rw [mem_matchingRows_single, ← h.present_iff, keyFilterValue, Bool.and_eq_true, List.any_eq_true,
    Value.equals_comm]
  simp only [Bool.not_eq_true']

/-- A key equals the key of nulls if all its columns are null. -/
theorem equals_nulls {nulls : List Value} (hlen : nulls.length = xs.length)
    (hnulls : ∀ v ∈ nulls, v = .null) : (keyValue xs).equals (keyValue nulls) = xs.all Value.isNull := by
  obtain rfl : nulls = List.replicate xs.length .null := List.eq_replicate_iff.2 ⟨hlen, hnulls⟩
  rw [equals_keyValue hlen.symm]
  clear hlen hnulls
  induction xs with
  | nil => rfl
  | cons x xs ih =>
    rw [List.length_cons, List.replicate_succ, List.zip_cons_cons, List.all_cons, List.all_cons, ih]
    exact congrArg (· && _) (Value.equals_null x)

end Keys

section Filters

variable {tables : Tables} {view : RowView} {scope : Scope} {e body : Expr} {parameter : String}
  {innerKey outerKey : List Expr}

namespace Expr

/-- An expression without the conversions around it. -/
def bare : Expr → Expr
  | .convert operand _ _ => operand.bare
  | e => e

theorem evalIn_bare (e : Expr) : e.bare.evalIn tables view scope = e.evalIn tables view scope := by
  fun_induction bare e with
  | case1 operand t nullable ih => rw [ih, evalIn]
  | case2 e _ => rfl

theorem evalItemsIn_bare (es : List Expr) :
    evalItemsIn tables view scope (es.map bare) = evalItemsIn tables view scope es := by
  induction es with
  | nil => rfl
  | cons e es ih => rw [List.map_cons, evalItemsIn, evalItemsIn, evalIn_bare, ih]

/-- A key has one value however its parts are converted. -/
theorem evalIn_key_bare (es : List Expr) :
    (key (es.map bare)).evalIn tables view scope = (key es).evalIn tables view scope := by
  match es with
  | [] => rfl
  | [e] => exact evalIn_bare e
  | e :: e' :: es =>
    change (Expr.tuple ((e :: e' :: es).map bare)).evalIn tables view scope = (Expr.tuple _).evalIn _ _ _
    rw [evalIn, evalIn, evalItemsIn_bare]

theorem evalIn_key_parts {es : List Expr} {value : Expr → Value}
    (h : ∀ e ∈ es, e.evalIn tables view scope = .ok (value e)) :
    (key es).evalIn tables view scope = .ok (keyValue (es.map value)) := by
  simpa only [List.map_id'] using evalIn_key h

theorem evalIn_of_isNull (h : e.isNull = true) : e.evalIn tables view scope = .ok .null := by
  fun_induction isNull e with
  | case1 => rfl
  | case2 operand t nullable ih => rw [evalIn, ih h]
  | case3 => cases h

/-- An expression is a column of the row that `parameter` names, however it is converted. -/
def ReadsColumn (parameter : String) (e : Expr) : Prop :=
  ∃ column, e.bare = .member (.param parameter) column

theorem ReadsColumn.rowRefs (h : e.ReadsColumn parameter) : e.rowRefs = [] := by
  obtain ⟨column, h⟩ := h
  fun_induction bare e with
  | case1 operand t nullable ih => exact ih h
  | case2 e _ => rw [h]; rfl

/-- An expression is the equality of two keys, in either order. -/
def EquatesKeys (innerKey outerKey : List Expr) (e : Expr) : Prop :=
  e = .eq (key innerKey) (key outerKey) ∨ e = .eq (key outerKey) (key innerKey)

/-- An expression says that a key is not a key of nulls. -/
inductive ComparesWithNulls (outerKey : List Expr) : Expr → Prop
  | intro {guards nulls : List Expr} (guard : guards.map bare = outerKey.map bare)
      (length : nulls.length = guards.length) (null : ∀ e ∈ nulls, e.isNull = true) :
    ComparesWithNulls outerKey (.ne (.key guards) (.key nulls))

theorem evalIn_eq {a b : Expr} {u w : Value} (ha : a.evalIn tables view scope = .ok u)
    (hb : b.evalIn tables view scope = .ok w) :
    (Expr.eq a b).evalIn tables view scope = .ok (.bool (u.equals w)) := by
  rw [Expr.eq, evalIn, ha, hb]
  rfl

theorem EquatesKeys.evalIn (h : e.EquatesKeys innerKey outerKey) {value : Expr → Value}
    (hinner : ∀ e ∈ innerKey, e.evalIn tables view scope = .ok (value e))
    (houter : ∀ e ∈ outerKey, e.evalIn tables view scope = .ok (value e)) :
    e.evalIn tables view scope =
      .ok (.bool ((keyValue (innerKey.map value)).equals (keyValue (outerKey.map value)))) := by
  have inner := evalIn_key_parts hinner
  have outer := evalIn_key_parts houter
  obtain rfl | rfl := h
  · exact evalIn_eq inner outer
  · rw [Value.equals_comm]
    exact evalIn_eq outer inner

theorem ComparesWithNulls.evalIn (h : e.ComparesWithNulls outerKey) {value : Expr → Value}
    (houter : ∀ e ∈ outerKey, e.evalIn tables view scope = .ok (value e)) :
    e.evalIn tables view scope = .ok (.bool ((outerKey.map value).any fun v => !v.isNull)) := by
  obtain @⟨guards, nulls, guard, length, null⟩ := h
  have guarded : (key guards).evalIn tables view scope = .ok (keyValue (outerKey.map value)) := by
    rw [← evalIn_key_bare, guard, evalIn_key_bare, evalIn_key_parts houter]
  have nulled : (key nulls).evalIn tables view scope = .ok (keyValue (nulls.map fun _ => .null)) :=
    evalIn_key_parts fun e he => evalIn_of_isNull (null e he)
  have hlength : (nulls.map fun _ => Value.null).length = (outerKey.map value).length := by
    have := congrArg List.length guard
    simp only [List.length_map] at this ⊢
    rw [length, this]
  rw [Expr.ne, Expr.evalIn, guarded, nulled, ← List.not_all_eq_any_not, ← equals_nulls hlength (by simp)]
  rfl

/-- A guarded equality of keys. -/
theorem EquatesKeys.evalIn_and {guard : Expr} (h : e.EquatesKeys innerKey outerKey)
    (hguard : guard.ComparesWithNulls outerKey) {value : Expr → Value}
    (hinner : ∀ e ∈ innerKey, e.evalIn tables view scope = .ok (value e))
    (houter : ∀ e ∈ outerKey, e.evalIn tables view scope = .ok (value e)) :
    (Expr.and guard e).evalIn tables view scope =
      .ok (.bool (keyFilterValue (outerKey.map value) (innerKey.map value))) := by
  rw [Expr.and, Expr.evalIn, h.evalIn hinner houter, hguard.evalIn houter]
  rfl

theorem isTrue_of_evalIn_and {guard : Expr} {v : Value}
    (h : (Expr.and guard e).evalIn tables view scope = .ok (.bool true))
    (he : e.evalIn tables view scope = .ok v) : v.isTrue = true := by
  rw [Expr.and, Expr.evalIn, he] at h
  obtain ⟨u, -, h⟩ := Except.bind_eq_ok.1 h
  have both : Value.bool (u.isTrue && v.isTrue) = .bool true := Except.ok.inj h
  exact (Bool.and_eq_true_iff.1 (Value.bool.inj both)).2

theorem evalIn_widenPair (t : ScalarType) (a b : Expr) (m n : Bool) :
    (widenPair t a m b n).1.evalIn tables view scope = a.evalIn tables view scope ∧
      (widenPair t a m b n).2.evalIn tables view scope = b.evalIn tables view scope := by
  cases m <;> cases n <;> exact ⟨rfl, rfl⟩

theorem bare_widenPair (t : ScalarType) (a b : Expr) (m n : Bool) :
    (widenPair t a m b n).1.bare = a.bare ∧ (widenPair t a m b n).2.bare = b.bare := by
  cases m <;> cases n <;> exact ⟨rfl, rfl⟩

/-- The predicate of a collection's filter is such an equality and its guard. -/
theorem membership_eq (owner : Expr) (element : String) (ownerKey elementKey : List Property) :
    let sides := (ownerKey.zip elementKey).map fun (o, e) => widenPair o.dataType
      (.member (.param element) e.name) e.nullable (.member owner o.name) o.nullable
    ∃ guard equality, membership owner element ownerKey elementKey = .and guard equality ∧
      guard.ComparesWithNulls (sides.map (·.2)) ∧
      equality.EquatesKeys (sides.map (·.1)) (sides.map (·.2)) := by
  refine ⟨_, _, rfl, .intro ?_ (by simp) (fun e he => ?_), .inl rfl⟩
  · simp only [List.map_map]
    refine List.map_congr_left fun x _ => ?_
    refine Eq.trans ?_ (bare_widenPair ..).2.symm
    dsimp only [Function.comp_apply]
    split <;> rfl
  · obtain ⟨_, -, rfl⟩ := List.mem_map.1 he
    rfl

end Expr

end Filters

section Collections

variable {M : Model} {p : Progress} {r : RowRef} {q : NodeId} {edge : NavigationEdge} {tables : Tables}
  {view : RowView} {scope : Scope} {owner : Expr} {element : String} {ownerKey elementKey : List Property}

/-- The predicate by which a row belongs to an owner compares the columns of the two. -/
theorem evalIn_membership {u w : Value} (hlen : ownerKey.length = elementKey.length)
    (hu : owner.evalIn tables view scope = .ok u) (hw : scope.lookup element = some w)
    (ho : ∀ o ∈ ownerKey, evalMember o.name u = .ok (u.column o.name))
    (he : ∀ e ∈ elementKey, evalMember e.name w = .ok (w.column e.name)) :
    (membership owner element ownerKey elementKey).evalIn tables view scope =
      .ok (.bool (keyFilterValue (ownerKey.map fun o => u.column o.name)
        (elementKey.map fun e => w.column e.name))) := by
  let pairs := ownerKey.zip elementKey
  let side (x : Property × Property) : Expr × Expr := widenPair x.1.dataType
    (.member (.param element) x.2.name) x.2.nullable (.member owner x.1.name) x.1.nullable
  let value (e : Expr) : Value := (e.evalIn tables view scope).toOption.getD .null
  have hvalue {e : Expr} {v : Value} (h : e.evalIn tables view scope = .ok v) : value e = v := by
    simp only [value, h, Except.toOption, Option.getD_some]
  have inner (x) (hx : x ∈ pairs) : (side x).1.evalIn tables view scope = .ok (w.column x.2.name) := by
    rw [(evalIn_widenPair ..).1]
    simp only [evalIn, hw]
    exact he x.2 (List.of_mem_zip hx).2
  have outer (x) (hx : x ∈ pairs) : (side x).2.evalIn tables view scope = .ok (u.column x.1.name) := by
    rw [(evalIn_widenPair ..).2, evalIn, hu]
    exact ho x.1 (List.of_mem_zip hx).1
  have innerColumns : ((pairs.map side).map (·.1)).map value = elementKey.map fun e => w.column e.name := by
    rw [← List.map_snd_zip (Nat.le_of_eq hlen.symm), List.map_map, List.map_map, List.map_map]
    exact List.map_congr_left fun x hx => hvalue (inner x hx)
  have outerColumns : ((pairs.map side).map (·.2)).map value = ownerKey.map fun o => u.column o.name := by
    rw [← List.map_fst_zip (Nat.le_of_eq hlen), List.map_map, List.map_map, List.map_map]
    exact List.map_congr_left fun x hx => hvalue (outer x hx)
  rw [← innerColumns, ← outerColumns]
  obtain ⟨guard, equality, hmembership, hguard, hequality⟩ :=
    membership_eq owner element ownerKey elementKey
  rw [hmembership]
  refine hequality.evalIn_and hguard ?_ ?_
  · simp only [List.map_map, List.forall_mem_map]
    exact fun x hx => (inner x hx).trans (congrArg _ (hvalue (inner x hx)).symm)
  · simp only [List.map_map, List.forall_mem_map]
    exact fun x hx => (outer x hx).trans (congrArg _ (hvalue (outer x hx)).symm)

/-- The reference to the rows of a node. -/
def Forest.rowOf (f : Forest) (n : NodeId) : RowRef := ⟨(f.node n).source, n, f.memberPath n⟩

/-- The two entities of a navigation declare its key columns, equally many on both sides. -/
structure KeysDeclared (c : Catalog) (ownerEntity : String) (edge : NavigationEdge)
    (ownerKey elementKey : List Property) : Prop where
  owner : ∃ t, c.type? ownerEntity = some t ∧ t.propertiesNamed edge.sourceKey = .ok ownerKey
  element : ∃ t, c.type? edge.target = some t ∧ t.propertiesNamed edge.targetKey = .ok elementKey
  length : ownerKey.length = elementKey.length

/-- A collection whose key columns are declared has a filter. -/
theorem Runs.collectionFilter_ok {ownerEntity : String} (hedge : (p.forest.node r.node).edge = some edge)
    (howner : (p.forest.node r.node).parent = some q)
    (hentity : (p.forest.node q).entity.getD "" = ownerEntity)
    (hkeys : KeysDeclared M.catalog ownerEntity edge ownerKey elementKey) :
    let element := rowParameter edge.target ++ toString (p.names + 1)
    Runs (EntityQuery.collectionFilter r) M p
      (.call .filter [.entitySet edge.target, .lambda [element]
        (membership (.rowRef (p.forest.rowOf q)) element ownerKey elementKey)]
        (some (.collection ownerEntity edge.name)))
      { p with names := p.names + 1, forest := p.forest.remove r.node } := by
  obtain ⟨⟨ownerType, hot, hok⟩, ⟨elementType, het, hek⟩, hlen⟩ := hkeys
  simp only [EntityQuery.collectionFilter, Runs.bind_iff, Runs.node_iff]
  refine ⟨_, _, ⟨rfl, rfl⟩, ?_⟩
  rw [hedge, howner]
  simp only [Runs.bind_iff, Runs.node_iff, Runs.entityType_iff, Runs.ofCatalog_iff]
  refine ⟨_, _, ⟨rfl, rfl⟩, _, _, ⟨hentity ▸ hot, rfl⟩, _, _, ⟨het, rfl⟩, _, _, ⟨hok, rfl⟩,
    _, _, ⟨hek, rfl⟩, ?_⟩
  rw [if_neg (not_not.2 hlen), hentity]
  simp only [Runs.bind_iff, Runs.freshName_iff, Runs.ref_iff, Runs.modifyForest_iff, Runs.pure_iff]
  exact ⟨_, _, ⟨rfl, rfl⟩, _, _, ⟨rfl, rfl⟩, (), _, rfl, rfl, rfl⟩

/-- What the filter of a collection says of a row, and when a join on the same columns says the same.
The filter's predicate holds if some column of the owner's key is present and the keys are equal
column by column; of an owner with a whole key, a join pairs the row with it then. -/
theorem collectionFilter_matches {ownerEntity : String}
    (hedge : (p.forest.node r.node).edge = some edge)
    (howner : (p.forest.node r.node).parent = some q)
    (hentity : (p.forest.node q).entity.getD "" = ownerEntity)
    (hkeys : KeysDeclared M.catalog ownerEntity edge ownerKey elementKey) :
    ∃ element predicate p', Runs (collectionFilter r) M p
        (.call .filter [.entitySet edge.target, .lambda [element] predicate]
          (some (.collection ownerEntity edge.name))) p' ∧
      ∀ (tables : Tables) (view : RowView) (scope : Scope) (u w : Value),
        view.row (p.forest.rowOf q) = .ok u → u.HasColumns edge.sourceKey → w.HasColumns edge.targetKey →
        ∃ b, predicate.evalIn tables view (scope.bind [element] [w]) = .ok (.bool b) ∧
          (b = true ↔ (∃ s ∈ edge.sourceKey, (u.column s).isNull = false) ∧
            ∀ x ∈ edge.sourceKey.zip edge.targetKey, (u.column x.1).equals (w.column x.2) = true) ∧
          (WholeKey (edge.sourceKey.map u.column) → (b = true ↔
            w ∈ matchingRows (keyValue (edge.sourceKey.map u.column))
              [(keyValue (edge.targetKey.map w.column), w)])) := by
  refine ⟨_, _, _, Runs.collectionFilter_ok hedge howner hentity hkeys,
    fun tables view scope u w hu hcolumns hcolumns' => ?_⟩
  obtain ⟨⟨ownerType, -, hok⟩, ⟨elementType, -, hek⟩, hlen⟩ := hkeys
  obtain ⟨hsource, -⟩ := EntityType.names_of_propertiesNamed hok
  obtain ⟨htarget, -⟩ := EntityType.names_of_propertiesNamed hek
  refine ⟨_, evalIn_membership hlen hu List.lookup_cons_self
    (fun o ho => hcolumns.evalMember (hsource ▸ List.mem_map_of_mem ho))
    (fun e he => hcolumns'.evalMember (htarget ▸ List.mem_map_of_mem he)), ?_⟩
  have ownerColumns : (ownerKey.map fun o => u.column o.name) = edge.sourceKey.map u.column := by
    rw [← hsource, List.map_map]
    rfl
  have elementColumns : (elementKey.map fun e => w.column e.name) = edge.targetKey.map w.column := by
    rw [← htarget, List.map_map]
    rfl
  have hlength : edge.targetKey.length = edge.sourceKey.length := by
    rw [← hsource, ← htarget, List.length_map, List.length_map, hlen]
  rw [ownerColumns, elementColumns]
  refine ⟨?_, fun hwhole => hwhole.keyFilterValue_iff⟩
  rw [keyFilterValue_iff (by simpa using hlength), List.zip_map, List.forall_mem_map]
  simp only [List.mem_map, exists_exists_and_eq_and, Prod.map]

end Collections

namespace Zones

def shops : NavigationEdge where
  name := "Shops"
  target := "Shop"
  foreignKey := ["Country", "Zone"]
  principalKey := ["Country", "Zone"]
  toPrincipal := false
  isCollection := true
  isRequired := true

def columns : List Property := [⟨"Country", .string, true⟩, ⟨"Zone", .int, true⟩]

def region : EntityType where
  name := "Region"
  primaryKey := ["Country"]
  properties := columns
  navigations := [shops]

def shop : EntityType where
  name := "Shop"
  primaryKey := ["Country"]
  properties := columns
  navigations := []

def catalog : Catalog := ⟨[region, shop]⟩

/-- Where regions are the rows of the only source, and their shops are asked for. -/
def regions : Progress where
  forest := ((Forest.empty.addSource "Region" false).2.follow ⟨0⟩ shops).2

def shopsOfRegion : RowRef := ⟨⟨0⟩, ⟨1⟩, ["Shops"]⟩

def place (zone : Value) : Value := .record [("Country", .str "NZ"), ("Zone", zone)]

/-- All references are to one row. -/
def onRow (row : Value) : RowView := ⟨fun _ => none, fun _ => .ok row⟩

theorem keysDeclared_shops : KeysDeclared catalog "Region" shops columns columns :=
  ⟨⟨region, rfl, rfl⟩, ⟨shop, rfl, rfl⟩, rfl⟩

end Zones

/-- A region and a shop of the same zone. -/
theorem collectionFilter_shopsOfZone : ∃ element predicate p',
    Runs (collectionFilter Zones.shopsOfRegion) ⟨Zones.catalog, {}⟩ Zones.regions
      (.call .filter [.entitySet "Shop", .lambda [element] predicate]
        (some (.collection "Region" "Shops"))) p' ∧
    predicate.evalIn [] (Zones.onRow (Zones.place (.int 3)))
      (Scope.bind [] [element] [Zones.place (.int 3)]) = .ok (.bool true) := by
  obtain ⟨element, predicate, p', hruns, hmatches⟩ := collectionFilter_matches (r := Zones.shopsOfRegion)
    (show (Zones.regions.forest.node ⟨1⟩).edge = some Zones.shops from rfl) rfl rfl
    (show KeysDeclared (⟨Zones.catalog, {}⟩ : Model).catalog "Region" _ _ _ from
      Zones.keysDeclared_shops)
  obtain ⟨b, heval, hb, -⟩ := hmatches [] (Zones.onRow (Zones.place (.int 3))) [] _
    (Zones.place (.int 3)) rfl (by decide) (by decide)
  obtain rfl : b = true := hb.2 ⟨by decide, by decide⟩
  exact ⟨element, predicate, p', hruns, heval⟩

/-- A region and a shop in the country, but in no zone: the filter finds the shop, and no join does. -/
theorem collectionFilter_partlyNull : ∃ element predicate p',
    Runs (collectionFilter Zones.shopsOfRegion) ⟨Zones.catalog, {}⟩ Zones.regions
      (.call .filter [.entitySet "Shop", .lambda [element] predicate]
        (some (.collection "Region" "Shops"))) p' ∧
    predicate.evalIn [] (Zones.onRow (Zones.place .null)) (Scope.bind [] [element] [Zones.place .null]) =
      .ok (.bool true) ∧
    Zones.place .null ∉ matchingRows (keyValue (Zones.shops.sourceKey.map (Zones.place .null).column))
      [(keyValue (Zones.shops.targetKey.map (Zones.place .null).column), Zones.place .null)] :=
  ⟨_, _, _, rfl, rfl, fun h => nomatch (mem_matchingRows_single.1 h).1⟩

section Hoisting

variable {e body : Expr} {parameter : String} {innerKey outerKey : List Expr} {plan : HoistPlan}

namespace Expr

theorem keyPair?_length (h : body.keyPair? parameter = some (innerKey, outerKey)) :
    innerKey.length = outerKey.length := by
  unfold keyPair? at h
  split at h
  · split at h
    · cases h
    · obtain ⟨_, -, h⟩ := Option.bind_eq_some_iff.1 h
      dsimp only at h
      split at h
      · next hlen =>
        cases h
        exact hlen
      · cases h
  · cases h

end Expr

/-- What a filter says that a selector is hoisted with. The chain above it refers to no enclosing row,
and neither does an inner key that is made of columns. Where the filter's equality is one of the keys,
the rows that it finds have the owner's key. If its guard reads the outer key, the predicate holds if and
only if some part of the outer key is present and the keys are equal part by part; of a whole outer key,
a join on the keys pairs the row with it then. -/
theorem HoistPlan.ofSelector_matches (h : HoistPlan.ofSelector e = .ok plan) :
    plan.chain.rowRefs = [] ∧ ∃ chain filter guard equality rest,
      (e = chain ∨ ∃ further note, e = .call .defaultIfEmpty (chain :: further) note) ∧
      chain.navigationFilter? = some (filter, true) ∧
      filter.arguments =
        .entitySet plan.target :: .lambda [plan.parameter] (.and guard equality) :: rest ∧
      plan.chain = chain.withoutFilter plan.target ∧
      ((∀ part ∈ plan.innerKey, part.ReadsColumn plan.parameter) →
        ∀ part ∈ plan.innerKey, part.rowRefs = []) ∧
      (equality.EquatesKeys plan.innerKey plan.outerKey →
        ∀ (tables : Tables) (view : RowView) (scope : Scope) (row : Value) (value : Expr → Value),
          (∀ part ∈ plan.innerKey ++ plan.outerKey,
            part.evalIn tables view (scope.bind [plan.parameter] [row]) = .ok (value part)) →
          ((Expr.and guard equality).evalIn tables view (scope.bind [plan.parameter] [row]) =
              .ok (.bool true) →
            ∀ parts ∈ plan.outerKey.zip plan.innerKey, (value parts.1).equals (value parts.2) = true) ∧
          (guard.ComparesWithNulls plan.outerKey → ∃ b,
            (Expr.and guard equality).evalIn tables view (scope.bind [plan.parameter] [row]) =
              .ok (.bool b) ∧
            (b = true ↔ (∃ part ∈ plan.outerKey, (value part).isNull = false) ∧
              ∀ parts ∈ plan.outerKey.zip plan.innerKey, (value parts.1).equals (value parts.2) = true) ∧
            (WholeKey (plan.outerKey.map value) → (b = true ↔
              row ∈ matchingRows (keyValue (plan.outerKey.map value))
                [(keyValue (plan.innerKey.map value), row)])))) := by
  obtain ⟨chain, filter, body, rest, hchain, hfilter, harguments, hkeys, hopened, hrefs⟩ :=
    ofSelector_eq_ok h
  obtain ⟨guard, a, b, rfl, -⟩ := keyPair?_eq_some hkeys
  refine ⟨hrefs, chain, filter, guard, _, rest, hchain, hfilter, harguments, hopened,
    fun columns part hpart => (columns part hpart).rowRefs,
    fun hequality tables view scope row value heval => ?_⟩
  obtain ⟨hinner, houter⟩ := List.forall_mem_append.1 heval
  have hlength : (plan.outerKey.map value).length = (plan.innerKey.map value).length := by
    rw [List.length_map, List.length_map, keyPair?_length hkeys]
  have equalParts :
      (∀ x ∈ (plan.outerKey.map value).zip (plan.innerKey.map value), x.1.equals x.2 = true) ↔
      ∀ parts ∈ plan.outerKey.zip plan.innerKey, (value parts.1).equals (value parts.2) = true := by
    rw [List.zip_map, List.forall_mem_map]
    simp only [Prod.map]
  refine ⟨fun htrue => ?_, fun hguard => ⟨_, hequality.evalIn_and hguard hinner houter, ?_,
    fun hwhole => hwhole.keyFilterValue_iff⟩⟩
  · have hequal := isTrue_of_evalIn_and htrue (hequality.evalIn hinner houter)
    rw [Value.isTrue, Value.equals_comm, equals_keyValue hlength, List.all_eq_true] at hequal
    exact equalParts.1 hequal
  · rw [keyFilterValue_iff hlength.symm, equalParts]
    simp only [List.mem_map, exists_exists_and_eq_and]

end Hoisting

namespace Zones

/-- The shops of a region that a parameter names. -/
def shopsOf : Expr :=
  .call .filter [.entitySet "Shop", .lambda ["s"] (membership (.param "r") "s" columns columns)]
    (some (.collection "Region" "Shops"))

/-- The shops of a region by the zone alone, if the region has a name. -/
def shopsOfNamed : Expr :=
  .call .filter [.entitySet "Shop", .lambda ["s"]
    (.and (.ne (.member (.param "r") "Country") .null)
      (.eq (.member (.param "s") "Zone") (.member (.param "r") "Zone")))]
    (some (.collection "Region" "Shops"))

/-- A region and a shop of zone 3. -/
def scope : Scope := Scope.bind [("r", place (.int 3))] ["s"] [place (.int 3)]

/-- The values of their columns. -/
def value : Expr → Value
  | .member _ "Country" => .str "NZ"
  | _ => .int 3

/-- A region with no zone and a shop of no zone. -/
def zoneless : Scope := Scope.bind [("r", place .null)] ["s"] [place .null]

end Zones

/-- The shops of a region can be joined by country and zone. -/
theorem HoistPlan.ofSelector_shopsOf : ∃ plan, HoistPlan.ofSelector Zones.shopsOf = .ok plan ∧
    (∀ part ∈ plan.innerKey, part.rowRefs = []) ∧
    (membership (.param "r") "s" Zones.columns Zones.columns).evalIn [] (Zones.onRow .null) Zones.scope =
      .ok (.bool true) := by
  refine ⟨_, rfl, ?_⟩
  obtain ⟨-, chain, filter, guard, equality, rest, hchain, hfilter, harguments, -, hcolumns, hmatches⟩ :=
    HoistPlan.ofSelector_matches (rfl : HoistPlan.ofSelector Zones.shopsOf = .ok _)
  obtain rfl | ⟨_, _, ⟨⟩⟩ := hchain
  obtain rfl : _ = filter := congrArg Prod.fst (Option.some.inj hfilter)
  cases harguments
  obtain ⟨_, _, ⟨⟩, hguard, hequality⟩ :=
    Expr.membership_eq (.param "r") "s" Zones.columns Zones.columns
  have heval : ∀ part ∈ [Expr.member (.param "s") "Country", .member (.param "s") "Zone",
      .member (.param "r") "Country", .member (.param "r") "Zone"],
      part.evalIn [] (Zones.onRow .null) Zones.scope = .ok (Zones.value part) := by
    simp only [List.forall_mem_cons]
    exact ⟨rfl, rfl, rfl, rfl, nofun⟩
  obtain ⟨b, heval, hb, -⟩ := (hmatches hequality [] (Zones.onRow .null) [("r", Zones.place (.int 3))]
    (Zones.place (.int 3)) Zones.value heval).2 hguard
  obtain rfl : b = true := hb.2 ⟨by decide, by decide⟩
  refine ⟨hcolumns fun part hpart => ?_, heval⟩
  obtain rfl | rfl := List.mem_pair.1 hpart <;> exact ⟨_, rfl⟩

/-- A filter is taken for one by the zone although its guard reads the country: without a zone, it finds
the shops that have none. -/
theorem HoistPlan.ofSelector_guarded : ∃ plan body,
    HoistPlan.ofSelector Zones.shopsOfNamed = .ok plan ∧
    Zones.shopsOfNamed = .call .filter [.entitySet "Shop", .lambda [plan.parameter] body]
      (some (.collection "Region" "Shops")) ∧
    body.evalIn [] (Zones.onRow .null) Zones.zoneless = .ok (.bool true) ∧
    (Expr.key plan.outerKey).evalIn [] (Zones.onRow .null) Zones.zoneless = .ok .null ∧
    ∀ key row, row ∉ matchingRows .null [(key, row)] :=
  ⟨_, _, rfl, rfl, rfl, rfl, fun _ _ h => nomatch (mem_matchingRows_single.1 h).1⟩

namespace Shop

/-- The orders of all customers. -/
def ordersOfAll : Expr :=
  .call .selectMany [.entitySet "Customer", .lambda ["c"] (.member (.param "c") "Orders")] none

/-- The totals of the orders of all customers, with one element for a customer without orders. -/
def totalsOfAll : Expr :=
  let totals := Expr.call .select [.member (.param "c") "Orders",
    .lambda ["o"] (.record [("Total", .member (.param "o") "Total")])] none
  .call .selectMany [.entitySet "Customer", .lambda ["c"] (.call .defaultIfEmpty [totals] none)] none

def unhoisted : Settings := { hoistCollections := false }

/-- A customer without orders. -/
def newcomer : Tables := [("Customer", [customer 3 "Cid" .null]), ("Order", [])]

end Shop

/-- A join reads the column of a key. The filter that is kept otherwise is expanded once more, and there the
column is taken for the navigation that has its name. -/
theorem evaluate_ordersOfAll_differ : ∃ q q',
    expandQuery Shop.namesakes {} Shop.ordersOfAll = .ok q ∧
    expandQuery Shop.namesakes Shop.unhoisted Shop.ordersOfAll = .ok q' ∧
    q.query.evaluate Shop.namesakeTables = .ok (.list [Shop.namesakeOrder]) ∧
    q'.query.evaluate Shop.namesakeTables = .ok (.list []) := by
  have hoisted : ((expandQuery Shop.namesakes {} Shop.ordersOfAll).toOption.map fun q =>
      q.query.evaluate Shop.namesakeTables) = some (.ok (.list [Shop.namesakeOrder])) := by cbv
  have correlated : ((expandQuery Shop.namesakes Shop.unhoisted Shop.ordersOfAll).toOption.map fun q =>
      q.query.evaluate Shop.namesakeTables) = some (.ok (.list [])) := by cbv
  obtain ⟨q, h, heval⟩ := exists_evaluation hoisted
  obtain ⟨q', h', heval'⟩ := exists_evaluation correlated
  exact ⟨q, q', h, h', heval, heval'⟩

/-- A join adds the missing row below the projection, which then makes a record of it; without hoisting
the missing element is added to what has been projected. -/
theorem evaluate_totalsOfAll_differ : ∃ q q',
    expandQuery Shop.catalog {} Shop.totalsOfAll = .ok q ∧
    expandQuery Shop.catalog Shop.unhoisted Shop.totalsOfAll = .ok q' ∧
    q.query.evaluate Shop.newcomer = .ok (.list [.record [("Total", .null)]]) ∧
    q'.query.evaluate Shop.newcomer = .ok (.list [.null]) := by
  have hoisted : ((expandQuery Shop.catalog {} Shop.totalsOfAll).toOption.map fun q =>
      q.query.evaluate Shop.newcomer) = some (.ok (.list [.record [("Total", .null)]])) := by cbv
  have correlated : ((expandQuery Shop.catalog Shop.unhoisted Shop.totalsOfAll).toOption.map fun q =>
      q.query.evaluate Shop.newcomer) = some (.ok (.list [.null])) := by cbv
  obtain ⟨q, h, heval⟩ := exists_evaluation hoisted
  obtain ⟨q', h', heval'⟩ := exists_evaluation correlated
  exact ⟨q, q', h, h', heval, heval'⟩

end EntityQuery
