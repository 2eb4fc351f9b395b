import EntityQuery.Proofs.Comparing
import EntityQuery.Proofs.Matching

/-!
# Identity of rows by their keys

Rows of one entity are told apart by their keys (`Keyed`). An equality of two references to such rows,
compared by keys, says whether they stand for one row, and one with null whether a row is missing. A row
is not found to be itself if a column of its key is NaN, which differs from itself (`SelfEqual`). The
expression that decides this is written out in `rowEquality` and `nullEquality`; what remains to be seen
of these is how a key is read from a row that can be missing, and when the guards of an equality are
null.
-/

namespace EntityQuery

open EntityQuery.Expr

variable {M : Model} {p q : Progress} {f g : Forest} {n m x y : NodeId} {op : BinaryOp} {a b e d : Expr}
  {key : List Property} {tables : Tables} {v : RowView} {scope : Scope}

section Guards

/-- What holds of some node that is referred to holds of some node that is left. -/
theorem any_distinctNodes (refs : List RowRef) (holds : NodeId → Bool) :
    (distinctNodes refs).any (fun r => holds r.node) = refs.any fun r => holds r.node := by
  rw [Bool.eq_iff_iff, List.any_eq_true, List.any_eq_true]
  constructor
  · rintro ⟨r, hr, h⟩
    exact ⟨r, mem_of_distinctNodes hr, h⟩
  · rintro ⟨r, hr, h⟩
    obtain ⟨r', hr', heq⟩ := exists_distinctNodes hr
    exact ⟨r', hr', heq ▸ h⟩

/-- The view in which every node has its row. -/
def RowView.assigning (row : NodeId → Value) : RowView where
  path _ := none
  row r := .ok (row r.node)

variable {row : NodeId → Value}

theorem anyNullGuardIn_rows (tables : Tables) (scope : Scope) (refs : List RowRef) :
    anyNullGuardIn tables (.assigning row) scope (refs.map .rowRef) =
      .ok (refs.any fun r => (row r.node).isNull) := by
  induction refs with
  | nil => rfl
  | cons r refs ih =>
    rw [List.map_cons, anyNullGuardIn, ih, List.any_cons]
    change (if (row r.node).isNull = true then Except.ok true else _) = _
    cases (row r.node).isNull <;> rfl

/-- A guarded equality is false if a row that is read is missing. -/
theorem evalIn_guardedEquality {l r : Value} (ha : a.evalIn tables (.assigning row) scope = .ok l)
    (hb : b.evalIn tables (.assigning row) scope = .ok r) :
    (guardedEquality f a b).evalIn tables (.assigning row) scope =
      .ok (.bool (!((optionalReads f a ++ optionalReads f b).any fun r => (row r.node).isNull) &&
        l.equals r)) := by
  rw [← any_distinctNodes _ fun n => (row n).isNull]
  unfold guardedEquality
  cases distinctNodes (optionalReads f a ++ optionalReads f b) with
  | nil =>
    simp only [Expr.eq, evalIn, ha, hb]
    rfl
  | cons g guards =>
    dsimp only
    rw [evalIn, anyNullGuardIn_rows, ha, hb]
    cases (g :: guards).any fun r => (row r.node).isNull <;> rfl

end Guards

section Keys

/-- Rows that a key tells apart: each of them has its columns, none of which is null, and rows that agree
in all of them are one row. -/
structure Keyed (key : List Property) (rows : List Value) : Prop where
  column : ∀ w ∈ rows, ∀ k ∈ key, evalMember k.name w = .ok (w.column k.name)
  present : ∀ w ∈ rows, ∀ k ∈ key, (w.column k.name).isNull = false
  distinct : ∀ u ∈ rows, ∀ w ∈ rows,
    (∀ k ∈ key, (u.column k.name).equals (w.column k.name) = true) → u = w

/-- The key of a row equals itself, as every key does that has no NaN. -/
def SelfEqual (key : List Property) (w : Value) : Prop :=
  ∀ k ∈ key, (w.column k.name).equals (w.column k.name) = true

variable {rows : List Value} {u w : Value}

theorem selfEqual_null : SelfEqual key .null := fun _ _ => rfl

namespace Keyed

theorem column_of_row (h : Keyed key rows) (hw : w ∈ rows ∨ w = .null) {k : Property} (hk : k ∈ key) :
    evalMember k.name w = .ok (w.column k.name) := by
  rcases hw with hw | rfl
  · exact h.column w hw k hk
  · rfl

/-- Two keys are equal if they are those of one row, or of none, and that equals itself. -/
theorem equals_iff (h : Keyed key rows) (hne : key ≠ []) (hu : u ∈ rows ∨ u = .null)
    (hw : w ∈ rows ∨ w = .null) : (keyValue (key.map fun k => u.column k.name)).equals
      (keyValue (key.map fun k => w.column k.name)) = true ↔ u = w ∧ SelfEqual key u := by
  have parts : (keyValue (key.map fun k => u.column k.name)).equals
      (keyValue (key.map fun k => w.column k.name)) = true ↔
        ∀ k ∈ key, (u.column k.name).equals (w.column k.name) = true := by
    rw [equals_keyValue (by simp), List.zip_map', List.all_map, List.all_eq_true]
    rfl
  rw [parts]
  obtain ⟨k, hk⟩ := List.exists_mem_of_ne_nil key hne
  rcases hu with hu | rfl <;> rcases hw with hw | rfl
  · constructor
    · intro hall
      obtain rfl := h.distinct u hu w hw hall
      exact ⟨rfl, hall⟩
    · rintro ⟨rfl, hself⟩
      exact hself
  · refine ⟨fun hall => ?_, ?_⟩
    · have missing := (Value.equals_null _).symm.trans (hall k hk)
      rw [h.present u hu k hk] at missing
      cases missing
    · rintro ⟨rfl, -⟩
      exact selfEqual_null
  · refine ⟨fun hall => ?_, ?_⟩
    · have missing := (Value.equals_null _).symm.trans ((Value.equals_comm _ _).trans (hall k hk))
      rw [h.present w hw k hk] at missing
      cases missing
    · rintro ⟨rfl, -⟩
      exact selfEqual_null
  · exact ⟨fun _ => ⟨rfl, selfEqual_null⟩, fun _ => selfEqual_null⟩

/-- The key of a row is that of no row exactly if the row is missing. -/
theorem equals_null_iff (h : Keyed key rows) (hne : key ≠ []) (hu : u ∈ rows ∨ u = .null) :
    (keyValue (key.map fun k => u.column k.name)).equals
      (keyValue (key.map fun k => Value.null.column k.name)) = true ↔ u = .null := by
  rw [h.equals_iff hne hu (.inr rfl)]
  constructor
  · exact And.left
  · rintro rfl
    exact ⟨rfl, selfEqual_null⟩

end Keyed

variable {row : NodeId → Value}

theorem evalIn_keyColumn {k : Property} (h : evalMember k.name (row n) = .ok ((row n).column k.name))
    (widened : Bool) : (keyColumn f n widened k).evalIn tables (.assigning row) scope =
      .ok ((row n).column k.name) := by
  cases widened <;> exact h

/-- The key of a row is made of its columns, whichever of them are converted. -/
theorem evalIn_keyColumns (hrows : Keyed key rows) (h : row n ∈ rows ∨ row n = .null)
    (widened : Property → Bool) :
    (Expr.key (key.map fun k => keyColumn f n (widened k) k)).evalIn tables (.assigning row) scope =
      .ok (keyValue (key.map fun k => (row n).column k.name)) :=
  evalIn_key fun _ hk => evalIn_keyColumn (hrows.column_of_row h hk) _

theorem Value.isNull_iff : w.isNull = true ↔ w = .null := by
  cases w <;> simp [isNull]

/-- The node stands for one of the rows of an entity, or for none if it is optional. -/
structure Forest.StandsFor (f : Forest) (n : NodeId) (entity : String) (rows : List Value) (w : Value) :
    Prop where
  entity : (f.node n).entity = some entity
  single : (f.node n).isCollection = false
  row : w ∈ rows ∨ w = .null ∧ (f.node n).isOptional = true

namespace Forest.StandsFor

variable {entity : String}

theorem present_or (h : f.StandsFor n entity rows w) : w ∈ rows ∨ w = .null := h.row.imp_right And.left

/-- The row is missing exactly if reading its key finds a row that can be missing, and that is. -/
theorem reads_missing (h : f.StandsFor n entity rows (row n)) (hrows : Keyed key rows) (hne : key ≠ [])
    (widened : Property → Bool) :
    ((optionalReads f (.key (key.map fun k => keyColumn f n (widened k) k))).any
      fun r => (row r.node).isNull) = (row n).isNull := by
  obtain ⟨k, hk⟩ := List.exists_mem_of_ne_nil key hne
  rw [optionalReads_key, List.flatMap_map, List.any_flatMap]
  simp only [optionalReads_keyColumn]
  cases ho : (f.node n).isOptional with
  | true =>
    cases hnull : (row n).isNull with
    | true => exact List.any_eq_true.2 ⟨k, hk, by simp [hnull]⟩
    | false => exact List.any_eq_false.2 fun _ _ => by simp [hnull]
  | false =>
    have hrow : row n ∈ rows := h.row.resolve_right fun hmissing => by simp [ho] at hmissing
    have : (row n).isNull = false := by
      cases hnull : row n with
      | null =>
        have := hrows.present _ hrow k hk
        rw [hnull] at this
        cases this
      | _ => rfl
    rw [this]
    exact List.any_eq_false.2 fun _ _ => by simp

theorem keyOf? (h : f.StandsFor n entity rows w) {c : Catalog} {t : EntityType}
    (ht : c.type? entity = some t) (hkey : t.keyProperties = .ok key) : keyOf? c f n = some key :=
  keyOf?_eq_some.2 ⟨t, by rwa [h.entity], hkey⟩

theorem operand {r : RowRef} (h : f.StandsFor r.node entity rows w) :
    Operand.of f (.rowRef r) = .entity r.node := by
  simp only [Operand.of, h.single, h.entity]
  rfl

end Forest.StandsFor

end Keys

section Deciding

theorem Runs.compareByKeys_row (r : RowRef) : Runs (compareByKeys (.rowRef r)) M p (.rowRef r) p :=
  Runs.pure_iff.2 ⟨rfl, rfl⟩

theorem Runs.compareByKeys_null (h : e.isNull = true) : Runs (compareByKeys e) M p e p := by
  induction e using children_induction with
  | step e ih =>
    cases e with
    | const _ => exact Runs.pure_iff.2 ⟨rfl, rfl⟩
    | convert operand dataType nullable =>
      rw [compareByKeys_eq, Runs.bind_iff]
      refine ⟨_, p, Runs.mapChildren_fixed (SameHead.refl_of _ fun c hc => ?_), Runs.pure_iff.2 ⟨rfl, rfl⟩⟩
      obtain rfl := List.mem_singleton.1 hc
      exact ih _ hc h
    | _ => cases h

theorem Operand.of_null (h : e.isNull = true) : Operand.of f e = .null := by
  cases e with
  | rowRef _ => cases h
  | _ => simp only [Operand.of, h, if_true]

theorem Operand.of_collection {r : RowRef} (h : (f.node r.node).isCollection = true) :
    Operand.of f (.rowRef r) = .collection r.node := by
  simp only [Operand.of, h, if_true]

/-- Compared by keys, the equality is true exactly if the proposition holds, where every node stands for
its row. -/
def Decides (M : Model) (p : Progress) (row : NodeId → Value) (e : Expr) (holds : Prop) : Prop :=
  ∃ d q, Runs (compareByKeys e) M p d q ∧ ∀ tables scope, ∃ b,
    d.evalIn tables (.assigning row) scope = .ok (.bool b) ∧ (b = true ↔ holds)

variable {rows : List Value} {row : NodeId → Value} {entity : String} {t : EntityType} {r s : RowRef}

/-- Two rows of an entity are compared by their keys. -/
theorem comparedRows_eq (ht : M.catalog.type? entity = some t) (hkey : t.keyProperties = .ok key)
    (hr : f.StandsFor n entity rows (row n)) (hs : f.StandsFor m entity rows (row m)) :
    comparedRows M f op n m = some (rowEquality M.settings op f n m key) := by
  rw [comparedRows, if_neg (not_not.2 (hr.entity.trans hs.entity.symm)), hr.keyOf? ht hkey, Option.map_some]

theorem Runs.compareSides_rows (ht : M.catalog.type? entity = some t) (hkey : t.keyProperties = .ok key)
    (hr : p.forest.StandsFor r.node entity rows (row r.node))
    (hs : p.forest.StandsFor s.node entity rows (row s.node)) :
    Runs (compareSides op (.rowRef r) (.rowRef s)) M p
      (rowEquality M.settings op p.forest r.node s.node key) p := by
  refine Runs.comparedSides_iff.2 ⟨?_, ?_⟩
  · rw [comparedSides, hr.operand, hs.operand]
    exact comparedRows_eq ht hkey hr hs
  · rw [Progress.compared, hr.operand, hs.operand]

/-- A row is compared with null by its key, on whichever side it stands. -/
theorem Runs.compareSides_null (ht : M.catalog.type? entity = some t) (hkey : t.keyProperties = .ok key)
    (hr : p.forest.StandsFor r.node entity rows (row r.node)) (he : e.isNull = true) :
    Runs (compareSides op (.rowRef r) e) M p (nullEquality op p.forest r.node key) p ∧
      Runs (compareSides op e (.rowRef r)) M p (nullEquality op p.forest r.node key) p := by
  have compared : comparedNull M p.forest op r.node = some (nullEquality op p.forest r.node key) := by
    rw [comparedNull, hr.keyOf? ht hkey, Option.map_some]
  simp only [Runs.comparedSides_iff, comparedSides, Progress.compared, hr.operand, Operand.of_null he,
    and_true]
  exact ⟨compared, compared⟩

/-- Two collections of one navigation are compared as their owners are. -/
theorem Runs.compareSides_collections {i j : RowRef} (hi : (p.forest.node i.node).parent = some r.node)
    (hj : (p.forest.node j.node).parent = some s.node)
    (hcollection : (p.forest.node i.node).isCollection = true)
    (hedge : (p.forest.node j.node).edge = (p.forest.node i.node).edge)
    (ht : M.catalog.type? entity = some t) (hkey : t.keyProperties = .ok key)
    (hr : p.forest.StandsFor r.node entity rows (row r.node))
    (hs : p.forest.StandsFor s.node entity rows (row s.node)) :
    Runs (compareSides op (.rowRef i) (.rowRef j)) M p (rowEquality M.settings op p.forest r.node s.node key)
      { p with forest := (p.forest.remove i.node).remove j.node } := by
  have hcollection' : (p.forest.node j.node).isCollection = true := by
    rwa [Node.isCollection, hedge]
  have navigation : sameNavigation p.forest i.node j.node = true := by
    simp [sameNavigation, hi, hj, hedge, hr.entity, hs.entity]
  simp only [Runs.comparedSides_iff, comparedSides, Progress.compared, Operand.of_collection hcollection,
    Operand.of_collection hcollection', comparedCollections, hi, hj, navigation, if_true,
    and_true]
  exact comparedRows_eq ht hkey hr hs

/-- Both rows are there, and they are one. -/
def SameRow (u w : Value) : Prop := u ≠ .null ∧ u = w

def BothMissing (u w : Value) : Prop := u = .null ∧ w = .null

theorem sameRow_or_bothMissing :
    SameRow u w ∧ SelfEqual key u ∨ BothMissing u w ↔ u = w ∧ SelfEqual key u := by
  constructor
  · rintro (⟨⟨-, rfl⟩, hself⟩ | ⟨rfl, rfl⟩)
    · exact ⟨rfl, hself⟩
    · exact ⟨rfl, selfEqual_null⟩
  · rintro ⟨rfl, hself⟩
    by_cases h : u = .null
    · exact .inr ⟨h, h⟩
    · exact .inl ⟨⟨h, rfl⟩, hself⟩

theorem evalIn_equal {k l : Value} (ha : a.evalIn tables v scope = .ok k)
    (hb : b.evalIn tables v scope = .ok l) (hop : op.isEquality = true) :
    (Expr.binary op a b).evalIn tables v scope =
      .ok (.bool (if op = .equal then k.equals l else !(k.equals l))) := by
  rw [evalIn, ha, hb]
  cases op <;> first | rfl | cases hop

/-- An equality of rows is true if they are one and its key equals itself. Two missing rows are equal
unless that is guarded. -/
theorem evalIn_rowEquality (hrows : Keyed key rows) (hne : key ≠ [])
    (hx : f.StandsFor x entity rows (row x)) (hy : f.StandsFor y entity rows (row y)) (s : Settings)
    (tables : Tables) (scope : Scope) :
    ∃ b, (rowEquality s .equal f x y key).evalIn tables (.assigning row) scope = .ok (.bool b) ∧
      (b = true ↔ if s.nullSafeEquality = true then SameRow (row x) (row y) ∧ SelfEqual key (row x)
        else SameRow (row x) (row y) ∧ SelfEqual key (row x) ∨ BothMissing (row x) (row y)) := by
  have hkl := hrows.equals_iff hne hx.present_or hy.present_or
  rw [rowEquality, plainEquality]
  cases s.nullSafeEquality with
  | false =>
    exact ⟨_, evalIn_equal (evalIn_keyColumns hrows hx.present_or _)
      (evalIn_keyColumns hrows hy.present_or _) rfl, hkl.trans sameRow_or_bothMissing.symm⟩
  | true =>
    refine ⟨_, evalIn_guardedEquality (evalIn_keyColumns hrows hx.present_or _)
      (evalIn_keyColumns hrows hy.present_or _), ?_⟩
    rw [List.any_append, hx.reads_missing hrows hne, hy.reads_missing hrows hne, Bool.and_eq_true,
      Bool.not_eq_true', Bool.or_eq_false_iff, hkl, if_pos rfl]
    constructor
    · rintro ⟨⟨hpresent, -⟩, hsame, hself⟩
      exact ⟨⟨fun hnull => by simp [hnull, Value.isNull] at hpresent, hsame⟩, hself⟩
    · rintro ⟨⟨hpresent, hsame⟩, hself⟩
      have := mt Value.isNull_iff.1 hpresent
      rw [Bool.not_eq_true] at this
      exact ⟨⟨this, hsame ▸ this⟩, hsame, hself⟩

/-- An inequality of rows is never guarded. -/
theorem evalIn_rowEquality_not (hrows : Keyed key rows) (hne : key ≠ [])
    (hx : f.StandsFor x entity rows (row x)) (hy : f.StandsFor y entity rows (row y)) (s : Settings)
    (tables : Tables) (scope : Scope) :
    ∃ b, (rowEquality s .notEqual f x y key).evalIn tables (.assigning row) scope = .ok (.bool b) ∧
      (b = true ↔ ¬ (SameRow (row x) (row y) ∧ SelfEqual key (row x)) ∧
        ¬ BothMissing (row x) (row y)) := by
  have hkl := hrows.equals_iff hne hx.present_or hy.present_or
  refine ⟨_, evalIn_equal (evalIn_keyColumns hrows hx.present_or _)
    (evalIn_keyColumns hrows hy.present_or _) rfl, ?_⟩
  rw [← not_or, sameRow_or_bothMissing, ← hkl]
  simp

/-- What an equality decides is one proposition. -/
theorem Decides.iff {P Q : Prop} (hp : Decides M p row e P) (hq : Decides M p row e Q) : P ↔ Q := by
  obtain ⟨d, q, hd, hval⟩ := hp
  obtain ⟨d', q', hd', hval'⟩ := hq
  obtain ⟨rfl, rfl⟩ := hd.unique hd'
  obtain ⟨b, hb, hP⟩ := hval [] []
  obtain ⟨b', hb', hQ⟩ := hval' [] []
  cases hb.symm.trans hb'
  exact hP.symm.trans hQ

section Rows

variable (ht : M.catalog.type? entity = some t) (hkey : t.keyProperties = .ok key)
  (hr : p.forest.StandsFor r.node entity rows (row r.node))
  (hs : p.forest.StandsFor s.node entity rows (row s.node))

include ht hkey hr hs

theorem Runs.compareByKeys_rows (he : e.sides? = some (op, .rowRef r, .rowRef s)) :
    Runs (compareByKeys e) M p (rowEquality M.settings op p.forest r.node s.node key) p :=
  .compareByKeys_sides he (.compareByKeys_row r) (.compareByKeys_row s) (.compareSides_rows ht hkey hr hs)

theorem decides_equal (hne : key ≠ []) (hrows : Keyed key rows)
    (he : e.sides? = some (.equal, .rowRef r, .rowRef s)) : Decides M p row e
      (if M.settings.nullSafeEquality = true then SameRow (row r.node) (row s.node) ∧ SelfEqual key (row r.node)
        else SameRow (row r.node) (row s.node) ∧ SelfEqual key (row r.node) ∨
          BothMissing (row r.node) (row s.node)) :=
  ⟨_, p, .compareByKeys_rows ht hkey hr hs he, evalIn_rowEquality hrows hne hr hs _⟩

theorem decides_notEqual (hne : key ≠ []) (hrows : Keyed key rows)
    (he : e.sides? = some (.notEqual, .rowRef r, .rowRef s)) : Decides M p row e
      (¬ (SameRow (row r.node) (row s.node) ∧ SelfEqual key (row r.node)) ∧
        ¬ BothMissing (row r.node) (row s.node)) :=
  ⟨_, p, .compareByKeys_rows ht hkey hr hs he, evalIn_rowEquality_not hrows hne hr hs _⟩

end Rows

/-- An equality of a row with null is true if the row is missing. -/
theorem evalIn_nullEquality (hrows : Keyed key rows) (hne : key ≠ [])
    (hx : f.StandsFor x entity rows (row x)) (hop : op.isEquality = true) (tables : Tables)
    (scope : Scope) :
    ∃ b, (nullEquality op f x key).evalIn tables (.assigning row) scope = .ok (.bool b) ∧
      (b = true ↔ if op = .equal then row x = .null else row x ≠ .null) := by
  have missing := hrows.equals_null_iff hne hx.present_or
  have nulls : (Expr.key (key.map fun k => .typedNull k.dataType)).evalIn tables (.assigning row) scope =
      .ok (keyValue (key.map fun k => Value.null.column k.name)) := evalIn_key fun _ _ => rfl
  refine ⟨_, evalIn_equal (evalIn_keyColumns hrows hx.present_or _) nulls hop, ?_⟩
  split
  · exact missing
  · rw [Bool.not_eq_true', ← Bool.not_eq_true, missing]

/-- What equalities of rows of one entity, of a row and null, and of collections say when they are
compared by keys. -/
theorem compareByKeys_decides (ht : M.catalog.type? entity = some t) (hkey : t.keyProperties = .ok key)
    (hne : key ≠ []) (hrows : Keyed key rows)
    (hr : p.forest.StandsFor r.node entity rows (row r.node))
    (hs : p.forest.StandsFor s.node entity rows (row s.node)) :
    (∀ e : Expr, e.sides? = some (.equal, .rowRef r, .rowRef s) → Decides M p row e
      (if M.settings.nullSafeEquality = true then SameRow (row r.node) (row s.node) ∧ SelfEqual key (row r.node)
        else SameRow (row r.node) (row s.node) ∧ SelfEqual key (row r.node) ∨
          BothMissing (row r.node) (row s.node))) ∧
    (∀ e : Expr, e.sides? = some (.notEqual, .rowRef r, .rowRef s) → Decides M p row e
      (¬ (SameRow (row r.node) (row s.node) ∧ SelfEqual key (row r.node)) ∧
        ¬ BothMissing (row r.node) (row s.node))) ∧
    (∀ e null : Expr, null.isNull = true →
      e.sides? = some (.equal, .rowRef r, null) ∨ e.sides? = some (.equal, null, .rowRef r) →
      Decides M p row e (row r.node = .null)) ∧
    (∀ e null : Expr, null.isNull = true →
      e.sides? = some (.notEqual, .rowRef r, null) ∨ e.sides? = some (.notEqual, null, .rowRef r) →
      Decides M p row e (row r.node ≠ .null)) ∧
    ∀ (op : BinaryOp) (i j : RowRef) (e d : Expr), (p.forest.node i.node).isCollection = true →
      (p.forest.node j.node).edge = (p.forest.node i.node).edge →
      (p.forest.node i.node).parent = some r.node → (p.forest.node j.node).parent = some s.node →
      e.sides? = some (op, .rowRef i, .rowRef j) → d.sides? = some (op, .rowRef r, .rowRef s) →
      ∃ c q, Runs (compareByKeys e) M p c q ∧ Runs (compareByKeys d) M p c p := by
  have withNull {op : BinaryOp} {e null : Expr} (hnull : null.isNull = true)
      (he : e.sides? = some (op, .rowRef r, null) ∨ e.sides? = some (op, null, .rowRef r)) :
      Runs (compareByKeys e) M p (nullEquality op p.forest r.node key) p := by
    obtain ⟨left, right⟩ := Runs.compareSides_null ht hkey hr hnull
    rcases he with he | he
    · exact .compareByKeys_sides he (.compareByKeys_row r) (.compareByKeys_null hnull) left
    · exact .compareByKeys_sides he (.compareByKeys_null hnull) (.compareByKeys_row r) right
  refine ⟨fun e => decides_equal ht hkey hr hs hne hrows, fun e => decides_notEqual ht hkey hr hs hne hrows,
    fun e null hnull he => ⟨_, p, withNull hnull he, evalIn_nullEquality hrows hne hr rfl⟩,
    fun e null hnull he => ⟨_, p, withNull hnull he, evalIn_nullEquality hrows hne hr rfl⟩,
    fun op i j e d hcollection hedge hi hj he hd => ?_⟩
  have collections := Runs.compareByKeys_sides he (.compareByKeys_row i) (.compareByKeys_row j)
    (.compareSides_collections hi hj hcollection hedge ht hkey hr hs)
  exact ⟨_, _, collections, .compareByKeys_rows ht hkey hr hs hd⟩

end Deciding

namespace Theatre

def tickets : NavigationEdge where
  name := "Tickets"
  target := "Ticket"
  foreignKey := ["SeatRow", "SeatNumber"]
  principalKey := ["Row", "Number"]
  toPrincipal := false
  isCollection := true
  isRequired := true

def seat : EntityType where
  name := "Seat"
  primaryKey := ["Row", "Number"]
  properties := [⟨"Row", .string, false⟩, ⟨"Number", .int, false⟩]
  navigations := [tickets]

def seats : List Value :=
  [.record [("Row", .str "A"), ("Number", .int 1)], .record [("Row", .str "A"), ("Number", .int 2)]]

/-- A seat and another one that can be missing, each with its tickets. -/
def forest : Forest :=
  let f := (Forest.empty.addSource (some "Seat") false).2
  let f := (f.addSource (some "Seat") true).2
  let f := (f.follow ⟨0⟩ tickets).2
  (f.follow ⟨1⟩ tickets).2

def rowOf (n : NodeId) : Value := if n = ⟨0⟩ then seats.headD .null else .null

theorem keyed_seats : Keyed seat.properties seats := by
  have cases {w : Value} (hw : w ∈ seats) := List.mem_pair.1 hw
  refine ⟨fun w hw k hk => ?_, fun w hw k hk => ?_, fun u hu w hw h => ?_⟩
  · rcases cases hw with rfl | rfl <;> rcases List.mem_pair.1 hk with rfl | rfl <;> rfl
  · rcases cases hw with rfl | rfl <;> rcases List.mem_pair.1 hk with rfl | rfl <;> rfl
  · have number := h ⟨"Number", .int, false⟩ (.tail _ (.head _))
    rcases cases hu with rfl | rfl <;> rcases cases hw with rfl | rfl
    · rfl
    · exact absurd number (by decide)
    · exact absurd number (by decide)
    · rfl

end Theatre

/-- A seat, a missing one, and their tickets are compared. -/
theorem compareByKeys_seats :
    let M : Model := ⟨⟨[Theatre.seat]⟩, {}⟩
    let p : Progress := { forest := Theatre.forest }
    let row (n : Nat) : Expr := .rowRef { source := ⟨n % 2⟩, node := ⟨n⟩, path := [] }
    Keyed Theatre.seat.properties Theatre.seats ∧
      p.forest.StandsFor ⟨0⟩ "Seat" Theatre.seats (Theatre.rowOf ⟨0⟩) ∧
      p.forest.StandsFor ⟨1⟩ "Seat" Theatre.seats (Theatre.rowOf ⟨1⟩) ∧
      Decides M p Theatre.rowOf (.eq (row 0) (row 1))
        (SameRow (Theatre.rowOf ⟨0⟩) (Theatre.rowOf ⟨1⟩) ∧
          SelfEqual Theatre.seat.properties (Theatre.rowOf ⟨0⟩)) ∧
      Decides M p Theatre.rowOf (.binary .notEqual (row 0) .null) (Theatre.rowOf ⟨0⟩ ≠ .null) ∧
      ∃ c q, Runs (compareByKeys (.function "Equals" [row 2, row 3])) M p c q ∧
        Runs (compareByKeys (.eq (row 0) (row 1))) M p c p := by
  intro M p row
  have first : p.forest.StandsFor ⟨0⟩ "Seat" Theatre.seats (Theatre.rowOf ⟨0⟩) :=
    ⟨by decide, by decide, .inl (.head _)⟩
  have second : p.forest.StandsFor ⟨1⟩ "Seat" Theatre.seats (Theatre.rowOf ⟨1⟩) :=
    ⟨by decide, by decide, .inr ⟨rfl, by decide⟩⟩
  obtain ⟨equal, -, -, notNull, collections⟩ := compareByKeys_decides (M := M)
    (r := { source := ⟨0⟩, node := ⟨0⟩, path := [] }) (s := { source := ⟨1⟩, node := ⟨1⟩, path := [] })
    (show M.catalog.type? "Seat" = some Theatre.seat from rfl) rfl (by decide) Theatre.keyed_seats first second
  exact ⟨Theatre.keyed_seats, first, second, equal _ rfl, notNull _ .null rfl (.inl rfl),
    collections .equal _ _ _ _ (by decide) (by decide) (by decide) (by decide) rfl rfl⟩

namespace Laboratory

def reading : EntityType where
  name := "Reading"
  primaryKey := ["Level"]
  properties := [⟨"Level", .float, false⟩]
  navigations := []

/-- Two references to readings. -/
def forest : Forest := ((Forest.empty.addSource (some "Reading") false).2.addSource (some "Reading") false).2

/-- A reading whose key is NaN. -/
def unread : Value := .record [("Level", .float (0 / 0))]

theorem keyed_unread : Keyed reading.properties [unread] := by
  refine ⟨fun w hw k hk => ?_, fun w hw k hk => ?_, fun u hu w hw _ => ?_⟩
  · obtain rfl := List.mem_singleton.1 hw
    obtain rfl := List.mem_singleton.1 hk
    rfl
  · obtain rfl := List.mem_singleton.1 hw
    obtain rfl := List.mem_singleton.1 hk
    rfl
  · exact (List.mem_singleton.1 hu).trans (List.mem_singleton.1 hw).symm

theorem not_selfEqual_unread : ¬ SelfEqual reading.properties unread := fun h =>
  absurd (h ⟨"Level", .float, false⟩ (.head _)) (by decide)

end Laboratory

/-- A row whose key is NaN is not found to be itself, in either mode. -/
theorem compareByKeys_unread :
    let p : Progress := { forest := Laboratory.forest }
    let row (_ : NodeId) : Value := Laboratory.unread
    let ref (n : Nat) : Expr := .rowRef { source := ⟨n⟩, node := ⟨n⟩, path := [] }
    Keyed Laboratory.reading.properties [Laboratory.unread] ∧
      p.forest.StandsFor ⟨0⟩ "Reading" [Laboratory.unread] (row ⟨0⟩) ∧
      p.forest.StandsFor ⟨1⟩ "Reading" [Laboratory.unread] (row ⟨1⟩) ∧
      ∀ nullSafe : Bool, let M : Model := ⟨⟨[Laboratory.reading]⟩, { nullSafeEquality := nullSafe }⟩
        ¬ Decides M p row (.eq (ref 0) (ref 1)) (if nullSafe = true then SameRow (row ⟨0⟩) (row ⟨1⟩)
          else SameRow (row ⟨0⟩) (row ⟨1⟩) ∨ BothMissing (row ⟨0⟩) (row ⟨1⟩)) ∧
        ¬ Decides M p row (.binary .notEqual (ref 0) (ref 1))
          (¬ SameRow (row ⟨0⟩) (row ⟨1⟩) ∧ ¬ BothMissing (row ⟨0⟩) (row ⟨1⟩)) := by
  intro p row ref
  have first : p.forest.StandsFor ⟨0⟩ "Reading" [Laboratory.unread] (row ⟨0⟩) :=
    ⟨by decide, by decide, .inl (.head _)⟩
  have second : p.forest.StandsFor ⟨1⟩ "Reading" [Laboratory.unread] (row ⟨1⟩) :=
    ⟨by decide, by decide, .inl (.head _)⟩
  have same : SameRow (row ⟨0⟩) (row ⟨1⟩) := ⟨nofun, rfl⟩
  have missing : ¬ BothMissing (row ⟨0⟩) (row ⟨1⟩) := fun h => same.1 h.1
  refine ⟨Laboratory.keyed_unread, first, second, fun nullSafe => ⟨fun h => ?_, fun h => ?_⟩⟩
  · have found := decides_equal (M := ⟨⟨[Laboratory.reading]⟩, { nullSafeEquality := nullSafe }⟩)
      (r := { source := ⟨0⟩, node := ⟨0⟩, path := [] }) (s := { source := ⟨1⟩, node := ⟨1⟩, path := [] })
      (show _ = some Laboratory.reading from rfl) rfl first second (by decide) Laboratory.keyed_unread
      (e := .eq (ref 0) (ref 1)) rfl
    cases nullSafe with
    | false =>
      rcases (h.iff found).1 (.inl same) with ⟨-, hself⟩ | hmissing
      · exact Laboratory.not_selfEqual_unread hself
      · exact missing hmissing
    | true => exact Laboratory.not_selfEqual_unread ((h.iff found).1 same).2
  · have found := decides_notEqual (M := ⟨⟨[Laboratory.reading]⟩, { nullSafeEquality := nullSafe }⟩)
      (r := { source := ⟨0⟩, node := ⟨0⟩, path := [] }) (s := { source := ⟨1⟩, node := ⟨1⟩, path := [] })
      (show _ = some Laboratory.reading from rfl) rfl first second (by decide) Laboratory.keyed_unread
      (e := .binary .notEqual (ref 0) (ref 1)) rfl
    exact ((h.iff found).2 ⟨fun h => Laboratory.not_selfEqual_unread h.2, missing⟩).1 same

end EntityQuery
