import EntityQuery.Proofs.Rewriting

/-!
# What equalities become

An equality of rows is one of their keys, an equality of a row with null is one of its key with nulls, and an
equality of collections is one of their owners. `comparedSides` says what becomes of an equality by what the
nodes of its sides are; comparing sides makes just that, or it fails (`Runs.comparedSides_iff`). Where the nodes
are does not matter: collections that are compared are removed from the forest, and that changes nothing of
what any node is.
-/

namespace EntityQuery

open EntityQuery.Expr

variable {M : Model} {p q : Progress} {f g : Forest} {c : Catalog} {n m x y : NodeId} {op : BinaryOp} {a b e : Expr}
  {key : List Property}

section Removing

namespace Forest

/-- Removing a node changes where nodes are, not what they are. -/
theorem same_remove (f : Forest) (n k : NodeId) : (f.node k).Same ((f.remove n).node k) := by
  refine remove_induction n (.refl _) (fun hg => hg.trans (modifyNode_related .refl (fun _ => ?_) _ _ k)) fun hg =>
    hg.trans (modifyNode_related .refl (fun _ => ?_) _ _ k)
  all_goals exact ⟨rfl, rfl, rfl, rfl, rfl, rfl⟩

theorem lineage_same (h : ∀ k, (f.node k).Same (g.node k)) (n : NodeId) : g.lineage n = f.lineage n := by
  obtain ⟨i⟩ := n
  induction i using Nat.strongRecOn with
  | _ i ih =>
    rw [Forest.lineage, Forest.lineage, (h ⟨i⟩).parent]
    cases (f.node ⟨i⟩).parent with
    | none => rfl
    | some q =>
      by_cases older : q.index < i
      · simp only [older, if_true, ih q.index older]
      · simp only [older, if_false]

theorem memberPath_same (h : ∀ k, (f.node k).Same (g.node k)) (n : NodeId) :
    g.memberPath n = f.memberPath n := by
  have steps : (fun m => (g.node m).step?) = fun m => (f.node m).step? := funext fun m => (h m).step?
  rw [memberPath, memberPath, lineage_same h, steps]

/-- The two forests say the same of the node. -/
structure Agree (f g : Forest) (n : NodeId) : Prop where
  node : (f.node n).Same (g.node n)
  ref : g.ref n = f.ref n

theorem agree_of_same (h : ∀ k, (f.node k).Same (g.node k)) (n : NodeId) : f.Agree g n :=
  ⟨h n, by rw [ref, ref, memberPath_same h, (h n).source]⟩

theorem agree_remove (f : Forest) (k n : NodeId) : f.Agree (f.remove k) n := agree_of_same (same_remove f k) n

end Forest

end Removing

section Keys

/-- The read of a key column of a row, converted if it is compared with one that can be null. -/
def keyColumn (f : Forest) (n : NodeId) (widened : Bool) (k : Property) : Expr :=
  if widened then .convert (.member (f.ref n) k.name) k.dataType true else .member (f.ref n) k.name

/-- The equality of the keys of two nodes. -/
def rowEquality (s : Settings) (op : BinaryOp) (f : Forest) (x y : NodeId) (key : List Property) : Expr :=
  let nullable (n : NodeId) (k : Property) : Bool := k.nullable || (f.node n).isOptional
  plainEquality s f op (.key (key.map fun k => keyColumn f x (!nullable x k && nullable y k) k))
    (.key (key.map fun k => keyColumn f y (nullable x k && !nullable y k) k))

/-- The equality of the key of a node with nulls. -/
def nullEquality (op : BinaryOp) (f : Forest) (n : NodeId) (key : List Property) : Expr :=
  .binary op (.key (key.map fun k => keyColumn f n (!k.nullable) k))
    (.key (key.map fun k => .typedNull k.dataType))

/-- The key of the rows of a node, if they are rows of an entity that has one. -/
def keyOf? (c : Catalog) (f : Forest) (n : NodeId) : Option (List Property) :=
  (c.type? ((f.node n).entity.getD "")).bind fun t => t.keyProperties.toOption

theorem keyOf?_eq_some : keyOf? c f n = some key ↔
    ∃ t, c.type? ((f.node n).entity.getD "") = some t ∧ t.keyProperties = .ok key := by
  have ok {t : EntityType} : t.keyProperties.toOption = some key ↔ t.keyProperties = .ok key := by
    cases t.keyProperties <;> simp [Except.toOption]
  simp only [keyOf?, Option.bind_eq_some_iff, ok]

theorem keyOf?_agree (h : f.Agree g n) : keyOf? c g n = keyOf? c f n := by
  rw [keyOf?, keyOf?, h.node.entity]

theorem keyColumn_agree (h : f.Agree g n) (widened : Bool) (k : Property) :
    keyColumn g n widened k = keyColumn f n widened k := by
  rw [keyColumn, keyColumn, h.ref]

/-- What is read of a key of an optional row, is the row. -/
theorem optionalReads_keyColumn (f : Forest) (n : NodeId) (widened : Bool) (k : Property) :
    optionalReads f (keyColumn f n widened k) =
      if (f.node n).isOptional then [⟨(f.node n).source, n, f.memberPath n⟩] else [] := by
  cases widened <;> simp [keyColumn, optionalReads, gather_eq, Forest.ref, children]

theorem optionalReads_key (f : Forest) (parts : List Expr) :
    optionalReads f (.key parts) = parts.flatMap (optionalReads f) := by
  match parts with
  | [] => rfl
  | [part] => exact (List.append_nil _).symm
  | a :: b :: parts =>
    change (Expr.tuple (a :: b :: parts)).gather _ = _
    rw [gather_eq]
    rfl

theorem rowEquality_agree (hx : f.Agree g x) (hy : f.Agree g y) (s : Settings) (op : BinaryOp)
    (key : List Property) : rowEquality s op g x y key = rowEquality s op f x y key := by
  have reads {n : NodeId} (h : f.Agree g n) (widened : Bool) (k : Property) :
      optionalReads g (keyColumn f n widened k) = optionalReads f (keyColumn f n widened k) := by
    have path : g.memberPath n = f.memberPath n := by
      have hr := h.ref
      simp only [Forest.ref, Expr.rowRef.injEq, RowRef.mk.injEq] at hr
      exact hr.2.2
    rw [← keyColumn_agree h, optionalReads_keyColumn, keyColumn_agree h, optionalReads_keyColumn,
      h.node.isOptional, h.node.source, path]
  simp only [rowEquality, plainEquality, guardedEquality, optionalReads_key, List.flatMap_map, keyColumn_agree hx,
    keyColumn_agree hy, reads hx, reads hy, hx.node.isOptional, hy.node.isOptional]

theorem nullEquality_agree (h : f.Agree g n) (op : BinaryOp) (key : List Property) :
    nullEquality op g n key = nullEquality op f n key := by
  simp only [nullEquality, keyColumn_agree h]

end Keys

section Sides

section Definitions

variable (M f op)

/-- What an equality of the rows of two nodes becomes. -/
def comparedRows (x y : NodeId) : Option Expr :=
  if (f.node x).entity ≠ (f.node y).entity then some (settled op false)
  else (keyOf? M.catalog f x).map (rowEquality M.settings op f x y)

/-- What an equality of the row of a node with null becomes. -/
def comparedNull (n : NodeId) : Option Expr := (keyOf? M.catalog f n).map (nullEquality op f n)

/-- What an equality of two collections becomes. -/
def comparedCollections (x y : NodeId) : Option Expr :=
  match (f.node x).parent, (f.node y).parent with
  | some m, some n => if sameNavigation f x y then comparedRows M f op m n else some (settled op false)
  | _, _ => some (settled op false)

/-- What an equality of a collection with null becomes. -/
def comparedCollectionNull (x : NodeId) : Option Expr :=
  match (f.node x).parent with
  | some owner => comparedNull M f op owner
  | none => some (settled op false)

/-- What an equality of two sides becomes, if they can be compared. -/
def comparedSides (a b : Expr) : Option Expr :=
  match Operand.of f a, Operand.of f b with
  | .collection x, .collection y => comparedCollections M f op x y
  | .collection x, .null | .null, .collection x => comparedCollectionNull M f op x
  | .collection _, _ | _, .collection _ => none
  | .entity x, .entity y => comparedRows M f op x y
  | .entity n, .null | .null, .entity n => comparedNull M f op n
  | _, _ => some (plainEquality M.settings f op a b)

/-- The progress after two sides are compared: without the collections among them. -/
def Progress.compared (p : Progress) (a b : Expr) : Progress :=
  match Operand.of p.forest a, Operand.of p.forest b with
  | .collection x, .collection y => { p with forest := (p.forest.remove x).remove y }
  | .collection x, .null | .null, .collection x => { p with forest := p.forest.remove x }
  | _, _ => p

end Definitions

theorem comparedRows_agree (hx : f.Agree g x) (hy : f.Agree g y) :
    comparedRows M g op x y = comparedRows M f op x y := by
  simp only [comparedRows, hx.node.entity, hy.node.entity, keyOf?_agree hx, funext (rowEquality_agree hx hy _ _)]

theorem comparedNull_agree (h : f.Agree g n) : comparedNull M g op n = comparedNull M f op n := by
  simp only [comparedNull, keyOf?_agree h, funext (nullEquality_agree h _)]

theorem Runs.keyReads_iff {reads : List (Expr × Property)} : Runs (keyReads n) M p reads q ↔
    (∃ key, keyOf? M.catalog p.forest n = some key ∧
      reads = key.map fun k => (.member (p.forest.ref n) k.name, k)) ∧ p = q := by
  simp only [keyReads, Runs.bind_iff, Runs.node_iff, Runs.entityType_iff, Runs.ofCatalog_iff, Runs.ref_iff,
    Runs.pure_iff, keyOf?_eq_some]
  constructor
  · rintro ⟨_, _, ⟨rfl, rfl⟩, t, _, ⟨ht, rfl⟩, key, _, ⟨hkey, rfl⟩, _, _, ⟨rfl, rfl⟩, rfl, rfl⟩
    exact ⟨⟨key, ⟨t, ht, hkey⟩, rfl⟩, rfl⟩
  · rintro ⟨⟨key, ⟨t, ht, hkey⟩, rfl⟩, rfl⟩
    exact ⟨_, p, ⟨rfl, rfl⟩, t, p, ⟨ht, rfl⟩, key, p, ⟨hkey, rfl⟩, _, p, ⟨rfl, rfl⟩, rfl, rfl⟩

theorem widenPair_eq (t : ScalarType) (a b : Expr) (m n : Bool) :
    widenPair t a m b n = (if !m && n then .convert a t true else a, if m && !n then .convert b t true else b) := by
  cases m <;> cases n <;> rfl

theorem Runs.compareEntities_iff :
    Runs (compareEntities op x y) M p e q ↔ comparedRows M p.forest op x y = some e ∧ p = q := by
  have made (key : List Property) :
      let reads (n : NodeId) := key.map fun k => (Expr.member (p.forest.ref n) k.name, k)
      let pairs := ((reads x).zip (reads y)).map fun pair =>
        widenPair pair.1.2.dataType pair.1.1 (pair.1.2.nullable || (p.forest.node x).isOptional) pair.2.1
          (pair.2.2.nullable || (p.forest.node y).isOptional)
      plainEquality M.settings p.forest op (.key (pairs.map (·.1))) (.key (pairs.map (·.2))) =
        rowEquality M.settings op p.forest x y key := by
    simp only [List.zip_map', List.map_map, widenPair_eq]
    rfl
  have start : Runs (compareEntities op x y) M p e q ↔
      Runs (if (p.forest.node x).entity ≠ (p.forest.node y).entity then return settled op false else do
        let left ← keyReads x
        let right ← keyReads y
        let pairs := (left.zip right).map fun pair =>
          widenPair pair.1.2.dataType pair.1.1 (pair.1.2.nullable || (p.forest.node x).isOptional) pair.2.1
            (pair.2.2.nullable || (p.forest.node y).isOptional)
        equality op (.key (pairs.map (·.1))) (.key (pairs.map (·.2)))) M p e q := Iff.rfl
  rw [start, comparedRows]
  split
  · rw [Runs.pure_iff, Option.some_inj, eq_comm]
  · next same =>
    have keys : keyOf? M.catalog p.forest y = keyOf? M.catalog p.forest x := by
      rw [keyOf?, keyOf?, not_not.1 same]
    simp only [Runs.bind_iff, Runs.keyReads_iff, Runs.equality_iff, Option.map_eq_some_iff]
    constructor
    · rintro ⟨_, _, ⟨⟨key, hkey, rfl⟩, rfl⟩, _, _, ⟨⟨key', hkey', rfl⟩, rfl⟩, rfl, rfl⟩
      obtain rfl : key' = key := Option.some.inj (hkey'.symm.trans (keys.trans hkey))
      exact ⟨⟨key', hkey, (made key').symm⟩, rfl⟩
    · rintro ⟨⟨key, hkey, rfl⟩, rfl⟩
      exact ⟨_, p, ⟨⟨key, hkey, rfl⟩, rfl⟩, _, p, ⟨⟨key, keys.trans hkey, rfl⟩, rfl⟩, (made key).symm, rfl⟩

theorem Runs.compareWithNull_iff :
    Runs (compareWithNull op n) M p e q ↔ comparedNull M p.forest op n = some e ∧ p = q := by
  have made (key : List Property) : Expr.binary op
      (.key ((key.map fun k => (Expr.member (p.forest.ref n) k.name, k)).map fun read =>
        if read.2.nullable then read.1 else .convert read.1 read.2.dataType true))
      (.key ((key.map fun k => (Expr.member (p.forest.ref n) k.name, k)).map fun read =>
        Expr.typedNull read.2.dataType)) = nullEquality op p.forest n key := by
    simp only [nullEquality, List.map_map]
    congr 3
    funext k
    simp only [keyColumn, Function.comp]
    cases k.nullable <;> rfl
  simp only [compareWithNull, comparedNull, Runs.bind_iff, Runs.keyReads_iff, Runs.pure_iff, Option.map_eq_some_iff]
  constructor
  · rintro ⟨_, _, ⟨⟨key, hkey, rfl⟩, rfl⟩, rfl, rfl⟩
    exact ⟨⟨key, hkey, (made key).symm⟩, rfl⟩
  · rintro ⟨⟨key, hkey, rfl⟩, rfl⟩
    exact ⟨_, p, ⟨⟨key, hkey, rfl⟩, rfl⟩, (made key).symm, rfl⟩

theorem Runs.compareCollections_iff : Runs (compareCollections op x y) M p e q ↔
    comparedCollections M p.forest op x y = some e ∧
      { p with forest := (p.forest.remove x).remove y } = q := by
  have agree (n : NodeId) : p.forest.Agree ((p.forest.remove x).remove y) n :=
    Forest.agree_of_same (fun k => (Forest.same_remove p.forest x k).trans (Forest.same_remove _ y k)) n
  have start : Runs (compareCollections op x y) M p e q ↔
      Runs (match (p.forest.node x).parent, (p.forest.node y).parent with
        | some m, some n => if sameNavigation p.forest x y then compareEntities op m n else return settled op false
        | _, _ => return settled op false) M { p with forest := (p.forest.remove x).remove y } e q := Iff.rfl
  rw [start, comparedCollections]
  split
  · split
    · rw [Runs.compareEntities_iff, comparedRows_agree (agree _) (agree _)]
    · rw [Runs.pure_iff, Option.some_inj, eq_comm]
  · rw [Runs.pure_iff, Option.some_inj, eq_comm]

theorem Runs.compareCollectionWithNull_iff : Runs (compareCollectionWithNull op x) M p e q ↔
    comparedCollectionNull M p.forest op x = some e ∧ { p with forest := p.forest.remove x } = q := by
  have start : Runs (compareCollectionWithNull op x) M p e q ↔
      Runs (match (p.forest.node x).parent with
        | some owner => compareWithNull op owner
        | none => return settled op false) M { p with forest := p.forest.remove x } e q := Iff.rfl
  rw [start, comparedCollectionNull]
  split
  · rw [Runs.compareWithNull_iff, comparedNull_agree (Forest.agree_remove p.forest x _)]
  · rw [Runs.pure_iff, Option.some_inj, eq_comm]

/-- Comparing two sides makes what becomes of their equality, and removes the collections among them. -/
theorem Runs.comparedSides_iff : Runs (compareSides op a b) M p e q ↔
    comparedSides M p.forest op a b = some e ∧ p.compared a b = q := by
  have start : Runs (compareSides op a b) M p e q ↔
      Runs (match Operand.of p.forest a, Operand.of p.forest b with
        | .collection a, .collection b => compareCollections op a b
        | .collection c, .null | .null, .collection c => compareCollectionWithNull op c
        | .collection _, _ | _, .collection _ => throw (.collectionComparison op a b)
        | .entity a, .entity b => compareEntities op a b
        | .entity e, .null | .null, .entity e => compareWithNull op e
        | _, _ => equality op a b) M p e q := Iff.rfl
  have plain : Runs (equality op a b) M p e q ↔ some (plainEquality M.settings p.forest op a b) = some e ∧ p = q := by
    rw [Runs.equality_iff, Option.some_inj, eq_comm]
  have fails {P : Prop} : Runs (throw (.collectionComparison op a b)) M p e q ↔ none = some e ∧ P := by
    simp
  rw [start, comparedSides, Progress.compared]
  cases Operand.of p.forest a <;> cases Operand.of p.forest b <;> dsimp only <;>
    with_reducible first
      | exact plain
      | exact fails
      | exact Runs.compareEntities_iff
      | exact Runs.compareWithNull_iff
      | exact Runs.compareCollections_iff
      | exact Runs.compareCollectionWithNull_iff

/-- The same equality with other sides. -/
theorem Expr.SameHead.of_sides? {R : Expr → Expr → Prop} {a' b' : Expr} (hs : e.sides? = some (op, a, b))
    (ha : R a a') (hb : R b b') : ∃ d, SameHead R e d ∧ d.sides? = some (op, a', b') := by
  unfold Expr.sides? at hs
  split at hs
  · next op' _ _ =>
    split at hs
    · next hequality =>
      cases hs
      exact ⟨.binary op a' b', .binary op ha hb, by rw [sides?_binary, if_pos hequality]⟩
    · cases hs
  · cases hs
    exact ⟨.function "Equals" [a', b'], .function _ (.cons ha (.cons hb .nil)), rfl⟩
  · cases hs

/-- An equality is compared once its sides are. -/
theorem Runs.compareByKeys_sides {a' b' d : Expr} (hs : e.sides? = some (op, a, b))
    (ha : Runs (compareByKeys a) M p a' p) (hb : Runs (compareByKeys b) M p b' p)
    (h : Runs (compareSides op a' b') M p d q) : Runs (compareByKeys e) M p d q := by
  obtain ⟨e', head, hs'⟩ := SameHead.of_sides? (R := fun c c' => Runs (compareByKeys c) M p c' p) hs ha hb
  rw [compareByKeys_eq, Runs.bind_iff]
  refine ⟨e', p, Runs.mapChildren_fixed head, ?_⟩
  rwa [compareNode, hs']

end Sides

end EntityQuery
