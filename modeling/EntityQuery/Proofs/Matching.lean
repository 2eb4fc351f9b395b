import EntityQuery.Expansion.RowJoin
import EntityQuery.Proofs.Collections
import EntityQuery.Proofs.Equality
import EntityQuery.Proofs.Run
import EntityQuery.Proofs.View

/-!
# Joins as nested loops

What the two kinds of joins evaluate to, once their sources and keys have values: every outer row is
paired with the rows that it matches, in order, and in a left outer join with null if there are none.
-/

namespace EntityQuery

open EntityQuery.Expr

/-- A pair record. -/
def pairValue (outer inner : Value) : Value := .record [(outerField, outer), (innerField, inner)]

/-- A key of one column is a scalar, any other a tuple. -/
def keyValue : List Value → Value
  | [v] => v
  | vs => .tuple vs

/-- The rows that a list of matches is joined as in a left outer join. -/
def orNull : List Value → List Value
  | [] => [.null]
  | rows => rows

namespace JoinKind

/-- The partners of a row that has these matches. -/
def partners : JoinKind → List Value → List Value
  | .inner, targets => targets
  | .leftOuter, targets => orNull targets

/-- The row that a join makes of a row with these matches and one of its partners. -/
def extend : JoinKind → List Value → Value → Value → Value
  | .inner, _, w, t => pairValue w t
  | .leftOuter, targets, w, t => pairValue (pairValue w (.list targets)) t

/-- What a join makes of a row and its matches. -/
def joined (kind : JoinKind) (w : Value) (targets : List Value) : List Value :=
  (kind.partners targets).map (kind.extend targets w)

/-- The names that a join generates after the `k`-th name. -/
def names : JoinKind → Nat → List String
  | .inner, _ => []
  | .leftOuter, k => [generatedName 'g' (k + 1), generatedName 't' (k + 2)]

variable {kind : JoinKind} {w x t : Value} {targets : List Value} {k : Nat}

/-- The old row is found behind the path that the join puts in front. -/
theorem at_extend (kind : JoinKind) (targets : List Value) (w t : Value) (path : List String) :
    (kind.extend targets w t).at (kind.wrapPath ++ path) = w.at path := by
  cases kind <;> rfl

/-- Beside the old row there is the partner. -/
theorem inner_extend (kind : JoinKind) (targets : List Value) (w t : Value) (path : List String) :
    (kind.extend targets w t).at (innerField :: path) = t.at path := by
  cases kind <;> rfl

theorem mem_partners (h : t ∈ kind.partners targets) : t = .null ∨ t ∈ targets := by
  cases kind with
  | inner => exact .inr h
  | leftOuter =>
    cases targets with
    | nil => exact .inl (List.mem_singleton.1 h)
    | cons _ _ => exact .inr h

theorem at_joined (h : x ∈ kind.joined w targets) (path : List String) :
    x.at (kind.wrapPath ++ path) = w.at path := by
  obtain ⟨t, -, rfl⟩ := List.mem_map.1 h
  exact at_extend kind targets w t path

/-- Old names are not generated. -/
theorem not_mem_names {x : String} (h : OldName k x) : x ∉ kind.names k := by
  cases kind with
  | inner => exact List.not_mem_nil
  | leftOuter =>
    simp only [names, List.mem_cons, List.not_mem_nil, or_false, not_or]
    exact ⟨h 'g' (k + 1) (Nat.lt_succ_self k), h 't' (k + 2) (by omega)⟩

/-- With one match, or with none in a left outer join, there is one row. -/
theorem joined_single (hle : targets.length ≤ 1) (hone : kind = .inner → targets.length = 1)
    (w : Value) : ∃ x, kind.joined w targets = [x] ∧
      x.at [innerField] = .ok (targets.head?.getD .null) := by
  match targets, kind with
  | [t], .inner => exact ⟨_, rfl, rfl⟩
  | [t], .leftOuter => exact ⟨_, rfl, rfl⟩
  | [], .leftOuter => exact ⟨_, rfl, rfl⟩
  | [], .inner => cases hone rfl
  | _ :: _ :: _, _ => simp at hle

end JoinKind

namespace Value

theorem hasNull_scalar {v : Value} (h : v.isScalar = true) : v.hasNull = v.isNull := by
  cases v <;> first | rfl | cases h

theorem anyNull_eq (vs : List Value) : anyNull vs = vs.any hasNull := by
  induction vs with
  | nil => rfl
  | cons v vs ih => rw [anyNull, List.any_cons, ih]

theorem equalItems_zip {xs ys : List Value} (h : xs.length = ys.length) :
    equalItems xs ys = (xs.zip ys).all fun (x, y) => x.equals y := by
  induction xs generalizing ys with
  | nil =>
    cases ys with
    | nil => rfl
    | cons y ys => cases h
  | cons x xs ih =>
    cases ys with
    | nil => cases h
    | cons y ys => rw [equalItems, List.zip_cons_cons, List.all_cons, ih (Nat.succ.inj h)]

end Value

/-- A key matches nothing if one of its columns is null, or a tuple with a null in it. -/
theorem hasNull_keyValue (vs : List Value) : (keyValue vs).hasNull = vs.any Value.hasNull := by
  match vs with
  | [] => rfl
  | [v] => simp [keyValue]
  | v :: w :: vs => exact Value.anyNull_eq _

theorem equals_keyValue {xs ys : List Value} (h : xs.length = ys.length) :
    (keyValue xs).equals (keyValue ys) = (xs.zip ys).all fun (x, y) => x.equals y := by
  match xs, ys, h with
  | [], [], _ => rfl
  | [x], [y], _ => simp [keyValue]
  | x :: x' :: xs, y :: y' :: ys, h => exact Value.equalItems_zip h

namespace NavigationEdge

variable {edge : NavigationEdge}

/-- The key of the target row matches that of the owner: no column of the owner's is null, or has a null
in it, and all are equal. -/
def keysMatch (edge : NavigationEdge) (owner target : Value) : Bool :=
  !(edge.sourceKey.any fun s => (owner.column s).hasNull) &&
    (edge.sourceKey.zip edge.targetKey).all fun (s, t) => (owner.column s).equals (target.column t)

/-- The rows with an equal key are those that the edge leads to by its keys. -/
theorem matchingRows_keysMatch (hlen : edge.sourceKey.length = edge.targetKey.length) (owner : Value)
    (targets : List Value) :
    matchingRows (keyValue (edge.sourceKey.map owner.column))
      (targets.map fun t => (keyValue (edge.targetKey.map t.column), t)) =
      targets.filter (edge.keysMatch owner) := by
  have equal (t : Value) : (keyValue (edge.sourceKey.map owner.column)).equals
      (keyValue (edge.targetKey.map t.column)) =
        (edge.sourceKey.zip edge.targetKey).all fun (s, u) => (owner.column s).equals (t.column u) := by
    rw [equals_keyValue (by simpa using hlen), List.zip_map, List.all_map]
    rfl
  rw [matchingRows, hasNull_keyValue, List.any_map]
  cases hnull : edge.sourceKey.any (Value.hasNull ∘ owner.column) with
  | true =>
    rw [if_pos rfl]
    refine (List.filter_eq_nil_iff.2 fun t _ hmatch => ?_).symm
    rw [keysMatch] at hmatch
    change (!edge.sourceKey.any (Value.hasNull ∘ owner.column) && _) = true at hmatch
    rw [hnull] at hmatch
    cases hmatch
  | false =>
    rw [if_neg Bool.false_ne_true, List.filter_map, List.map_map]
    refine (List.map_id' _).trans (List.filter_congr fun t _ => (equal t).trans ?_)
    rw [keysMatch]
    change _ = (!edge.sourceKey.any (Value.hasNull ∘ owner.column) && _)
    rw [hnull, Bool.not_false, Bool.true_and]

/-- Of owners with scalars in their keys, the keys match if the edge relates the rows. -/
theorem keysMatch_eq_relates (hlen : edge.sourceKey.length = edge.targetKey.length) {owner : Value}
    (ho : ∀ s ∈ edge.sourceKey, (owner.column s).isScalar = true) (t : Value) :
    edge.keysMatch owner t = edge.relates owner t := by
  have scalar {s : String} (hs : s ∈ edge.sourceKey) := Value.hasNull_scalar (ho s hs)
  rw [Bool.eq_iff_iff]
  simp only [keysMatch, relates, Bool.and_eq_true, Bool.not_eq_true', List.any_eq_false, List.all_eq_true,
    Bool.not_eq_true]
  constructor
  · rintro ⟨present, equal⟩ x hx
    have hs := (List.of_mem_zip hx).1
    have hpresent := (scalar hs).symm.trans (present x.1 hs)
    have both := Value.present_equals (owner.column x.1) (t.column x.2)
    rw [hpresent, equal x hx] at both
    simp only [Bool.not_false, Bool.true_and, Bool.and_true] at both
    exact ⟨⟨hpresent, by simpa using both.symm⟩, equal x hx⟩
  · refine fun h => ⟨fun s hs => ?_, fun x hx => (h x hx).2⟩
    rw [scalar hs]
    rw [← List.map_fst_zip (Nat.le_of_eq hlen)] at hs
    obtain ⟨x, hx, rfl⟩ := List.mem_map.1 hs
    exact (h x hx).1.1

/-- The rows with an equal key are those that the edge relates to the owner. -/
theorem matchingRows_eq (hlen : edge.sourceKey.length = edge.targetKey.length) {owner : Value}
    (ho : ∀ s ∈ edge.sourceKey, (owner.column s).isScalar = true) (targets : List Value) :
    matchingRows (keyValue (edge.sourceKey.map owner.column))
      (targets.map fun t => (keyValue (edge.targetKey.map t.column), t)) =
      targets.filter (edge.relates owner) :=
  (matchingRows_keysMatch hlen owner targets).trans
    (List.filter_congr fun t _ => keysMatch_eq_relates hlen ho t)

end NavigationEdge

section Rows

variable {α : Type}

theorem mapM_ok {f : α → Outcome Value} {g : α → Value} {l : List α} (h : ∀ a ∈ l, f a = .ok (g a)) :
    l.mapM f = .ok (l.map g) := by
  induction l with
  | nil => rfl
  | cons a l ih =>
    rw [List.mapM_cons, h a (.head _), ih fun b hb => h b (.tail _ hb)]
    rfl

/-- Rows that belong to elements of a list are mapped one by one. -/
theorem mapRows_map {selector : Argument} {row g : α → Value} {l : List α}
    (h : ∀ a ∈ l, selector.apply [row a] = .ok (g a)) : mapRows selector (l.map row) = .ok (l.map g) := by
  rw [mapRows_eq_mapM, List.mapM_map]
  exact mapM_ok h

theorem keyRows_map {key : Argument} {row k : α → Value} {l : List α}
    (h : ∀ a ∈ l, key.apply [row a] = .ok (k a)) :
    keyRows key (l.map row) = .ok (l.map fun a => (k a, row a)) := by
  rw [keyRows, mapRows_map h]
  exact congrArg Except.ok (List.zip_map' ..)

theorem keyRows_ok {key : Argument} {k : Value → Value} {rows : List Value}
    (h : ∀ w ∈ rows, key.apply [w] = .ok (k w)) :
    keyRows key rows = .ok (rows.map fun w => (k w, w)) := by
  have := @keyRows_map Value key id k rows h
  rwa [List.map_id] at this

/-- A join pairs every row with its matches. -/
theorem joinRows_ok {outerKey result : Argument} {k : Value → Value} {pair : Value → Value → Value}
    (inner : List (Value × Value)) {rows : List Value}
    (hk : ∀ w ∈ rows, outerKey.apply [w] = .ok (k w))
    (hr : ∀ w t, result.apply [w, t] = .ok (pair w t)) :
    joinRows outerKey result inner rows =
      .ok (rows.flatMap fun w => (matchingRows (k w) inner).map (pair w)) := by
  induction rows with
  | nil => rfl
  | cons w rows ih =>
    rw [joinRows, hk w (.head _), ih fun x hx => hk x (.tail _ hx)]
    change (do
      let paired ← (matchingRows (k w) inner).mapM fun m => result.apply [w, m]
      return paired ++ rows.flatMap fun w => (matchingRows (k w) inner).map (pair w)) = _
    rw [mapM_ok fun t _ => hr w t]
    rfl

theorem groupRows_ok {outerKey result : Argument} {k : Value → Value} {pair : Value → Value → Value}
    (inner : List (Value × Value)) {rows : List Value}
    (hk : ∀ w ∈ rows, outerKey.apply [w] = .ok (k w))
    (hr : ∀ w t, result.apply [w, t] = .ok (pair w t)) :
    groupRows outerKey result inner rows =
      .ok (rows.map fun w => pair w (.list (matchingRows (k w) inner))) := by
  induction rows with
  | nil => rfl
  | cons w rows ih =>
    rw [groupRows, hk w (.head _), ih fun x hx => hk x (.tail _ hx)]
    change (do
      let grouped ← result.apply [w, .list (matchingRows (k w) inner)]
      return grouped :: rows.map fun w => pair w (.list (matchingRows (k w) inner))) = _
    rw [hr]
    rfl

theorem flattenRows_ok {selector result : Argument} {row : α → Value} {elements : α → List Value}
    {pair : Value → Value → Value} {l : List α}
    (hs : ∀ a ∈ l, selector.apply [row a] = .ok (.list (elements a)))
    (hr : ∀ w t, result.apply [w, t] = .ok (pair w t)) :
    flattenRows selector (some result) (l.map row) =
      .ok (l.flatMap fun a => (elements a).map (pair (row a))) := by
  induction l with
  | nil => rfl
  | cons a l ih =>
    rw [List.map_cons, flattenRows, hs a (.head _), ih fun b hb => hs b (.tail _ hb)]
    change (do
      let combined ← (elements a).mapM fun element => result.apply [row a, element]
      return combined ++ l.flatMap fun a => (elements a).map (pair (row a))) = _
    rw [mapM_ok fun t _ => hr (row a) t]
    rfl

end Rows

section Joins

theorem Argument.rows_of_value {a : Argument} {rows : List Value} (h : a.value () = .ok (.list rows)) :
    a.rows = .ok rows := by
  rw [Argument.rows, h]
  rfl

/-- What an evaluation makes of an expression as an argument of a call. It takes calls apart, and it
understands the lambdas that all joins have in common. -/
structure Reading (read : Expr → Argument) : Prop where
  call : ∀ operator arguments note,
    (read (.call operator arguments note)).value () = evalOperator operator (arguments.map read)
  pairing : ∀ {x y : String}, x ≠ y → ∀ w t, (read (pairing x y)).apply [w, t] = .ok (pairValue w t)
  group : ∀ (row : String) (w : Value) (items : List Value),
    (read (.lambda [row] (.call .defaultIfEmpty [.member (.param row) innerField] none))).apply
      [pairValue w (.list items)] = .ok (.list (orNull items))

variable {read : Expr → Argument} {outer inner : Expr} {outerKey innerKey : JoinKey}
  {rows targets : List Value} {k l : Value → Value}

/-- An inner join as nested loops. -/
theorem Reading.innerJoin (hread : Reading read) (note : JoinNote)
    (hne : outerKey.parameter ≠ innerKey.parameter) (ho : (read outer).rows = .ok rows)
    (hi : (read inner).rows = .ok targets)
    (hk : ∀ w ∈ rows, (read outerKey.toExpr).apply [w] = .ok (k w))
    (hl : ∀ t ∈ targets, (read innerKey.toExpr).apply [t] = .ok (l t)) :
    (read (innerJoin outer inner outerKey innerKey note)).value () =
      .ok (.list (rows.flatMap fun w =>
        (matchingRows (k w) (targets.map fun t => (l t, t))).map (pairValue w))) := by
  rw [EntityQuery.innerJoin, hread.call]
  simp only [List.map_cons, evalOperator, ho, hi]
  change (do
    let inner ← keyRows _ targets
    return Value.list (← joinRows _ _ inner rows)) = _
  rw [keyRows_ok hl]
  change (do return Value.list (← joinRows _ _ (targets.map fun t => (l t, t)) rows)) = _
  rw [joinRows_ok _ hk fun w t => hread.pairing hne w t]
  rfl

/-- A left outer join with the names of its group and of a row with its group. -/
def flattenedJoin (outer inner : Expr) (outerKey innerKey : JoinKey) (note : JoinNote)
    (group row : String) : Expr :=
  .call .selectMany
    [.call .groupJoin
        [outer, inner, outerKey.toExpr, innerKey.toExpr, pairing outerKey.parameter group]
        (some (.join note)),
      .lambda [row] (.call .defaultIfEmpty [.member (.param row) innerField] none),
      pairing row innerKey.parameter]
    (some .leftJoinFlatten)

theorem Runs.leftOuterJoin {M : Model} {p p' : Progress} {note : JoinNote} {e : Expr}
    (h : Runs (leftOuterJoin outer inner outerKey innerKey note) M p e p') :
    e = flattenedJoin outer inner outerKey innerKey note (generatedName 'g' (p.names + 1))
        (generatedName 't' (p.names + 2)) ∧
      p' = { p with names := p.names + 2 } := by
  simp only [EntityQuery.leftOuterJoin, Runs.bind_iff, Runs.freshName_iff, Runs.pure_iff] at h
  obtain ⟨_, _, ⟨rfl, rfl⟩, _, _, ⟨rfl, rfl⟩, rfl, rfl⟩ := h
  exact ⟨rfl, rfl⟩

/-- A left outer join as nested loops. The outer row is wrapped twice. -/
theorem Reading.flattenedJoin (hread : Reading read) (note : JoinNote) {group row : String}
    (hg : outerKey.parameter ≠ group) (hr : row ≠ innerKey.parameter)
    (ho : (read outer).rows = .ok rows) (hi : (read inner).rows = .ok targets)
    (hk : ∀ w ∈ rows, (read outerKey.toExpr).apply [w] = .ok (k w))
    (hl : ∀ t ∈ targets, (read innerKey.toExpr).apply [t] = .ok (l t)) :
    (read (flattenedJoin outer inner outerKey innerKey note group row)).value () =
      .ok (.list (rows.flatMap fun w =>
        (orNull (matchingRows (k w) (targets.map fun t => (l t, t)))).map (pairValue
          (pairValue w (.list (matchingRows (k w) (targets.map fun t => (l t, t)))))))) := by
  have grouped : (read (.call .groupJoin
      [outer, inner, outerKey.toExpr, innerKey.toExpr, EntityQuery.pairing outerKey.parameter group]
      (some (.join note)))).rows = .ok (rows.map fun w =>
        pairValue w (.list (matchingRows (k w) (targets.map fun t => (l t, t))))) := by
    refine Argument.rows_of_value ?_
    rw [hread.call]
    simp only [List.map_cons, evalOperator, ho, hi]
    change (do
      let inner ← keyRows _ targets
      return Value.list (← groupRows _ _ inner rows)) = _
    rw [keyRows_ok hl]
    change (do return Value.list (← groupRows _ _ (targets.map fun t => (l t, t)) rows)) = _
    rw [groupRows_ok _ hk fun w t => hread.pairing hg w t]
    rfl
  rw [EntityQuery.flattenedJoin, hread.call]
  simp only [List.map_cons, evalOperator, grouped]
  change (do return Value.list (← flattenRows _ (some _) _)) = _
  rw [flattenRows_ok (fun w _ => hread.group row w _) fun w t => hread.pairing hr w t]
  rfl

/-- A join with the rows that a selector has for each outer row. -/
theorem Reading.correlatedJoin (hread : Reading read) (selector : Expr) {x y : String} (hne : x ≠ y)
    {elements : Value → List Value} (ho : (read outer).rows = .ok rows)
    (hs : ∀ w ∈ rows, (read selector).apply [w] = .ok (.list (elements w))) :
    (read (.call .selectMany [outer, selector, EntityQuery.pairing x y] none)).value () =
      .ok (.list (rows.flatMap fun w => (elements w).map (pairValue w))) := by
  have flattened := @flattenRows_ok Value (read selector) (read (EntityQuery.pairing x y)) id elements
    pairValue rows hs fun w t => hread.pairing hne w t
  rw [List.map_id] at flattened
  rw [hread.call]
  simp only [List.map_cons, evalOperator, ho]
  change (do return Value.list (← flattenRows _ (some _) rows)) = _
  rw [flattened]
  rfl

/-- A join generates the names of its kind, and leaves the rest of the progress alone. -/
theorem Runs.keyedJoin_progress {M : Model} {p p' : Progress} {note : JoinNote} {e : Expr}
    (h : Runs (keyedJoin outer inner outerKey innerKey note) M p e p') :
    p' = { p with names := p.names + (note.kind.names p.names).length } := by
  rw [keyedJoin] at h
  split at h
  · next hkind =>
    obtain ⟨-, rfl⟩ := Runs.pure_iff.1 h
    rw [hkind]
    rfl
  · next hkind =>
    obtain ⟨-, rfl⟩ := Runs.leftOuterJoin h
    rw [hkind]
    rfl

/-- A join evaluates to what its kind makes of every outer row and the rows with an equal key. -/
theorem Runs.keyedJoin_value {M : Model} {p p' : Progress} {note : JoinNote} {e : Expr}
    (hread : Reading read) (h : Runs (keyedJoin outer inner outerKey innerKey note) M p e p')
    (hne : outerKey.parameter ≠ innerKey.parameter)
    (hout : outerKey.parameter ∉ note.kind.names p.names)
    (hinn : innerKey.parameter ∉ note.kind.names p.names)
    (ho : (read outer).rows = .ok rows) (hi : (read inner).rows = .ok targets)
    (hk : ∀ w ∈ rows, (read outerKey.toExpr).apply [w] = .ok (k w))
    (hl : ∀ t ∈ targets, (read innerKey.toExpr).apply [t] = .ok (l t)) :
    (read e).value () = .ok (.list (rows.flatMap fun w =>
      note.kind.joined w (matchingRows (k w) (targets.map fun t => (l t, t))))) := by
  rw [keyedJoin] at h
  split at h
  · next hkind =>
    obtain ⟨rfl, -⟩ := Runs.pure_iff.1 h
    rw [hread.innerJoin note hne ho hi hk hl, hkind]
    rfl
  · next hkind =>
    obtain ⟨rfl, -⟩ := Runs.leftOuterJoin h
    simp only [hkind, JoinKind.names, List.mem_cons, List.not_mem_nil, or_false, not_or] at hout hinn
    rw [hread.flattenedJoin note hout.1 (Ne.symm hinn.2) ho hi hk hl, hkind]
    rfl

end Joins

section Evaluation

variable {tables : Tables} {v : RowView} {scope : Scope}

/-- The arguments of a call, each by itself. -/
theorem evalArgumentsIn_map (es : List Expr) : evalArgumentsIn tables v scope es =
    es.map fun e => ⟨fun _ => e.evalIn tables v scope, e.applyIn tables v scope⟩ := by
  induction es with
  | nil => rfl
  | cons e es ih => rw [evalArgumentsIn, ih, List.map_cons]

theorem reading_evalIn (tables : Tables) (v : RowView) (scope : Scope) :
    Reading fun e => ⟨fun _ => e.evalIn tables v scope, e.applyIn tables v scope⟩ where
  call operator arguments note := by
    change (Expr.call operator arguments note).evalIn tables v scope = _
    rw [evalIn, evalArgumentsIn_map]
  pairing {x y} h w t := by
    change (Expr.pairRecord (.param x) (.param y)).evalIn tables v (scope.bind [x, y] [w, t]) = _
    have hx : (scope.bind [x, y] [w, t]).lookup x = some w := by
      change List.lookup x ((y, t) :: (x, w) :: scope) = some w
      simp only [List.lookup_cons, beq_false_of_ne h, beq_self_eq_true]
    have hy : (scope.bind [x, y] [w, t]).lookup y = some t := List.lookup_cons_self
    simp only [Expr.pairRecord, evalIn, evalFieldsIn, hx, hy]
    rfl
  group row w items := by
    change (Expr.call .defaultIfEmpty [.member (.param row) innerField] none).evalIn tables v
      ((row, pairValue w (.list items)) :: scope) = _
    have hread : (Expr.member (.param row) innerField).evalIn tables v
        ((row, pairValue w (.list items)) :: scope) = .ok (.list items) := by
      simp only [evalIn, List.lookup_cons_self]
      rfl
    rw [evalIn]
    simp only [evalArgumentsIn, evalOperator, Argument.rows, hread]
    cases items <;> rfl

variable {outer inner : Expr} {outerKey innerKey : JoinKey} {rows targets : List Value}
  {k l : Value → Value}

/-- A join evaluates to what its kind makes of every outer row and the rows with an equal key. -/
theorem Runs.evalIn_keyedJoin {M : Model} {p p' : Progress} {note : JoinNote} {e : Expr}
    (h : Runs (keyedJoin outer inner outerKey innerKey note) M p e p')
    (hout : OldName p.names outerKey.parameter) (hinn : OldName p.names innerKey.parameter)
    (hne : outerKey.parameter ≠ innerKey.parameter)
    (ho : outer.evalIn tables v scope = .ok (.list rows))
    (hi : inner.evalIn tables v scope = .ok (.list targets))
    (hk : ∀ w ∈ rows,
      outerKey.value.evalIn tables v (scope.bind [outerKey.parameter] [w]) = .ok (k w))
    (hl : ∀ t ∈ targets,
      innerKey.value.evalIn tables v (scope.bind [innerKey.parameter] [t]) = .ok (l t)) :
    e.evalIn tables v scope = .ok (.list (rows.flatMap fun w =>
      note.kind.joined w (matchingRows (k w) (targets.map fun t => (l t, t))))) := by
  refine Runs.keyedJoin_value (reading_evalIn tables v scope) h hne (JoinKind.not_mem_names hout)
    (JoinKind.not_mem_names hinn) ?_ ?_ hk hl
  · exact Argument.rows_of_value ho
  · exact Argument.rows_of_value hi

theorem evalArguments_map (es : List Expr) : evalArguments tables scope es =
    es.map fun e => ⟨fun _ => e.eval tables scope, e.apply tables scope⟩ := by
  induction es with
  | nil => rfl
  | cons e es ih => rw [evalArguments, ih, List.map_cons]

/-- The view in which no row is open. -/
def RowView.shut : RowView where
  path _ := none
  row r := .error (.notEvaluable (.rowRef r))

/-- Evaluation reads joins as it does in a view. -/
theorem reading_eval (tables : Tables) (scope : Scope) :
    Reading fun e => ⟨fun _ => e.eval tables scope, e.apply tables scope⟩ where
  call operator arguments note := by
    change (Expr.call operator arguments note).eval tables scope = _
    rw [eval, evalArguments_map]
  pairing {x y} h w t := by
    have paired := (reading_evalIn tables .shut scope).pairing h w t
    rwa [(evalIn_eq_eval (e := pairing x y) rfl rfl).2] at paired
  group row w items := by
    have flattened := (reading_evalIn tables .shut scope).group row w items
    dsimp only at flattened
    rwa [(evalIn_eq_eval rfl rfl).2] at flattened

/-- A join of streams in which no row is open. -/
theorem Runs.eval_keyedJoin {M : Model} {p p' : Progress} {note : JoinNote} {e : Expr}
    (h : Runs (keyedJoin outer inner outerKey innerKey note) M p e p')
    (hne : outerKey.parameter ≠ innerKey.parameter)
    (hout : outerKey.parameter ∉ note.kind.names p.names)
    (hinn : innerKey.parameter ∉ note.kind.names p.names)
    (ho : outer.eval tables scope = .ok (.list rows)) (hi : inner.eval tables scope = .ok (.list targets))
    (hk : ∀ w ∈ rows, outerKey.value.eval tables (scope.bind [outerKey.parameter] [w]) = .ok (k w))
    (hl : ∀ t ∈ targets, innerKey.value.eval tables (scope.bind [innerKey.parameter] [t]) = .ok (l t)) :
    e.eval tables scope = .ok (.list (rows.flatMap fun w =>
      note.kind.joined w (matchingRows (k w) (targets.map fun t => (l t, t))))) :=
  Runs.keyedJoin_value (reading_eval tables scope) h hne hout hinn (Argument.rows_of_value ho)
    (Argument.rows_of_value hi) hk hl

theorem evalItemsIn_ok {α : Type} {part : α → Expr} {g : α → Value} {l : List α}
    (h : ∀ a ∈ l, (part a).evalIn tables v scope = .ok (g a)) :
    evalItemsIn tables v scope (l.map part) = .ok (l.map g) := by
  induction l with
  | nil => rfl
  | cons a l ih =>
    rw [List.map_cons, evalItemsIn, h a (.head _), ih fun b hb => h b (.tail _ hb)]
    rfl

/-- The value of a key. -/
theorem evalIn_key {α : Type} {part : α → Expr} {g : α → Value} {l : List α}
    (h : ∀ a ∈ l, (part a).evalIn tables v scope = .ok (g a)) :
    (Expr.key (l.map part)).evalIn tables v scope = .ok (keyValue (l.map g)) := by
  match l with
  | [] => rfl
  | [a] => exact h a (.head _)
  | a :: b :: l =>
    change (Expr.tuple ((a :: b :: l).map part)).evalIn tables v scope = _
    rw [evalIn, evalItemsIn_ok h]
    rfl

/-- The owner's side of a column is null if the owner is missing. -/
theorem evalIn_ownerColumn {owner : Expr} {u : Value} {optional : Bool} {target : String}
    {o t : Property} (hu : owner.evalIn tables v scope = .ok u)
    (hm : evalMember o.name u = .ok (u.column o.name)) :
    (navigationColumn owner optional target o t).1.evalIn tables v scope = .ok (u.column o.name) := by
  have read : (Expr.member owner o.name).evalIn tables v scope = .ok (u.column o.name) := by
    rw [evalIn, hu]
    exact hm
  have widened (b : Bool) : (if b then Expr.convert (.member owner o.name) o.dataType true
      else .member owner o.name).evalIn tables v scope = .ok (u.column o.name) := by
    cases b
    · exact read
    · exact read
  cases optional with
  | false => exact widened _
  | true =>
    change (Expr.cond (.eq owner .null) (.typedNull o.dataType) _).evalIn tables v scope = _
    simp only [Expr.eq, Expr.null, evalIn, hu]
    change (if (Value.bool (u.equals .null)).isTrue = true then _ else _) = _
    rw [Value.equals_null]
    split
    · next hn =>
      cases u with
      | null => rfl
      | _ => cases hn
    · exact widened _

/-- The target's side of a column. -/
theorem evalIn_targetColumn {owner : Expr} {optional : Bool} {target : String} {o t : Property}
    {row : Value} (hrow : scope.lookup target = some row)
    (hm : evalMember t.name row = .ok (row.column t.name)) :
    (navigationColumn owner optional target o t).2.evalIn tables v scope =
      .ok (row.column t.name) := by
  have read : (Expr.member (.param target) t.name).evalIn tables v scope =
      .ok (row.column t.name) := by
    simp only [evalIn, hrow]
    exact hm
  change (if _ then _ else Expr.member (.param target) t.name).evalIn tables v scope = _
  split
  · exact read
  · exact read

end Evaluation

end EntityQuery
