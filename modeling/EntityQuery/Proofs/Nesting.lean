import Mathlib
import EntityQuery.Proofs.Roots
import EntityQuery.Proofs.Tables

/-!
# Queries over collections

A total over a collection is the total of a stream of its own, whose filter may refer to the rows
around it and hold totals again. So the meaning of nested queries goes by induction on how deep they
are nested (`expandWithin_queries`), and a filter over all rows of an entity then keeps the rows that
satisfy its body (`evaluate_filter_nested`).
-/

namespace EntityQuery

open EntityQuery.Expr

variable {M : Model} {tables : Tables} {p p' : Progress} {opens : List SourceId} {s : Stream}
  {element : Shape} {recur : Recur} {e e' : Expr}

section Steps

variable {source body : Expr} {x : String} {note : Option CallNote}

/-- A filter of a nested query. -/
theorem expandFilter_run (hc : M.catalog.Sound) (hset : M.settings.nullSafeEquality = false)
    (hplain : M.catalog.PlainCollections) (hrec : ExpandsQueries M tables recur)
    (hp : p.forest.Sound M.catalog) (hopens : ∀ k ∈ opens, k.index < p.forest.sources.length)
    (hsource : HasShape (p.setting M.catalog opens) .ready true [] source (.rows element))
    (hb : HasShape (p.setting M.catalog opens) .raw true [(x, element)] body .scalar)
    (hx : OldName p.names x)
    (h : Runs (expandFilter recur source (.lambda [x] body) note) M p s p') :
    Extends M.catalog p p' ∧ Streams M.catalog tables p.forest.sources.length p' opens s.toExpr element
      fun o => (Expr.call .filter [source, .lambda [x] body] note).denote M.catalog tables o [] [] := by
  obtain ⟨s₀, q, b, hrun, hbody, rfl⟩ := Runs.expandFilter h
  obtain ⟨ext, s₁, m, entity, heq, hm, hselector, hflow⟩ := hrec.rows hp hopens hsource hrun
  obtain rfl := Stream.toExpr_inj heq
  have resolves := resolvedBody_run hc hset (fun _ => hplain) (fun _ => hrec) ext.sound
    (fun k hk => Nat.lt_of_lt_of_le (hopens k hk) ext.grows.sources) hflow
    (hb.mono (ext.le hp opens)) (hx.mono ext.names) hbody
  have hall := ext.moves resolves.moves hm
  refine ⟨hall, _, m, entity, rfl, hm, ?_, resolves.filter (fun o ho => ?_) note⟩
  · refine resolves.selector.trans ?_
    have hroot := (ext.sound.root hflow.range).range
    rw [hselector, resolves.moves.grows.root hflow.range, resolves.moves.grows.ref ext.sound resolves.moves.sound hroot]
  · exact (hsource.mono (hall.le hp opens)).element_eq ho

/-- A predicate of a total is a filter before it. -/
theorem denote_total_filter {op : Operator} (hop : op = .any ∨ op = .count) (note note' : Option CallNote)
    (c : Catalog) (o : OpenRows) (Γ : Shapes) (scope : Scope) :
    (Expr.call op [source, .lambda [x] body] note).denote c tables o Γ scope =
      (Expr.call op [.call .filter [source, .lambda [x] body] note'] note).denote c tables o Γ scope := by
  rcases hop with rfl | rfl <;> rfl

/-- A total is the total of the stream that its rows become. -/
theorem total_run {op : Operator} (hop : op = .any ∨ op = .count) (hrec : ExpandsQueries M tables recur)
    (hp : p.forest.Sound M.catalog) (hopens : ∀ k ∈ opens, k.index < p.forest.sources.length)
    (hsource : HasShape (p.setting M.catalog opens) .ready true [] source (.rows element))
    (h : Runs (do return .call op [(← expandSource recur source).toExpr] none) M p e' p') :
    Extends M.catalog p p' ∧ Meaning M.catalog tables p.forest.sources.length p' opens e'
      fun o => (Expr.call op [source] note).denote M.catalog tables o [] [] := by
  simp only [Runs.bind_iff, Runs.pure_iff] at h
  obtain ⟨s, q, hrun, rfl, rfl⟩ := h
  obtain ⟨ext, hstreams⟩ := hrec.rows hp hopens hsource (Runs.expandSource hrun).1
  have hmeaning := hstreams.meaning ext.sound
  refine ⟨ext, .of_parts (by simp) (by simp) (fun _ hx => absurd hx List.not_mem_nil) ?_ ?_⟩
  · simpa [children] using ⟨_, hmeaning⟩
  · intro f o scope hgrows hpaths ho
    rw [evalIn, Expr.denote]
    have hvalue := hmeaning.eval f o scope hgrows hpaths ho
    rcases hop with rfl | rfl
    · exact evalOperator_total_congr (.inl rfl) hvalue
    · exact evalOperator_total_congr (.inr rfl) hvalue

end Steps

/-- However deep expansions may be nested, they keep the meaning of queries. -/
theorem expandWithin_queries (hc : M.catalog.Sound) (hset : M.settings.nullSafeEquality = false)
    (hplain : M.catalog.PlainCollections) (n : Nat) : ExpandsQueries M tables (expandWithin n) := by
  induction n with
  | zero => exact ⟨fun _ _ _ h => (Runs.throw_iff.1 h).elim, fun _ _ _ h => (Runs.throw_iff.1 h).elim⟩
  | succ n ih =>
    constructor
    · intro p opens e element e' p' hp hopens ht h
      rcases ht.rows_cases with ⟨entity, _, rfl, rfl, -⟩ | ⟨source, x, body, note, rfl, hsource, hb, hx⟩
      · obtain ⟨_, s, hroot, rfl⟩ := Runs.expandWithin_toExpr (fun _ => rfl) h
        obtain ⟨ext, m, hm, hselector, hflow⟩ := rootStream_run hp hopens hroot
        exact ⟨ext, s, m, entity, rfl, hm, hselector, hflow⟩
      · obtain ⟨s, q, hfilter, heq⟩ := Runs.bind_iff.1 (show Runs
          (expandFilter (expandWithin n) source (.lambda [x] body) note >>= fun s => pure s.toExpr)
          M p e' p' from h)
        obtain ⟨rfl, rfl⟩ := Runs.pure_iff.1 heq
        exact expandFilter_run hc hset hplain ih hp hopens hsource hb hx hfilter
    · intro p opens operator arguments note e' p' hp hopens ht h
      cases ht with
      | total _ hop hsource =>
        refine total_run hop ih hp hopens hsource ?_
        rcases hop with rfl | rfl <;> exact h
      | totalWhere _ hop hsource hb hx =>
        simp only [denote_total_filter hop note none]
        refine total_run hop ih hp hopens (.filter none hsource hb hx) ?_
        rcases hop with rfl | rfl <;> exact h

/-- Only declared entities can be expanded. -/
theorem Runs.type_of_expandWithin {n : Nat} {entity : String}
    (h : Runs (expandWithin n (.entitySet entity)) M p e p') :
    ∃ t, M.catalog.type? entity = some t := by
  obtain ⟨_, s, hroot, -⟩ := Runs.expandWithin_toExpr (fun _ => rfl) h
  obtain ⟨t, _, htype, -⟩ := Runs.bind_iff.1 hroot
  exact ⟨t, (Runs.entityType_iff.1 htype).1⟩

/-- A filter over all rows of an entity keeps, in their order, the rows that satisfy its body, however
the body nests totals over collections. -/
theorem evaluate_filter_nested {types : List EntityType} {c : Catalog} {settings : Settings}
    {entity x : String} {body : Expr} {note : Option CallNote} {q : ExpandedQuery}
    (hchecked : Catalog.checked types = .ok c) (hplain : c.PlainCollections)
    (hset : settings.nullSafeEquality = false)
    (hb : HasShape (.user c) .raw true [(x, .entity entity)] body .scalar)
    (hx : endsInDigit x = false) (ht : Consistent c tables)
    (h : expandQuery c settings (.call .filter [.entitySet entity, .lambda [x] body] note) = .ok q) :
    ∃ rows, tables.lookup entity = some rows ∧
      q.query.evaluate tables = .ok (.list (rows.filter fun row =>
        Outcome.isTrue (body.denote c tables .none [(x, .entity entity)] [(x, row)]))) := by
  have hc : c.Sound := Catalog.sound_of_checked hchecked
  obtain ⟨n, d, p, p', hexpand, hreduce⟩ := Runs.of_expandQuery h
  have hset' := Setting.user_le c {} []
  -- The run itself shows that the entity is declared.
  obtain ⟨t, htype⟩ : ∃ t, c.type? entity = some t := by
    obtain ⟨k, _, hfilter, -⟩ := Runs.expandWithin_toExpr
      (x := fun k => expandFilter (expandWithin k) (.entitySet entity) (.lambda [x] body) note)
      (fun _ => rfl) hexpand
    obtain ⟨_, _, _, hsource, -⟩ := Runs.expandFilter hfilter
    exact Runs.type_of_expandWithin hsource
  have queries : ExpandsQueries ⟨c, settings⟩ tables (expandWithin n) :=
    expandWithin_queries hc hset hplain n
  obtain ⟨ext, hstreams⟩ := queries.rows (Forest.empty_sound c) (List.forall_mem_nil _)
    (.filter note (.set htype) (hb.mono hset') (.of_not_endsInDigit hx)) hexpand
  obtain ⟨rows, hl, -⟩ := ht.carries htype
  refine ⟨rows, hl, (hstreams.meaning ext.sound).evaluate ht hreduce ?_⟩
  have hsource : (Expr.entitySet entity).denote c tables .none [] [] = .ok (.list rows) := by
    rw [Expr.denote, hl]
    rfl
  refine denote_filter note hsource rfl fun row hrow => ?_
  have hfits : (Shape.entity entity).Fits tables row := Or.inr ⟨rows, hl, hrow⟩
  have fits : ScopeFits tables [(x, .entity entity)] [(x, row)] := (ScopeFits.nil tables []).cons hfits x
  obtain ⟨v, hv, -⟩ := (hb.mono hset').denotes (.none ht {}) fits
  exact ⟨v, hv⟩

namespace Shop

/-- The customers with an order that exactly one other order of theirs is smaller than. -/
def hasSecondSmallest : Expr :=
  let smaller : Expr := .binary .less (.member (.param "p") "Total") (.member (.param "o") "Total")
  .call .any [.member (.param "c") "Orders",
    .lambda ["o"] (.binary .equal
      (.call .count [.member (.param "c") "Orders", .lambda ["p"] smaller] none)
      (.const (.integer 1)))] none

theorem hasShape_hasSecondSmallest :
    HasShape (.user catalog) .raw true [("c", .entity "Customer")] hasSecondSmallest .scalar := by
  have isOrders {Γ : Shapes} (h : Γ.lookup "c" = some (.entity "Customer")) :
      HasShape (.user catalog) .raw true Γ (.member (.param "c") "Orders") orders.shape :=
    .navigation (.param h (show endsInDigit "c" = false by decide)) rfl (fun _ => rfl) nofun
  have total {Γ : Shapes} {x : String} (h : Γ.lookup x = some (.entity "Order"))
      (hx : endsInDigit x = false) :
      HasShape (.user catalog) .raw true Γ (.member (.param x) "Total") .scalar :=
    .property (.param h hx) rfl rfl rfl
  have o : endsInDigit "o" = false := by decide
  have p : endsInDigit "p" = false := by decide
  have smaller : HasShape (.user catalog) .raw true
      [("p", .entity "Order"), ("o", .entity "Order"), ("c", .entity "Customer")]
      (.binary .less (.member (.param "p") "Total") (.member (.param "o") "Total")) .scalar :=
    .binary .less (total rfl p) (total rfl o) nofun
  have one := HasShape.binary .equal (.totalWhere none (.inr rfl) (isOrders rfl) smaller p)
    (.const (.integer 1)) fun _ => ⟨rfl, rfl⟩
  exact .totalWhere none (.inl rfl) (isOrders rfl) one o

theorem plainCollections_catalog : catalog.PlainCollections := by
  intro entity owner name edge target howner hedge hcollection htarget
  have mem : owner ∈ types := List.mem_of_find?_eq_some howner
  have memEdge : edge ∈ owner.navigations := List.mem_of_find?_eq_some hedge
  simp only [types, List.mem_cons, List.not_mem_nil, or_false] at mem
  rcases mem with rfl | rfl
  · simp only [List.mem_cons, List.not_mem_nil, or_false] at memEdge
    rcases memEdge with rfl | rfl
    · cases hcollection
    · obtain rfl := Option.some.inj htarget
      exact ⟨"Id", "CustomerId", rfl, rfl, rfl, rfl⟩
  · obtain rfl := List.mem_singleton.1 memEdge
    cases hcollection

end Shop

theorem evaluate_hasSecondSmallest : ∃ q,
    expandQuery Shop.catalog { nullSafeEquality := false } (.call .filter
      [.entitySet "Customer", .lambda ["c"] Shop.hasSecondSmallest] none) = .ok q ∧
      q.query.evaluate Shop.tables = .ok (.list [Shop.customer 2 "Bob" (.int 1)]) := by
  obtain ⟨q, h⟩ : ∃ q, expandQuery Shop.catalog { nullSafeEquality := false } (.call .filter
      [.entitySet "Customer", .lambda ["c"] Shop.hasSecondSmallest] none) = .ok q :=
    Except.exists_of_isSome (by decide +kernel)
  obtain ⟨rows, hrows, heval⟩ := evaluate_filter_nested Shop.checked_types
    Shop.plainCollections_catalog rfl Shop.hasShape_hasSecondSmallest (by decide)
    Shop.consistent_tables h
  obtain rfl := Option.some.inj hrows
  have kept : ([Shop.customer 1 "Ann" .null, Shop.customer 2 "Bob" (.int 1)].filter fun row =>
      Outcome.isTrue (Shop.hasSecondSmallest.denote Shop.catalog Shop.tables .none
        [("c", .entity "Customer")] [("c", row)])) = [Shop.customer 2 "Bob" (.int 1)] := by cbv
  rw [kept] at heval
  exact ⟨q, h, heval⟩

/-- The customer has an order. -/
def Shop.hasOrder : Expr :=
  .call .any [.member (.param "c") "Orders",
    .lambda ["o"] (.binary .less (.const (.integer 0)) (.member (.param "o") "Id"))] none

/-- Where a navigation has the name of its own foreign key, the column that a filter reads is taken for the
navigation when the filter is expanded, and the customer is not found. -/
theorem evaluate_filter_namesake : Catalog.checked Shop.namesakeTypes = .ok Shop.namesakes ∧
    Consistent Shop.namesakes Shop.namesakeTables ∧
    Outcome.isTrue (Shop.hasOrder.denote Shop.namesakes Shop.namesakeTables .none
      [("c", .entity "Customer")] [("c", .record [("Id", .int 1)])]) = true ∧
    ∃ q, expandQuery Shop.namesakes { nullSafeEquality := false } (.call .filter
        [.entitySet "Customer", .lambda ["c"] Shop.hasOrder] none) = .ok q ∧
      q.query.evaluate Shop.namesakeTables = .ok (.list []) := by
  have lost : ((expandQuery Shop.namesakes { nullSafeEquality := false } (.call .filter
      [.entitySet "Customer", .lambda ["c"] Shop.hasOrder] none)).toOption.map fun q =>
        q.query.evaluate Shop.namesakeTables) = some (.ok (.list [])) := by cbv
  exact ⟨Shop.checked_namesakeTypes, Shop.consistent_namesakeTables, by cbv, exists_evaluation lost⟩

end EntityQuery
