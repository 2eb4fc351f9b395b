import Mathlib
import EntityQuery.Proofs.Roots
import EntityQuery.Proofs.Tables

/-!
# Queries along references

Operators are applied to a set one after the other: filters, orderings and projections, whose lambdas
follow references to single rows (`ReferenceQuery`). Each of them turns a stream that flows with the
values of its source into one that flows with its own, and the query that is left at the end evaluates
to the list that the whole chain denotes (`evaluate_reference_query`).
-/

namespace EntityQuery

open EntityQuery.Expr

variable {M : Model} {tables : Tables} {p p' : Progress} {opens : List SourceId} {m : SourceId}
  {entity : String} {s : Stream} {element : Shape} {recur : Recur} {e e' : Expr}

/-- A selector can be resolved only if the rows that it refers to are present. -/
theorem HasShape.resolve_present {S : Setting} {f : Form} {Γ : Shapes} {t : Shape} {scope : RowScope}
    {again : RowScope → Expr → Expansion Expr} (ht : HasShape S f false Γ e t)
    (h : Runs (resolveWith again scope e) M p e' p') : p = p' ∧
      ∀ r ∈ e.rowRefs, scope.owns r = true → ∃ path, p.forest.rowPath? r.node = some path := by
  induction e using children_induction generalizing f Γ t p p' e' with
  | step e ih =>
    have part {c : Expr} (hc : c ∈ e.children) {q q' : Progress} {c' : Expr}
        (h : Runs (resolveWith again scope c) M q c' q') : q = q' ∧
          ∀ r ∈ c.rowRefs, scope.owns r = true → ∃ path, q.forest.rowPath? r.node = some path := by
      rcases ht.part_of_child hc with ⟨_, _, _, hc', -⟩ | ⟨hn, -⟩
      · exact ih c hc hc' h
      · cases hn
    have byParts (hparts : e.isResolvedByParts = true) : p = p' ∧
        ∀ r ∈ e.rowRefs, scope.owns r = true → ∃ path, p.forest.rowPath? r.node = some path := by
      rw [resolveWith_parts hparts] at h
      obtain ⟨rfl, head⟩ := Runs.mapChildren_within Eq (fun _ => rfl) Eq.trans
        (fun c hc q c' q' _ hrun => (part hc hrun).1) h
      refine ⟨rfl, fun r hr howns => ?_⟩
      rcases mem_rowRefs_iff.1 hr with rfl | ⟨c, hc, hr⟩
      · cases hparts
      · obtain ⟨c', -, -, q, q', rfl, -, hrun⟩ := head.to_mem_children hc
        exact (part hc hrun).2 r hr howns
    have single {r : RowRef} {path : List String} (hpath : p.forest.rowPath? r.node = some path) :
        ∀ r' ∈ (Expr.rowRef r).rowRefs, scope.owns r' = true →
          ∃ path, p.forest.rowPath? r'.node = some path := by
      intro r' hr _
      obtain rfl : r' = r := by simpa [rowRefs, nodes] using hr
      exact ⟨path, hpath⟩
    have foreign {r : RowRef} (howns : ¬scope.owns r = true) :
        ∀ r' ∈ (Expr.rowRef r).rowRefs, scope.owns r' = true →
          ∃ path, p.forest.rowPath? r'.node = some path := by
      intro r' hr howns'
      obtain rfl : r' = r := by simpa [rowRefs, nodes] using hr
      exact absurd howns' howns
    have member {a : Expr} {name : String} : (Expr.member a name).rowRefs = a.rowRefs := by
      simp [rowRefs, nodes]
    cases e with
    | rowRef r =>
      rw [resolveWith] at h
      split at h
      · obtain ⟨path, hpath, hp, -⟩ := Runs.readRow h
        exact ⟨hp, single hpath⟩
      · next howns => exact ⟨(Runs.pure_iff.1 h).2, foreign howns⟩
    | member a name =>
      by_cases ha : ∃ r, a = .rowRef r
      · obtain ⟨r, rfl⟩ := ha
        rw [resolveWith] at h
        rw [member]
        split at h
        · obtain ⟨path, hpath, hp, -⟩ := Runs.readProperty h
          exact ⟨hp, single hpath⟩
        · next howns => exact ⟨(Runs.pure_iff.1 h).2, foreign howns⟩
      · refine byParts ?_
        cases a with
        | rowRef r => exact absurd ⟨r, rfl⟩ ha
        | _ => rfl
    | lambda _ _ | stream _ _ _ | nullSafeEqual _ _ _ => cases ht
    | _ => exact byParts rfl

/-- A stream can be made a query only if the rows that its selector refers to are present. -/
theorem Flows.present_of_reduce {value : OpenRows → Outcome Value}
    (hflow : Flows M.catalog tables p opens m entity s element value)
    (h : Runs (reduce s.toExpr) M p e' p') : ∀ r ∈ s.selector.rowRefs, r.source = m →
      ∃ path, p.forest.rowPath? r.node = some path := by
  intro r hr hm
  have owned : s.toStreamFrame.scope.owns r = true := by
    simp [StreamFrame.scope, RowScope.owns, hflow.sources, hm]
  rw [Stream.toExpr, reduce] at h
  simp only [Runs.bind_iff, Runs.forest_iff] at h
  obtain ⟨_, _, ⟨rfl, rfl⟩, h⟩ := h
  split at h
  · simp only [Runs.bind_iff] at h
    obtain ⟨body, q, hbody, -⟩ := h
    exact (hflow.selector.resolve_present hbody).2 r hr owned
  · next hproject =>
    simp only [StreamFrame.mustProject, Bool.or_eq_true, Bool.not_eq_true', not_or,
      Bool.not_eq_false] at hproject
    have hreturns := hproject.2
    unfold StreamFrame.returnsRow at hreturns
    split at hreturns
    · next r' heq =>
      rw [heq] at hr
      obtain rfl : r = r' := by simpa [rowRefs, nodes] using hr
      simp only [Bool.and_eq_true, beq_iff_eq] at hreturns
      exact ⟨[], hreturns.2⟩
    · cases hreturns

/-- Filters, orderings and projections over all rows of an entity. Their lambdas refer to their own
parameter only, and hold neither collections nor other queries. The shape is that of the rows. -/
inductive ReferenceQuery (c : Catalog) : Expr → Shape → Prop where
  | set (entity : String) : ReferenceQuery c (.entitySet entity) (.entity entity)
  | filter {source x body s t} (note : Option CallNote) (hq : ReferenceQuery c source s)
    (hb : HasShape (.user c) .raw false [(x, s)] body t) (hx : endsInDigit x = false) :
    ReferenceQuery c (.call .filter [source, .lambda [x] body] note) s
  | order {source x body s t operator} (note : Option CallNote)
    (ho : operator = .orderBy ∨ operator = .orderByDescending) (hq : ReferenceQuery c source s)
    (hb : HasShape (.user c) .raw false [(x, s)] body t) (hx : endsInDigit x = false) :
    ReferenceQuery c (.call operator [source, .lambda [x] body] note) s
  | select {source x body s t} (note : Option CallNote) (hq : ReferenceQuery c source s)
    (hb : HasShape (.user c) .raw false [(x, s)] body t) (hx : endsInDigit x = false) :
    ReferenceQuery c (.call .select [source, .lambda [x] body] note) t

theorem ReferenceQuery.shape?_eq {c : Catalog} (h : ReferenceQuery c e element) (o : OpenRows) :
    e.shape? c o [] = some (.rows element) := by
  induction h with
  | set entity => rfl
  | filter _ _ _ _ ih => exact ih
  | order _ ho _ _ _ ih => rcases ho with rfl | rfl <;> exact ih
  | select _ _ hb _ ih =>
    rw [Expr.shape?, ih]
    exact congrArg (Option.map Shape.rows) (hb.shape?_eq (Setting.user_within c o))

/-- Expanding a chain gives a stream over a new source that flows with what the chain denotes. -/
theorem expandWithin_references (hc : M.catalog.Sound) (hset : M.settings.nullSafeEquality = false)
    (he : ReferenceQuery M.catalog e element) {n : Nat} (hp : p.forest.Sound M.catalog)
    (h : Runs (expandWithin n e) M p e' p') : Extends M.catalog p p' ∧ ∃ s m entity,
      e' = s.toExpr ∧ p.forest.sources.length ≤ m.index ∧
      Flows M.catalog tables p' [] m entity s element
        fun o => e.denote M.catalog tables o [] [] := by
  -- Lambdas are read where their operator is expanded.
  have read {x : String} {body : Expr} {s t : Shape}
      (hb : HasShape (.user M.catalog) .raw false [(x, s)] body t) (p : Progress) :
      HasShape (p.setting M.catalog []) .raw false [(x, s)] body t :=
    hb.mono (Setting.user_le M.catalog p [])
  -- Nothing in them is a collection or a query.
  have plain : false = true → M.catalog.PlainCollections := fun h => nomatch h
  have queries (k : Nat) : false = true → ExpandsQueries M tables (expandWithin k) :=
    fun h => nomatch h
  have none_open (q : Progress) : ∀ k ∈ ([] : List SourceId), k.index < q.forest.sources.length :=
    List.forall_mem_nil _
  induction he generalizing n p e' p' with
  | set entity =>
    obtain ⟨_, s, hroot, rfl⟩ := Runs.expandWithin_toExpr (fun _ => rfl) h
    obtain ⟨ext, m, hm, -, hflow⟩ := rootStream_run hp (none_open p) hroot
    exact ⟨ext, s, m, entity, rfl, hm, hflow⟩
  | @filter source x body s t note hq hb hx ih =>
    obtain ⟨k, s', hfilter, rfl⟩ := Runs.expandWithin_toExpr
      (x := fun k => expandFilter (expandWithin k) source (.lambda [x] body) note) (fun _ => rfl) h
    obtain ⟨s₀, q, b, hrun, hbody, rfl⟩ := Runs.expandFilter hfilter
    obtain ⟨ext, s₁, m, entity, heq, hm, hflow⟩ := ih hp hrun
    obtain rfl := Stream.toExpr_inj heq
    have resolves := resolvedBody_run hc hset plain (queries k) ext.sound (none_open q) hflow
      (read hb q) (.of_not_endsInDigit hx) hbody
    exact ⟨ext.moves resolves.moves hm, _, m, entity, rfl, hm,
      resolves.filter (fun o _ => congrArg Shape.element (hq.shape?_eq o)) note⟩
  | @order source x body s t operator note ho hq hb hx ih =>
    obtain ⟨k, s', horder, rfl⟩ := Runs.expandWithin_toExpr
      (x := fun k => expandOrderBy (expandWithin k) operator source (.lambda [x] body))
      (fun _ => by rcases ho with rfl | rfl <;> rfl) h
    obtain ⟨s₀, q, b, hrun, hbody, rfl⟩ := Runs.expandOrderBy horder
    obtain ⟨ext, s₁, m, entity, heq, hm, hflow⟩ := ih hp hrun
    obtain rfl := Stream.toExpr_inj heq
    have resolves := resolvedBody_run hc hset plain (queries k) ext.sound (none_open q) hflow
      (read hb q) (.of_not_endsInDigit hx) hbody
    exact ⟨ext.moves resolves.moves hm, _, m, entity, rfl, hm,
      resolves.order ho (fun o _ => congrArg Shape.element (hq.shape?_eq o)) note⟩
  | @select source x body s t note hq hb hx ih =>
    obtain ⟨k, s', hselect, rfl⟩ := Runs.expandWithin_toExpr
      (x := fun k => expandSelect (expandWithin k) source (.lambda [x] body)) (fun _ => rfl) h
    obtain ⟨s₀, q, b, q', hrun, hbody, halias, hframe⟩ := Runs.expandSelect hselect
    obtain ⟨ext, s₁, m, entity, heq, hm, hflow⟩ := ih hp hrun
    obtain rfl := Stream.toExpr_inj heq
    obtain ⟨moves, hjoined, hselector, -, hstands⟩ := joinBody_run hc hset plain (queries k) ext.sound
      (none_open q) hflow (read hb q) (.of_not_endsInDigit hx) hbody
    have aliased := aliasFields_run moves.sound halias
    have standing := (hstands rfl).mono (aliased.le moves.sound [m])
    rw [← hselector] at standing
    refine ⟨ext.moves (moves.trans (aliased.toMoves m)) hm, s', m, entity, rfl, hm, ?_⟩
    obtain ⟨hsources, hrows, hcardinality, hparameter, hs'⟩ := hframe
    exact (hjoined.mono moves.sound aliased).project (read hb p') standing
      (fun o _ => congrArg Shape.element (hq.shape?_eq o))
      ⟨hsources, hrows, hcardinality, hparameter⟩ hs' note

/-- Whatever the chain: where its expansion succeeds, the query that comes out evaluates to the list
that the chain denotes. -/
theorem evaluate_reference_query {types : List EntityType} {c : Catalog} {settings : Settings}
    {q : ExpandedQuery} (hchecked : Catalog.checked types = .ok c)
    (hset : settings.nullSafeEquality = false) (he : ReferenceQuery c e element)
    (ht : Consistent c tables) (h : expandQuery c settings e = .ok q) :
    ∃ rows, e.denote c tables .none [] [] = .ok (.list rows) ∧
      q.query.evaluate tables = .ok (.list rows) := by
  have hc : c.Sound := Catalog.sound_of_checked hchecked
  obtain ⟨n, d, p, p', hexpand, hreduce⟩ := Runs.of_expandQuery h
  obtain ⟨ext, s, m, entity, rfl, hm, hflow⟩ :=
    expandWithin_references hc hset he (Forest.empty_sound c) hexpand
  have meaning := hflow.meaning hm (hflow.present_of_reduce hreduce) ext.sound
  obtain ⟨entries, -, -, hvalue⟩ := hflow.rows .none (.none ht p)
  exact ⟨_, hvalue, meaning.evaluate ht hreduce hvalue⟩

namespace Shop

/-- The orders of Bob, the smallest first, each with the name of who referred its buyer. -/
def ordersOfBob : Expr :=
  let buyer : Expr := .member (.param "o") "Buyer"
  let ofBob : Expr :=
    .call .filter [.entitySet "Order",
      .lambda ["o"] (.binary .equal (.member buyer "Name") (.const (.text "Bob")))] none
  .call .select [.call .orderBy [ofBob, .lambda ["o"] (.member (.param "o") "Total")] none,
    .lambda ["o"] (.record [("Number", .member (.param "o") "Id"),
      ("Referrer", .member (.member buyer "Referrer") "Name")])] none

theorem referenceQuery_ordersOfBob : ReferenceQuery catalog ordersOfBob
    (.record [("Number", .scalar), ("Referrer", .scalar)]) := by
  have name : endsInDigit "o" = false := by decide
  have order : HasShape (.user catalog) .raw false [("o", .entity "Order")] (.param "o")
      (.entity "Order") := .param rfl name
  have customer : HasShape (.user catalog) .raw false _ (.member (.param "o") "Buyer") buyer.shape :=
    .navigation order rfl nofun nofun
  have referrer : HasShape (.user catalog) .raw false _
      (.member (.member (.param "o") "Buyer") "Referrer") referrer.shape :=
    .navigation customer rfl nofun nofun
  have isBob : HasShape (.user catalog) .raw false _
      (.binary .equal (.member (.member (.param "o") "Buyer") "Name") (.const (.text "Bob"))) .scalar :=
    .binary .equal (.property customer rfl rfl rfl) (.const _) fun _ => ⟨rfl, rfl⟩
  have total : HasShape (.user catalog) .raw false _ (.member (.param "o") "Total") .scalar :=
    .property order rfl rfl rfl
  exact .select none (.order none (.inl rfl) (.filter none (.set "Order") isBob name) total name)
    (.cons (.property order rfl rfl rfl) (.cons (.property referrer rfl rfl rfl) .nil)) name

end Shop

theorem evaluate_ordersOfBob : ∃ q,
    expandQuery Shop.catalog { nullSafeEquality := false } Shop.ordersOfBob = .ok q ∧
      q.query.evaluate Shop.tables = .ok (.list [
        .record [("Number", .int 12), ("Referrer", .str "Ann")],
        .record [("Number", .int 11), ("Referrer", .str "Ann")]]) := by
  obtain ⟨q, h⟩ : ∃ q,
      expandQuery Shop.catalog { nullSafeEquality := false } Shop.ordersOfBob = .ok q :=
    Except.exists_of_isSome (by decide +kernel)
  obtain ⟨rows, hrows, heval⟩ := evaluate_reference_query Shop.checked_types rfl
    Shop.referenceQuery_ordersOfBob Shop.consistent_tables h
  have denoted : Shop.ordersOfBob.denote Shop.catalog Shop.tables .none [] [] = .ok (.list [
      .record [("Number", .int 12), ("Referrer", .str "Ann")],
      .record [("Number", .int 11), ("Referrer", .str "Ann")]]) := by cbv
  exact ⟨q, h, heval.trans (hrows.symm.trans denoted)⟩

end EntityQuery
