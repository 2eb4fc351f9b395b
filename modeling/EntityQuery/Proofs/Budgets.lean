import EntityQuery.Proofs.Frugal

/-!
# Expanding keeps to what queries cost

The rows of an expanded query cost no more than the query did (`expandWithin_thrifty`). A stream costs
what its selector costs, since its rows are never expanded again; a selector that is put for a parameter
stays within what the parameter costs; and the collections that a body leads to are paid for by the
members that lead there.
-/

namespace EntityQuery

open EntityQuery.Expr

variable {M : Model} {p p' : Progress} {c : Catalog} {f g : Forest} {ρ : Costing}
  {k i m : Nat} {bound : Nat → Nat} {arguments : List Expr} {recur : Recur} {e e' : Expr} {s s' : Stream}

section Streams

theorem Stream.costs_iff :
    Costs c f ρ k s.toExpr ↔ s.rows.isQuery = true ∧ Costs c f ρ k s.selector := by
  constructor
  · intro h
    cases h with
    | stream query selector => exact ⟨query, selector⟩
    | scalar node _ _ => cases node
  · exact fun h => .stream h.1 h.2

theorem Expr.Costs.set (entity : String) (hk : 1 ≤ k) : Costs c f ρ k (.entitySet entity) :=
  .scalar rfl hk nofun

theorem rootStream_costs {entity : String} (h : Runs (rootStream entity) M p s p') (hk : 1 ≤ k) :
    Costs c p'.forest ρ k s.toExpr := by
  simp only [rootStream, Runs.bind_iff, Runs.entityType_iff, Runs.growForest_iff, Runs.forest_iff,
    Runs.ref_iff, Runs.pure_iff] at h
  obtain ⟨t, _, ⟨-, rfl⟩, n, q, ⟨rfl, rfl⟩, f, _, ⟨rfl, rfl⟩, d, _, ⟨rfl, rfl⟩, rfl, rfl⟩ := h
  obtain ⟨-, range, -, edge⟩ := Forest.addSource_onward (c := c) (f := p.forest)
    (show p.forest.addSource (some entity) false = _ from rfl)
  exact Stream.costs_iff.2 ⟨rfl, .ref range (Node.not_isCollection edge) hk⟩

/-- The rows stay a query when rows are joined to them, and the selector stays. -/
theorem joinReferenced_rows {es : List Expr} {n : Nat} (h : Runs (joinReferenced s es) M p (s', n) p')
    (hs : s.rows.isQuery = true) : s'.rows.isQuery = true ∧ s'.selector = s.selector := by
  refine joinReferenced_keeps (P := fun _ t => t.rows.isQuery = true ∧ t.selector = s.selector)
    (fun {q q' t t' n} ht hrun => ?_) id h ⟨hs, rfl⟩
  obtain ⟨_, _, _, _, _, _, _, rows, _, found, rfl, -, -⟩ := Runs.joinNode hrun
  refine ⟨?_, ht.2⟩
  obtain ⟨-, ⟨-, rfl⟩ | ⟨-, group, row, rfl⟩⟩ := Runs.keyedJoin_cases found.joined
  · rfl
  · rfl

theorem mergeStreams_rows {outer inner : Stream} {join : StreamJoin} {mg : MergedStreams}
    (h : Runs (mergeStreams outer inner join) M p mg p') : mg.stream.rows.isQuery = true ∧
      mg.outerSelector = outer.selector ∧ mg.innerSelector = inner.selector := by
  cases join with
  | keyed outerKey innerKey note =>
    obtain ⟨rows, _, _, -, -, hjoin, rfl, -⟩ := Runs.mergeStreams_keyed h
    refine ⟨?_, rfl, rfl⟩
    obtain ⟨-, ⟨-, rfl⟩ | ⟨-, group, row, rfl⟩⟩ := Runs.keyedJoin_cases hjoin
    · rfl
    · rfl
  | correlated =>
    obtain ⟨_, -, rfl, -⟩ := Runs.mergeStreams_correlated h
    exact ⟨rfl, rfl, rfl⟩

theorem materialize_costs {entity? : Option String} (h : Runs (materialize s entity?) M p s' p')
    (hs : Costs c p.forest ρ k s.toExpr) :
    Costs c p'.forest ρ k s'.toExpr := by
  rcases Runs.materialize h with ⟨rfl, rfl⟩ | ⟨body, q, source, q', hbody, hsource, hforest, rfl⟩
  · exact hs
  · obtain ⟨-, range, edge, -⟩ := projectedSource_onward hsource
    rw [hforest]
    exact Stream.costs_iff.2 ⟨rfl, .ref range (Node.not_isCollection edge) hs.pos⟩

end Streams

section Chains

theorem Expr.Arguments.pos (h : Arguments c f ρ bound arguments) {a : Expr} (ha : arguments[i]? = some a) :
    1 ≤ bound (i + 1) := by
  cases hl : a.isLambda with
  | false => exact (h.values i a ha hl).pos
  | true =>
    cases a with
    | lambda params body => exact (h.bodies i params body ha).pos
    | _ => cases hl

/-- The first argument of a call can be replaced by what costs no more. -/
theorem Expr.Arguments.replace {a a' : Expr} {rest : List Expr} (h : Arguments c f ρ bound (a :: rest))
    (ha : Costs c f ρ (bound 1) a') : Arguments c f ρ bound (a' :: rest) where
  mono := h.mono
  values i b hb hl := by
    cases i with
    | zero =>
      obtain rfl := Option.some.inj hb
      exact ha
    | succ i => exact h.values (i + 1) b hb hl
  apart params body hb := by
    rcases List.mem_cons.1 hb with rfl | hb
    · cases ha.isLambda
    · exact h.apart params body (.tail _ hb)
  bodies i params body hb := by
    cases i with
    | zero =>
      obtain rfl := Option.some.inj hb
      cases ha.isLambda
    | succ i => exact h.bodies (i + 1) params body hb

/-- A call whose first argument becomes cheaper, unless it is a lambda. -/
theorem Expr.Costs.onSource {operator : Operator} {source source' : Expr} {rest : List Expr}
    {note : Option CallNote} (h : Costs c f ρ k (.call operator (source :: rest) note))
    (hs : ∀ {ρ k}, 1 ≤ k → (source.isLambda = false → Costs c f ρ k source) →
      Costs c f ρ k source') : Costs c f ρ k (.call operator (source' :: rest) note) := by
  obtain ⟨τ, bound, around, args, deeper⟩ := h.arguments
  have cheaper := args.replace (hs (args.pos (i := 0) rfl) (args.values 0 source rfl))
  exact (cheaper.call deeper note).mono around (Nat.le_refl k)

theorem withChainRoot_costs {root : Expr} (hroot : ∀ {ρ k}, 1 ≤ k → Costs c f ρ k root) (hk : 1 ≤ k)
    (he : e.isLambda = false → Costs c f ρ k e) : Costs c f ρ k (e.withChainRoot root) := by
  induction e using children_induction generalizing ρ k with
  | step e ih =>
    unfold withChainRoot
    split
    · exact (he rfl).onSource fun hk hs => ih _ (.head _) hk hs
    · exact hroot hk

theorem withoutFilter_costs {target : String} (he : Costs c f ρ k e) :
    Costs c f ρ k (e.withoutFilter target) := by
  induction e using children_induction generalizing ρ k with
  | step e ih =>
    unfold withoutFilter
    split
    · exact .set target he.pos
    · next operator source arguments note _ =>
      cases hl : source.isLambda with
      | false => exact he.onSource fun _ hs => ih _ (.head _) (hs hl)
      | true =>
        cases source with
        | lambda params body => exact he
        | _ => cases hl
    · exact he

/-- The chain of a hoisted selector costs no more than the selector. -/
theorem HoistPlan.ofSelector_costs {plan : HoistPlan} (h : HoistPlan.ofSelector e = .ok plan)
    (he : Costs c f ρ k e) : Costs c f ρ k plan.chain := by
  obtain ⟨chain, filter, body, rest, hchain, hfilter, -, -, hopened, -⟩ := HoistPlan.ofSelector_eq_ok h
  suffices Costs c f ρ k chain from hopened ▸ withoutFilter_costs this
  rcases hchain with rfl | ⟨further, note, rfl⟩
  · exact he
  · obtain ⟨τ, bound, around, args, deeper⟩ := he.arguments
    have plain : chain.isLambda = false := by
      cases chain <;> first | rfl | cases hfilter
    have within : bound 1 ≤ bound (chain :: further).length := args.mono (by simp)
    exact (args.values 0 chain rfl plain).mono around (within.trans (by omega))

end Chains

/-- Expanding a query by `recur` makes nothing more expensive. What it makes of a call is a stream over rows
that cost what the last argument may cost, or else a scalar. -/
structure Thrifty (M : Model) (recur : Recur) : Prop where
  links : ∀ e, KeepsLinks M (recur e)
  costs : ∀ {e p e' p' ρ k}, p.forest.Linked M.catalog → Runs (recur e) M p e' p' →
    Costs M.catalog p.forest ρ k e → Costs M.catalog p'.forest ρ k e'
  rows : ∀ {operator arguments note p p' ρ bound} {s : Stream}, p.forest.Linked M.catalog →
    Runs (recur (.call operator arguments note)) M p s.toExpr p' →
    Arguments M.catalog p.forest ρ bound arguments →
    Costs M.catalog p'.forest ρ (bound arguments.length) s.toExpr
  lambda : ∀ {params body p e' p'}, ¬ Runs (recur (.lambda params body)) M p e' p'

section Bodies

variable (hc : M.catalog.NamesApart) (hrec : Thrifty M recur)

include hrec

/-- What becomes of the queries in a body costs no more than they do. -/
theorem expandSubqueries_cheaper (hp : p.forest.Linked M.catalog)
    (h : Runs (expandSubqueries recur e) M p e' p') : Cheaper M.catalog p.forest p'.forest e e' := by
  induction e using children_induction generalizing p e' p' with
  | step e ih =>
    have links (e : Expr) : KeepsLinks M (expandSubqueries recur e) := expandSubqueries_onward hrec.links e
    have keeps := (links e h hp).2
    rw [expandSubqueries, descend_eq] at h
    cases hat : subqueryAt recur e with
    | some x =>
      rw [hat] at h
      unfold subqueryAt at hat
      split at hat
      · cases hat
        obtain ⟨rfl, rfl⟩ := Runs.pure_iff.1 h
        exact .refl (.refl _) _
      · split at hat <;> cases hat
        exact .of_costs (fun _ _ heq => by cases heq) fun he => hrec.costs hp h he
      · cases hat
    | none =>
      rw [hat] at h
      refine .of_head keeps ((Runs.mapChildren_linked (fun d _ => links d) hp h).mono ?_) ?_
      · rintro d d' ⟨hd, q, q', linked, before, after, hrun⟩
        exact (Cheaper.refl before d).trans ((ih d hd linked hrun).trans (.refl after d'))
      · rintro rows rows' selector selector' frame rfl
        cases hat

include hc

theorem prepareBody_cheaper (hp : p.forest.Linked M.catalog) (h : Runs (prepareBody recur e) M p e' p') :
    Cheaper M.catalog p.forest p'.forest e e' := by
  simp only [prepareBody, Runs.bind_iff] at h
  obtain ⟨body, q, hrewrite, hexpand⟩ := h
  have hq := (rewriteBody_onward e hrewrite hp).1
  exact (rewriteBody_rewritten hc hp hrewrite).toCheaper.trans (expandSubqueries_cheaper hrec hq hexpand)

/-- A lambda is brought over rows whose selector stays, and its body costs no more than with the selector
put for its parameter. -/
theorem joinBody_costs {x : String} {body : Expr} {b : JoinedBody} (hp : p.forest.Linked M.catalog)
    (h : Runs (joinBody recur s x body) M p b p') (hs : s.rows.isQuery = true) :
    b.stream.rows.isQuery = true ∧ b.stream.selector = s.selector ∧
      Cheaper M.catalog p.forest p'.forest (body.substitute x s.selector) b.body := by
  obtain ⟨q, s', n, hprepare, hjoin, hstream⟩ := Runs.joinBody h
  have hq := (prepareBody_onward hrec.links _ hprepare hp).1
  have keeps := (joinReferenced_onward hjoin hq).2
  obtain ⟨query, selector⟩ := joinReferenced_rows hjoin hs
  refine ⟨?_, ?_, (prepareBody_cheaper hc hrec hp hprepare).trans (.refl keeps _)⟩
  · rcases hstream with heq | heq <;> rw [heq] <;> exact query
  · rcases hstream with heq | heq <;> rw [heq] <;> exact selector

theorem resolvedBody_costs {x : String} {body : Expr} {b : JoinedBody} (hp : p.forest.Linked M.catalog)
    (h : Runs (resolvedBody recur s x body) M p b p') (hs : Costs M.catalog p.forest ρ k s.toExpr) :
    Costs M.catalog p'.forest ρ k b.stream.toExpr := by
  have keeps := (resolvedBody_onward hrec.links h hp).2
  obtain ⟨b₀, q, hjoin, hresolve, hstream, -⟩ := Runs.resolvedBody h
  obtain ⟨query, selector⟩ := Stream.costs_iff.1 hs
  obtain ⟨query', selector', -⟩ := joinBody_costs hc hrec hp hjoin query
  rw [hstream]
  exact Stream.costs_iff.2 ⟨query', selector' ▸ selector.keeps keeps⟩

end Bodies

section Operators

variable (hc : M.catalog.NamesApart) (hrec : Thrifty M recur)

include hrec

theorem expandSource_costs {source : Expr} (hp : p.forest.Linked M.catalog)
    (args : Arguments M.catalog p.forest ρ bound arguments) (ha : arguments[i]? = some source)
    (h : Runs (expandSource recur source) M p s p') :
    Costs M.catalog p'.forest ρ (bound (i + 1)) s.toExpr := by
  have hrun := (Runs.expandSource h).1
  cases hl : source.isLambda with
  | false => exact hrec.costs hp hrun (args.values i source ha hl)
  | true =>
    cases source with
    | lambda params body => exact absurd hrun hrec.lambda
    | _ => cases hl

include hc

theorem Brought.costs {source lambda : Expr} {b : JoinedBody} (h : Brought recur M p source lambda b p')
    (hp : p.forest.Linked M.catalog) (args : Arguments M.catalog p.forest ρ bound [source, lambda]) :
    Costs M.catalog p'.forest ρ (bound 1) b.stream.toExpr := by
  obtain ⟨x, body, s, q, rfl, hsource, hbody⟩ := h
  have hq := (expandSource_onward hrec.links _ hsource hp).1
  exact resolvedBody_costs hc hrec hq hbody (expandSource_costs hrec hp args rfl hsource)

theorem expandSelect_costs {source lambda : Expr} (hp : p.forest.Linked M.catalog)
    (args : Arguments M.catalog p.forest ρ bound [source, lambda])
    (h : Runs (expandSelect recur source lambda) M p s p') :
    Costs M.catalog p'.forest ρ (bound 2) s.toExpr := by
  obtain ⟨x, body, s₀, q, b, q', rfl, hsource, hbody, halias, _, rfl⟩ := Runs.expandSelect_cases h
  obtain ⟨hq, keeps⟩ := expandSource_onward hrec.links _ hsource hp
  have hq' := (joinBody_onward hrec.links hbody hq).1
  obtain ⟨query, selector⟩ := Stream.costs_iff.1 (expandSource_costs (i := 0) hrec hp args rfl hsource)
  obtain ⟨query', -, cheaper⟩ := joinBody_costs hc hrec hq hbody query
  have composed := (args.keeps keeps).substitute (i := 1) rfl selector (Nat.le_refl _)
  exact Stream.costs_iff.2 ⟨query', (cheaper.costs composed).keeps (aliasFields_onward _ halias hq').2⟩

/-- The rows of merged streams cost what the result selector does, or what the inner rows do. -/
theorem selectResult_costs {mg : MergedStreams} {result : Option ResultSelector}
    (hp : p.forest.Linked M.catalog) (args : Arguments M.catalog p.forest ρ bound arguments)
    (hresult : ∀ x y body, result = some (x, y, body) →
      arguments[i]? = some (.lambda [x, y] body) ∧ bound (i + 1) ≤ k)
    (hk : bound i ≤ k) (hm : mg.stream.rows.isQuery = true)
    (ho : Costs M.catalog p.forest ρ (bound i) mg.outerSelector)
    (hi : Costs M.catalog p.forest ρ (bound i) mg.innerSelector)
    (h : Runs (selectResult recur mg result) M p s p') :
    Costs M.catalog p'.forest ρ k s.toExpr := by
  rcases Runs.selectResult h with ⟨-, rfl, rfl⟩ | ⟨x, y, body, body', q, s', n, rfl, hprepare, hjoin, rfl⟩
  · exact Stream.costs_iff.2 ⟨hm, hi.le hk⟩
  · obtain ⟨hlambda, hk⟩ := hresult x y body rfl
    have hq := (prepareBody_onward hrec.links _ hprepare hp).1
    have keeps := (joinReferenced_onward hjoin hq).2
    have composed := (args.substitute_pair hlambda ho hi (Nat.le_refl _)).le hk
    refine Stream.costs_iff.2 ⟨(joinReferenced_rows hjoin hm).1, ?_⟩
    exact ((prepareBody_cheaper hc hrec hp hprepare).costs composed).keeps keeps

theorem expandJoin_costs {outer inner outerKey innerKey result : Expr} (hp : p.forest.Linked M.catalog)
    (args : Arguments M.catalog p.forest ρ bound [outer, inner, outerKey, innerKey, result])
    (h : Runs (expandJoin recur outer inner outerKey innerKey result) M p s p') :
    Costs M.catalog p'.forest ρ (bound 5) s.toExpr := by
  obtain ⟨x, y, z, w, outerKey', innerKey', result', outer', inner', b, d, q₁, q₂, q₃, q₄, q₅, mg, note,
    rfl, rfl, rfl, houter, hinner, hb, hd, -, -, hmerge, hselect⟩ := Runs.expandJoin h
  obtain ⟨h₁, k₁⟩ := expandSource_onward hrec.links _ houter hp
  obtain ⟨h₂, k₂⟩ := expandSource_onward hrec.links _ hinner h₁
  obtain ⟨h₃, k₃⟩ := resolvedBody_onward hrec.links hb h₂
  obtain ⟨h₄, k₄⟩ := resolvedBody_onward hrec.links hd h₃
  obtain ⟨h₅, k₅⟩ := mergeStreams_keyed_onward hmerge h₄
  have ho := resolvedBody_costs hc hrec h₂ hb ((expandSource_costs (i := 0) hrec hp args rfl houter).keeps k₂)
  have hi := resolvedBody_costs hc hrec h₃ hd
    ((expandSource_costs (i := 1) hrec h₁ (args.keeps k₁) rfl hinner).keeps k₃)
  obtain ⟨query, houter', hinner'⟩ := mergeStreams_rows hmerge
  refine selectResult_costs (i := 4) hc hrec h₅ (args.keeps (k₁.trans (k₂.trans (k₃.trans (k₄.trans k₅)))))
    ?_ (args.mono (by decide)) query ?_ ?_ hselect
  · rintro _ _ _ ⟨⟩
    exact ⟨rfl, Nat.le_refl _⟩
  · rw [houter']
    exact ((Stream.costs_iff.1 ho).2.keeps (k₄.trans k₅)).le (args.mono (by decide))
  · rw [hinner']
    exact ((Stream.costs_iff.1 hi).2.keeps k₅).le (args.mono (by decide))

omit hc in
theorem correlate_costs {outer : Stream} {mg : MergedStreams} (hp : p.forest.Linked M.catalog)
    (houter : outer.rows.isQuery = true) (he : Costs M.catalog p.forest ρ k e)
    (h : Runs (correlate recur outer e) M p mg p') : mg.stream.rows.isQuery = true ∧
      mg.outerSelector = outer.selector ∧ Costs M.catalog p'.forest ρ k mg.innerSelector := by
  obtain ⟨inner, q, outer', n, q₁, rows, q₂, q₃, hinner, hjoin, hrows, hmerge, hq⟩ := Runs.correlate h
  have h₁ := (expandSource_onward hrec.links _ hinner hp).1
  obtain ⟨h₂, keeps⟩ := joinReferenced_onward hjoin h₁
  rw [← Stream.resolve_forest hrows, ← hq] at h₂ keeps
  have keeps' := (mergeStreams_correlated_onward hmerge h₂).2
  obtain ⟨query, hout, hin⟩ := mergeStreams_rows hmerge
  have selector := (Stream.costs_iff.1 (hrec.costs hp (Runs.expandSource hinner).1 he)).2
  exact ⟨query, hout.trans (joinReferenced_rows hjoin houter).2, hin ▸ selector.keeps (keeps.trans keeps')⟩

omit hc in
theorem expandHoisted_costs {plan : HoistPlan} {inner : Stream} (hp : p.forest.Linked M.catalog)
    (he : Costs M.catalog p.forest ρ k plan.chain)
    (h : Runs (expandHoisted recur plan) M p (some inner) p') :
    Costs M.catalog p'.forest ρ k inner.toExpr := by
  obtain ⟨root, q, inner', q', hroot, hinner, hforest, hfound⟩ := Runs.expandHoisted h
  obtain rfl : inner = inner' := by
    rcases hfound with hfound | hfound <;> cases hfound
    rfl
  obtain ⟨hq, keeps⟩ := rootStream_onward _ hroot hp
  rw [hforest]
  exact hrec.costs hq (Runs.expandSource hinner).1
    (withChainRoot_costs (rootStream_costs hroot) he.pos fun _ => he.keeps keeps)

omit hc hrec in
theorem hoist_rows {outer inner : Stream} {plan : HoistPlan} {mg : MergedStreams}
    (houter : outer.rows.isQuery = true) (h : Runs (hoist outer inner plan) M p mg p') :
    mg.stream.rows.isQuery = true ∧ mg.outerSelector = outer.selector ∧ mg.innerSelector = inner.selector := by
  obtain ⟨_, _, q, outer', n, q₁, _, q₂, q₃, _, hinner, -, hjoin, hkeys, -, -, hmerge, hq⟩ := Runs.hoist h
  obtain ⟨query, hout, hin⟩ := mergeStreams_rows hmerge
  exact ⟨query, hout.trans (joinReferenced_rows hjoin houter).2, hin⟩

theorem expandSelectMany_costs {source lambda : Expr} {rest : List Expr} (hp : p.forest.Linked M.catalog)
    (args : Arguments M.catalog p.forest ρ bound (source :: lambda :: rest))
    (h : Runs (expandSelectMany recur source lambda rest.head?) M p s p') :
    Costs M.catalog p'.forest ρ (bound (rest.length + 2)) s.toExpr := by
  obtain ⟨x, body, result', outer, q₁, collection, q₂, q₃, mg, q₄, rfl, hresult, houter, hbody, hmerge,
    hselect⟩ := Runs.expandSelectMany h
  obtain ⟨h₁, k₁⟩ := expandSource_onward hrec.links _ houter hp
  obtain ⟨h₂, k₂⟩ := rewriteBody_onward _ hbody h₁
  obtain ⟨query, selector⟩ := Stream.costs_iff.1 (expandSource_costs (i := 0) hrec hp args rfl houter)
  have hcollection := (rewriteBody_rewritten hc h₁ hbody).costs
    ((args.keeps k₁).substitute (i := 1) rfl selector (Nat.le_refl _))
  -- However the collection is attached, its rows cost what the collection does.
  obtain ⟨h₃, k₃, h₄, k₄⟩ := merged_onward hrec.links h₂ hmerge
  obtain ⟨merged, hout, hin⟩ : mg.stream.rows.isQuery = true ∧ mg.outerSelector = outer.selector ∧
      Costs M.catalog q₄.forest ρ (bound 2) mg.innerSelector := by
    rcases hmerge with ⟨hcorrelate, -⟩ | ⟨plan, inner, hplan, hinner, hhoist⟩
    · exact correlate_costs hrec h₃ query (hcollection.keeps k₃) hcorrelate
    · obtain ⟨merged, hout, hin⟩ := hoist_rows query hhoist
      have inner_costs := expandHoisted_costs hrec h₂ (HoistPlan.ofSelector_costs hplan hcollection) hinner
      exact ⟨merged, hout, hin ▸ (Stream.costs_iff.1 inner_costs).2.keeps k₄⟩
  have k₄ := k₃.trans k₄
  refine selectResult_costs (i := 2) hc hrec h₄ (args.keeps (k₁.trans (k₂.trans k₄))) ?_
    (args.mono (by omega)) merged ?_ hin hselect
  · rintro y z d rfl
    obtain ⟨-, hnone⟩ | ⟨y', z', d', hrest, heq⟩ := hresult
    · cases hnone
    · cases heq
      cases rest with
      | nil => cases hrest
      | cons a rest =>
        cases hrest
        exact ⟨rfl, args.mono (by simp)⟩
  · rw [hout]
    exact (selector.keeps (k₂.trans k₄)).le (args.mono (by decide))

omit hc in
/-- With its predicate taken out as a filter of the source, an operator costs no more than before: the rows
of a filter cost less than the filter. -/
theorem splitPredicate_costs {operator : Operator} {source : Expr} {rest : List Expr}
    (hp : p.forest.Linked M.catalog)
    (args : Arguments M.catalog p.forest ρ bound (source :: rest))
    (h : Runs (expandSource recur (splitPredicate operator source rest).1) M p s p') :
    ∃ bound', Arguments M.catalog p'.forest ρ bound'
        (s.toExpr :: (splitPredicate operator source rest).2) ∧
      bound' ((splitPredicate operator source rest).2.length + 1) = bound (rest.length + 1) := by
  unfold splitPredicate at h ⊢
  split at h
  · next predicate _ =>
    have hs := hrec.rows hp (Runs.expandSource h).1 args
    refine ⟨fun _ => bound 2, .constant (fun a ha _ => ?_) fun params body ha => ?_, rfl⟩
    · rw [List.mem_singleton.1 ha]
      exact hs
    · cases List.mem_singleton.1 ha
  · have keeps := (expandSource_onward hrec.links _ h hp).2
    exact ⟨bound, (args.keeps keeps).replace (expandSource_costs (i := 0) hrec hp args rfl h), rfl⟩

omit hc in
theorem expandTerminal_costs {operator : Operator} {source : Expr} {rest : List Expr}
    (hp : p.forest.Linked M.catalog)
    (args : Arguments M.catalog p.forest ρ bound (source :: rest))
    (h : Runs (expandTerminal recur operator (source :: rest)) M p e p') :
    (∃ s : Stream, e = s.toExpr ∧
        Costs M.catalog p'.forest ρ (bound (rest.length + 1)) s.toExpr) ∨
      operator.depth = 2 ∧ e.isCall = true ∧
        Costs M.catalog p'.forest ρ (bound (rest.length + 1) + 2) e := by
  obtain ⟨s, q, hsource, h⟩ := Runs.expandTerminal h
  obtain ⟨bound', args', hbound⟩ := splitPredicate_costs hrec hp args hsource
  have hs : Costs M.catalog q.forest ρ (bound (rest.length + 1)) s.toExpr :=
    (args'.values 0 _ rfl rfl).le (hbound ▸ args'.mono (by omega))
  obtain ⟨query, selector⟩ := Stream.costs_iff.1 hs
  rcases h with ⟨hscalar, rfl, rfl⟩ | ⟨-, rfl, rfl⟩ | ⟨-, entity?, s', q', -, hmaterialize, hforest, rfl⟩
  · have depth : operator.depth = 2 := by
      cases operator <;> first | rfl | cases hscalar
    exact .inr ⟨depth, rfl, args'.call (by simp [depth, hbound]) none⟩
  · exact .inl ⟨_, rfl, Stream.costs_iff.2 ⟨query, selector⟩⟩
  · have hs' := (Stream.costs_iff.1 (materialize_costs hmaterialize hs)).2
    have keeps : q'.forest.Keeps p'.forest := by
      have hq := (expandSource_onward hrec.links _ hsource hp).1
      have hq' := (materialize_onward hmaterialize hq).1
      rcases hforest with hforest | hforest <;> rw [hforest]
      · exact .refl _
      · exact (Forest.Onward.foldl (fun f m => Forest.onward_makeOptional m) _ _ hq').2
    exact .inl ⟨_, rfl, Stream.costs_iff.2 ⟨rfl, hs'.keeps keeps⟩⟩

theorem expandCall_costs {operator : Operator} {note : Option CallNote} (hp : p.forest.Linked M.catalog)
    (args : Arguments M.catalog p.forest ρ bound arguments)
    (h : Runs (expandCall recur operator arguments note) M p e p') :
    (∃ s : Stream, e = s.toExpr ∧
        Costs M.catalog p'.forest ρ (bound arguments.length) s.toExpr) ∨
      operator.depth = 2 ∧ e.isCall = true ∧
        Costs M.catalog p'.forest ρ (bound arguments.length + 2) e := by
  cases Runs.expandCall h with
  | rowWise _ brought _ =>
    have selector := (Stream.costs_iff.1 (brought.costs hc hrec hp args)).2
    exact .inl ⟨_, rfl, Stream.costs_iff.2 ⟨rfl, selector.le (args.mono (by simp))⟩⟩
  | select run => exact .inl ⟨_, rfl, expandSelect_costs hc hrec hp args run⟩
  | join run => exact .inl ⟨_, rfl, expandJoin_costs hc hrec hp args run⟩
  | selectMany run => exact .inl ⟨_, rfl, expandSelectMany_costs hc hrec hp args run⟩
  | terminal _ _ _ run => exact expandTerminal_costs hrec hp args run

end Operators

/-- However deep expansions may be nested, no query becomes more expensive. -/
theorem expandWithin_thrifty (hc : M.catalog.NamesApart) (n : Nat) : Thrifty M (expandWithin n) := by
  induction n with
  | zero =>
    exact ⟨expandWithin_onward 0, fun _ h _ => (Runs.throw_iff.1 h).elim,
      fun _ h _ => (Runs.throw_iff.1 h).elim, fun h => Runs.throw_iff.1 h⟩
  | succ n ih =>
    refine ⟨expandWithin_onward (n + 1), fun {e p e' p' ρ k} hp h he => ?_, fun hp h args => ?_,
      fun h => Runs.throw_iff.1 h⟩
    · unfold expandWithin at h
      split at h
      · simp only [Runs.bind_iff, Runs.pure_iff] at h
        obtain ⟨s, _, hroot, rfl, rfl⟩ := h
        exact rootStream_costs hroot he.pos
      · obtain ⟨rfl, rfl⟩ := Runs.pure_iff.1 h
        exact he
      · next operator arguments note =>
        obtain ⟨τ, bound, around, args, deeper⟩ := he.arguments
        rcases expandCall_costs hc ih hp args h with ⟨s, rfl, hs⟩ | ⟨depth, -, he'⟩
        · exact hs.mono around (by omega)
        · exact he'.mono around (by omega)
      · exact (Runs.throw_iff.1 h).elim
    · rcases expandCall_costs hc ih hp args h with ⟨s, heq, hs⟩ | ⟨-, hcall, -⟩
      · exact heq ▸ hs
      · cases hcall

end EntityQuery
