import EntityQuery.Proofs.Links

/-!
# Properties that every expansion keeps

What can be said of an expression depends on where it stands in a query: outside of all rows, in the rows of
a stream, and under which lambdas. `Levels` are such places. `Durable` says what has to be shown of a
property of the expressions at each level, over a forest: that it stays true while the forest grows, that it
survives when something is put for a parameter, and that it is kept by the steps that make an expression or
walk through one. Then every expansion keeps it (`Durable.expandWithin`), whatever operators the query has.
-/

namespace EntityQuery

open EntityQuery.Expr

/-- The places in a query. -/
structure Levels (L : Type) where
  /-- The level of the body of a lambda. -/
  under : List String → L → L
  /-- The level of the rows of a stream. -/
  rows : L → L
  /-- Nothing has been brought over rows at such a level yet. -/
  outer : L → Prop
  outer_under {l : L} (params : List String) (h : outer l) : outer (under params l)
  under_cons (x : String) (params : List String) (l : L) :
    under (x :: params) l = under [x] (under params l)

variable {L : Type} {M : Model} {V : Levels L} {G : Forest → L → Expr → Prop}

/-- At outer levels the step keeps what holds of an expression over a forest. The nodes of the forest hang
together as they should. -/
def KeepsAlong (M : Model) (V : Levels L) (G : Forest → L → Expr → Prop) (f : Expr → Expansion Expr) : Prop :=
  ∀ {l : L} {e e' : Expr} {p p' : Progress}, V.outer l → p.forest.Linked M.catalog →
    Runs (f e) M p e' p' → G p.forest l e → G p'.forest l e'

/-- The property holds of merged rows and of both selectors that are left over them. -/
def Merged (G : L → Expr → Prop) (l : L) (m : MergedStreams) : Prop :=
  G l m.stream.toExpr ∧ G l m.outerSelector ∧ G l m.innerSelector

/-- What makes `G` a property that expansions keep at the outer levels. -/
structure Durable (M : Model) (V : Levels L) (G : Forest → L → Expr → Prop) : Prop where
  keeps {f g : Forest} {l : L} {e : Expr} (hfg : f.Keeps g) (h : G f l e) : G g l e
  entitySet (f : Forest) (l : L) (entity : String) : G f l (.entitySet entity)
  null (f : Forest) (l : L) : G f l .null
  ref (f : Forest) (l : L) (n : NodeId) : G f l (f.ref n)
  pairing (f : Forest) (l : L) (x y : String) : G f l (pairing x y)
  lambda {f : Forest} {l : L} {params : List String} {body : Expr} :
    G f l (.lambda params body) ↔ G f (V.under params l) body
  stream {f : Forest} {l : L} {rows selector : Expr} {frame : StreamFrame} (hl : V.outer l) :
    G f l (.stream rows selector frame) ↔ G f (V.rows l) rows ∧ G f l selector
  call {f : Forest} {l : L} {operator : Operator} {arguments : List Expr}
    (h : ∀ a ∈ arguments, G f l a) : G f l (.call operator arguments none)
  arguments {f : Forest} {l : L} {operator : Operator} {arguments : List Expr} {note : Option CallNote}
    (hl : V.outer l) (h : G f l (.call operator arguments note)) : ∀ a ∈ arguments, G f l a
  /-- A filter of a query is a filter of rows, with the same note. -/
  filter {f : Forest} {l : L} {source lambda rows lambda' : Expr} {note : Option CallNote} (hl : V.outer l)
    (h : G f l (.call .filter [source, lambda] note)) (hrows : G f (V.rows l) rows)
    (hlambda : G f (V.rows l) lambda') : G f (V.rows l) (.call .filter [rows, lambda'] note)
  weaken {f : Forest} {l : L} {e : Expr} (params : List String) (h : G f l e) : G f (V.under params l) e
  inside {f : Forest} {l : L} {e : Expr} (hl : V.outer l) (h : G f l e) : G f (V.rows l) e
  substitute {f : Forest} {l : L} {e d : Expr} {x : String} (hl : V.outer l) (h : G f (V.under [x] l) e)
    (hd : G f l d) : G f l (e.substitute x d)
  rewrite : KeepsAlong M V G rewriteBody
  subqueries (n : Nat) (hrec : KeepsAlong M V G (expandWithin n)) :
    KeepsAlong M V G (expandSubqueries (expandWithin n))
  resolve {l : L} {s : Stream} {e e' : Expr} {p p' : Progress} (hl : V.outer l)
    (h : Runs (s.resolve e) M p e' p') (he : G p.forest (V.under [s.parameter] (V.rows l)) e) :
    G p.forest (V.under [s.parameter] (V.rows l)) e'
  joinNode {l : L} {s s' : Stream} {n : NodeId} {p p' : Progress} (hl : V.outer l)
    (hp : p.forest.Linked M.catalog) (h : Runs (joinNode s n) M p s' p') (hs : G p.forest l s.toExpr) :
    G p.forest l s'.toExpr
  /-- Two streams are joined as the query says. -/
  join {l : L} {outer inner : Stream} {outerKey innerKey : Expr} {note : JoinNote} {m : MergedStreams}
    {p p' : Progress} (hl : V.outer l) (kind : note.kind = .inner) (plain : note.navigation = none)
    (h : Runs (mergeStreams outer inner (.keyed outerKey innerKey note)) M p m p')
    (ho : G p.forest l outer.toExpr) (hi : G p.forest l inner.toExpr)
    (hk : G p.forest (V.under [outer.parameter] (V.rows l)) outerKey)
    (hj : G p.forest (V.under [inner.parameter] (V.rows l)) innerKey) : Merged (G p.forest) l m
  /-- The chain of a hoisted collection is put over another source. -/
  opened {f : Forest} {l : L} {e root : Expr} {plan : HoistPlan} (hl : V.outer l)
    (hplan : HoistPlan.ofSelector e = .ok plan) (he : G f l e) (hroot : G f l root) :
    G f l (plan.chain.withChainRoot root)
  /-- A hoisted collection is joined to the rows of its owners. -/
  hoist {l : L} {n : Nat} {e : Expr} {outer inner : Stream} {plan : HoistPlan} {m : MergedStreams}
    {p q p' : Progress} (hl : V.outer l) (hp : p.forest.Linked M.catalog)
    (hplan : HoistPlan.ofSelector e = .ok plan) (he : G p.forest l e)
    (found : Runs (expandHoisted (expandWithin n) plan) M p (some inner) q)
    (h : Runs (hoist outer inner plan) M q m p') (ho : G q.forest l outer.toExpr)
    (hi : G q.forest l inner.toExpr) : Merged (G p'.forest) l m

namespace Durable

variable {l : L} {e e' : Expr} {p p' : Progress} {s s' : Stream} {n : Nat}

section Bodies

variable (hG : Durable M V G) {x : String} {body : Expr} {b : JoinedBody}

include hG

theorem toExpr {f : Forest} (hl : V.outer l) : G f l s.toExpr ↔ G f (V.rows l) s.rows ∧ G f l s.selector :=
  hG.stream hl

/-- Nothing is said of the frame of a stream. -/
theorem reframe {f : Forest} {rows selector : Expr} {frame frame' : StreamFrame} (hl : V.outer l)
    (h : G f l (.stream rows selector frame)) : G f l (.stream rows selector frame') :=
  (hG.stream hl).2 ((hG.stream hl).1 h)

theorem joinReferenced {es : List Expr} {k : Nat} (hl : V.outer l) (hp : p.forest.Linked M.catalog)
    (h : Runs (joinReferenced s es) M p (s', k) p') (hs : G p.forest l s.toExpr) : G p'.forest l s'.toExpr := by
  refine (joinReferenced_keeps (P := fun q t => q.forest.Linked M.catalog ∧ G q.forest l t.toExpr)
    (fun {p p' s s' n} ht hrun => ?_) (fun ht => ⟨ht.1, hG.reframe hl ht.2⟩) h ⟨hp, hs⟩).2
  obtain ⟨linked, keeps⟩ := joinNode_onward hrun ht.1
  exact ⟨linked, hG.keeps keeps (hG.joinNode hl ht.1 hrun ht.2)⟩

theorem prepareBody (hrec : KeepsAlong M V G (expandWithin n)) :
    KeepsAlong M V G (prepareBody (expandWithin n)) := by
  intro l e e' p p' hl hp h he
  simp only [EntityQuery.prepareBody, Runs.bind_iff] at h
  obtain ⟨e₁, q, hrewrite, hexpand⟩ := h
  exact hG.subqueries n hrec hl (rewriteBody_onward _ hrewrite hp).1 hexpand (hG.rewrite hl hp hrewrite he)

omit hG in
theorem expandSource (hrec : KeepsAlong M V G (expandWithin n)) (hl : V.outer l)
    (hp : p.forest.Linked M.catalog) (h : Runs (expandSource (expandWithin n) e) M p s p')
    (he : G p.forest l e) : G p'.forest l s.toExpr :=
  hrec hl hp (Runs.expandSource h).1 he

theorem joinBody (hrec : KeepsAlong M V G (expandWithin n)) (hl : V.outer l) (hp : p.forest.Linked M.catalog)
    (h : Runs (joinBody (expandWithin n) s x body) M p b p') (hs : G p.forest l s.toExpr)
    (hbody : G p.forest l (.lambda [x] body)) : G p'.forest l b.stream.toExpr ∧ G p'.forest l b.body := by
  obtain ⟨q, s₁, k, hprepare, hjoin, hstream⟩ := Runs.joinBody h
  obtain ⟨hq, before⟩ := prepareBody_onward (expandWithin_onward n) _ hprepare hp
  obtain ⟨-, after⟩ := joinReferenced_onward hjoin hq
  have composed := hG.substitute hl (hG.lambda.1 hbody) ((hG.toExpr hl).1 hs).2
  have joined := hG.joinReferenced hl hq hjoin (hG.keeps before hs)
  refine ⟨?_, hG.keeps after (hG.prepareBody hrec hl hp hprepare composed)⟩
  rcases hstream with hstream | hstream <;> exact hstream ▸ hG.reframe hl joined

theorem resolvedBody (hrec : KeepsAlong M V G (expandWithin n)) (hl : V.outer l)
    (hp : p.forest.Linked M.catalog) (h : Runs (resolvedBody (expandWithin n) s x body) M p b p')
    (hs : G p.forest l s.toExpr) (hbody : G p.forest l (.lambda [x] body)) :
    G p'.forest l b.stream.toExpr ∧ G p'.forest (V.under [b.stream.parameter] (V.rows l)) b.body := by
  obtain ⟨b₀, q, hjoin, hresolve, hstream, -⟩ := Runs.resolvedBody h
  obtain ⟨hs', hb⟩ := hG.joinBody hrec hl hp hjoin hs hbody
  rw [hstream, Stream.resolve_forest hresolve]
  exact ⟨hs', hG.resolve hl hresolve (hG.weaken _ (hG.inside hl hb))⟩

theorem brought {source lambda : Expr} (hrec : KeepsAlong M V G (expandWithin n)) (hl : V.outer l)
    (hp : p.forest.Linked M.catalog) (h : Brought (expandWithin n) M p source lambda b p')
    (hsource : G p.forest l source) (hlambda : G p.forest l lambda) :
    G p'.forest l b.stream.toExpr ∧ G p'.forest (V.rows l) b.toLambda := by
  obtain ⟨x, body, s, q, rfl, hrun, hbody⟩ := h
  obtain ⟨hq, keeps⟩ := expandSource_onward (expandWithin_onward n) _ hrun hp
  obtain ⟨hs, hb⟩ := hG.resolvedBody hrec hl hq hbody (expandSource hrec hl hp hrun hsource)
    (hG.keeps keeps hlambda)
  exact ⟨hs, hG.lambda.2 hb⟩

end Bodies

section Operators

variable (hG : Durable M V G) {source lambda : Expr} {outer inner : Stream} {m : MergedStreams}

include hG

theorem holds_keeps {f g : Forest} (hfg : f.Keeps g) (h : Merged (G f) l m) : Merged (G g) l m :=
  ⟨hG.keeps hfg h.1, hG.keeps hfg h.2.1, hG.keeps hfg h.2.2⟩

theorem mergeStreams_correlated {f : Forest} (hl : V.outer l)
    (h : Runs (mergeStreams outer inner .correlated) M p m p') (ho : G f l outer.toExpr)
    (hi : G f (V.under [outer.parameter] (V.rows l)) inner.rows) (hsel : G f l inner.selector) :
    Merged (G f) l m := by
  obtain ⟨_, -, rfl, -⟩ := Runs.mergeStreams_correlated h
  rw [hG.toExpr hl] at ho
  refine ⟨(hG.toExpr hl).2 ⟨hG.call ?_, hG.null _ _⟩, ho.2, hsel⟩
  simp [ho.1, hG.lambda, hi, hG.pairing]

theorem selectResult (hrec : KeepsAlong M V G (expandWithin n)) (hl : V.outer l)
    (hp : p.forest.Linked M.catalog) {result : Option ResultSelector}
    (h : Runs (selectResult (expandWithin n) m result) M p s p') (hm : Merged (G p.forest) l m)
    (hresult : ∀ x y body, result = some (x, y, body) → G p.forest l (.lambda [x, y] body)) :
    G p'.forest l s.toExpr := by
  obtain ⟨hrows, ho, hi⟩ := hm
  rcases Runs.selectResult h with ⟨-, rfl, rfl⟩ | ⟨x, y, body, body', q, s₁, k, rfl, hprepare, hjoin, rfl⟩
  · exact (hG.toExpr hl).2 ⟨((hG.toExpr hl).1 hrows).1, hi⟩
  · obtain ⟨hq, before⟩ := prepareBody_onward (expandWithin_onward n) _ hprepare hp
    obtain ⟨-, after⟩ := joinReferenced_onward hjoin hq
    have hbody := hG.lambda.1 (hresult x y body rfl)
    rw [V.under_cons] at hbody
    have composed := hG.substitute hl (hG.substitute (V.outer_under [y] hl) hbody (hG.weaken [y] ho)) hi
    exact (hG.toExpr hl).2 ⟨((hG.toExpr hl).1 (hG.joinReferenced hl hq hjoin (hG.keeps before hrows))).1,
      hG.keeps after (hG.prepareBody hrec hl hp hprepare composed)⟩

theorem expandSelect (hrec : KeepsAlong M V G (expandWithin n)) (hl : V.outer l)
    (hp : p.forest.Linked M.catalog) (h : Runs (expandSelect (expandWithin n) source lambda) M p s p')
    (hsource : G p.forest l source) (hlambda : G p.forest l lambda) : G p'.forest l s.toExpr := by
  obtain ⟨x, body, s₀, q, b, q', rfl, hrun, hbody, halias, needsProjection, rfl⟩ := Runs.expandSelect_cases h
  have onward := expandWithin_onward (M := M) n
  obtain ⟨hq, before⟩ := expandSource_onward onward _ hrun hp
  obtain ⟨hq', -⟩ := joinBody_onward onward hbody hq
  obtain ⟨-, after⟩ := aliasFields_onward _ halias hq'
  obtain ⟨hs, hb⟩ := hG.joinBody hrec hl hq hbody (expandSource hrec hl hp hrun hsource)
    (hG.keeps before hlambda)
  exact hG.keeps after ((hG.toExpr hl).2 ⟨((hG.toExpr hl).1 hs).1, hb⟩)

theorem expandJoin (hrec : KeepsAlong M V G (expandWithin n)) (hl : V.outer l) (hp : p.forest.Linked M.catalog)
    {outer inner outerKey innerKey result : Expr}
    (h : Runs (expandJoin (expandWithin n) outer inner outerKey innerKey result) M p s p')
    (ho : G p.forest l outer) (hi : G p.forest l inner) (hk : G p.forest l outerKey)
    (hj : G p.forest l innerKey) (hresult : G p.forest l result) : G p'.forest l s.toExpr := by
  obtain ⟨x, y, z, w, outerKey', innerKey', result', outer', inner', b, c, q₁, q₂, q₃, q₄, q₅, m, note,
    rfl, rfl, rfl, houter, hinner, hb, hc, kind, plain, hmerge, hselect⟩ := Runs.expandJoin h
  have onward := expandWithin_onward (M := M) n
  obtain ⟨h₁, k₁⟩ := expandSource_onward onward _ houter hp
  obtain ⟨h₂, k₂⟩ := expandSource_onward onward _ hinner h₁
  obtain ⟨h₃, k₃⟩ := resolvedBody_onward onward hb h₂
  obtain ⟨h₄, k₄⟩ := resolvedBody_onward onward hc h₃
  obtain ⟨h₅, k₅⟩ := mergeStreams_keyed_onward hmerge h₄
  obtain ⟨hbs, hbb⟩ := hG.resolvedBody hrec hl h₂ hb
    (hG.keeps k₂ (expandSource hrec hl hp houter ho)) (hG.keeps (k₁.trans k₂) hk)
  obtain ⟨hcs, hcb⟩ := hG.resolvedBody hrec hl h₃ hc
    (hG.keeps k₃ (expandSource hrec hl h₁ hinner (hG.keeps k₁ hi))) (hG.keeps (k₁.trans (k₂.trans k₃)) hj)
  have merged := hG.join hl kind plain hmerge (hG.keeps k₄ hbs) hcs (hG.keeps k₄ hbb) hcb
  refine hG.selectResult hrec hl h₅ hselect (hG.holds_keeps k₅ merged) ?_
  rintro _ _ _ ⟨⟩
  exact hG.keeps (k₁.trans (k₂.trans (k₃.trans (k₄.trans k₅)))) hresult

theorem rowWise {operator : Operator} {rows : Expr} {note note' : Option CallNote} {b : JoinedBody}
    {frame : StreamFrame} (hrec : KeepsAlong M V G (expandWithin n)) (hl : V.outer l)
    (hp : p.forest.Linked M.catalog) (he : G p.forest l (.call operator [source, lambda] note))
    (h : Brought (EntityQuery.expandWithin n) M p source lambda b p')
    (hrows : rows = b.stream.rows ∨ rows = .call .asOrdered [b.stream.rows] none)
    (hnote : note' = if operator = .filter then note else none) :
    G p'.forest l (.stream (.call operator [rows, b.toLambda] note') b.stream.selector frame) := by
  have parts := hG.arguments hl he
  obtain ⟨-, keeps⟩ := h.onward (expandWithin_onward n) hp
  obtain ⟨hs, hb⟩ := hG.brought hrec hl hp h (parts _ (.head _)) (parts _ (.tail _ (.head _)))
  obtain ⟨hs, hsel⟩ := (hG.toExpr hl).1 hs
  have hsource : G p'.forest (V.rows l) rows := by
    rcases hrows with rfl | rfl
    · exact hs
    · exact hG.call (List.forall_mem_singleton.2 hs)
  refine (hG.stream hl).2 ⟨?_, hsel⟩
  split at hnote
  · next hfilter =>
    subst hfilter hnote
    exact hG.filter hl (hG.keeps keeps he) hsource hb
  · subst hnote
    exact hG.call (List.forall_mem_cons.2 ⟨hsource, List.forall_mem_singleton.2 hb⟩)

theorem rootStream {entity : String} (hl : V.outer l) (h : Runs (rootStream entity) M p s p') :
    G p'.forest l s.toExpr := by
  simp only [EntityQuery.rootStream, Runs.bind_iff, Runs.entityType_iff, Runs.growForest_iff,
    Runs.forest_iff, Runs.ref_iff, Runs.pure_iff] at h
  obtain ⟨t, _, ⟨-, rfl⟩, m, q, -, f, _, ⟨rfl, rfl⟩, d, _, ⟨rfl, rfl⟩, rfl, rfl⟩ := h
  exact (hG.toExpr hl).2 ⟨hG.entitySet _ _ _, hG.ref _ _ _⟩

theorem materialize {entity? : Option String} (hl : V.outer l) (hp : p.forest.Linked M.catalog)
    (h : Runs (materialize s entity?) M p s' p') (hs : G p.forest l s.toExpr) : G p'.forest l s'.toExpr := by
  obtain ⟨-, keeps⟩ := materialize_onward h hp
  obtain ⟨hrows, hsel⟩ := (hG.toExpr hl).1 hs
  rcases Runs.materialize h with ⟨rfl, rfl⟩ | ⟨body, q, source, q', hbody, -, hforest, rfl⟩
  · exact hs
  · have hbody := hG.resolve hl hbody (hG.weaken _ (hG.inside hl hsel))
    refine (hG.toExpr hl).2 ⟨hG.call ?_, hforest ▸ hG.ref _ _ _⟩
    simp [hG.keeps keeps hrows, hG.lambda, hG.keeps keeps hbody]

theorem expandHoisted {plan : HoistPlan} (hrec : KeepsAlong M V G (expandWithin n)) (hl : V.outer l)
    (hp : p.forest.Linked M.catalog) {found : Option Stream}
    (h : Runs (expandHoisted (expandWithin n) plan) M p found p')
    (hplan : HoistPlan.ofSelector e = .ok plan) (he : G p.forest l e) :
    ∀ s, found = some s → G p'.forest l s.toExpr := by
  obtain ⟨root, q, inner, q', hroot, hinner, hforest, hfound⟩ := Runs.expandHoisted h
  rintro s rfl
  obtain rfl := Option.some.inj (hfound.resolve_left (by simp))
  obtain ⟨hq, keeps⟩ := rootStream_onward _ hroot hp
  rw [hforest]
  exact expandSource hrec hl hq hinner (hG.opened hl hplan (hG.keeps keeps he) (hG.rootStream hl hroot))

theorem correlate {collection : Expr} (hrec : KeepsAlong M V G (expandWithin n)) (hl : V.outer l)
    (hp : p.forest.Linked M.catalog) (h : Runs (correlate (expandWithin n) outer collection) M p m p')
    (ho : G p.forest l outer.toExpr) (hc : G p.forest l collection) : Merged (G p'.forest) l m := by
  obtain ⟨inner, q, outer', k, q₁, rows, q₂, q₃, hinner, hjoin, hrows, hmerge, hq₃⟩ := Runs.correlate h
  obtain ⟨hq, before⟩ := expandSource_onward (expandWithin_onward n) _ hinner hp
  obtain ⟨hq₁, joined⟩ := joinReferenced_onward hjoin hq
  have hforest : q₃.forest = q₁.forest := hq₃.trans (Stream.resolve_forest hrows)
  obtain ⟨-, merged⟩ := mergeStreams_correlated_onward hmerge (hforest ▸ hq₁)
  obtain ⟨hirows, hisel⟩ := (hG.toExpr hl).1 (hG.keeps joined (expandSource hrec hl hp hinner hc))
  refine hG.holds_keeps merged ?_
  rw [hforest]
  refine hG.mergeStreams_correlated hl hmerge ?_ ?_ hisel
  · exact hG.joinReferenced hl hq hjoin (hG.keeps before ho)
  · exact hG.resolve hl hrows (hG.weaken _ hirows)

theorem expandSelectMany (hrec : KeepsAlong M V G (expandWithin n)) (hl : V.outer l)
    (hp : p.forest.Linked M.catalog) {source lambda : Expr} {result : Option Expr}
    (h : Runs (expandSelectMany (expandWithin n) source lambda result) M p s p')
    (hsource : G p.forest l source) (hlambda : G p.forest l lambda)
    (hresult : ∀ d, result = some d → G p.forest l d) : G p'.forest l s.toExpr := by
  obtain ⟨x, body, result', outer, q₁, collection, q₂, q₃, m, q₄, rfl, hresult', houter, hbody, hmerge,
    hselect⟩ := Runs.expandSelectMany h
  have onward := expandWithin_onward (M := M) n
  obtain ⟨h₁, k₁⟩ := expandSource_onward onward _ houter hp
  obtain ⟨h₂, k₂⟩ := rewriteBody_onward _ hbody h₁
  have ho := expandSource hrec hl hp houter hsource
  have hcollection : G q₂.forest l collection := hG.rewrite hl h₁ hbody
    (hG.substitute hl (hG.lambda.1 (hG.keeps k₁ hlambda)) ((hG.toExpr hl).1 ho).2)
  obtain ⟨h₃, k₃, h₄, k₄⟩ := merged_onward onward h₂ hmerge
  have ho := hG.keeps (k₂.trans k₃) ho
  have hm : Merged (G q₄.forest) l m := by
    rcases hmerge with ⟨hcorrelate, -⟩ | ⟨plan, inner, hplan, hinner, hhoist⟩
    · exact hG.correlate hrec hl h₃ hcorrelate ho (hG.keeps k₃ hcollection)
    · exact hG.hoist hl h₂ hplan hcollection hinner hhoist ho
        (hG.expandHoisted hrec hl h₂ hinner hplan hcollection inner rfl)
  refine hG.selectResult hrec hl h₄ hselect hm ?_
  rintro y z d rfl
  rcases hresult' with ⟨-, ⟨⟩⟩ | ⟨_, _, _, rfl, ⟨⟩⟩
  exact hG.keeps (k₁.trans (k₂.trans (k₃.trans k₄))) (hresult _ rfl)

end Operators

section Queries

variable (hG : Durable M V G)

include hG

theorem splitPredicate {f : Forest} {source : Expr} {rest : List Expr} (operator : Operator)
    (hs : G f l source) (hr : ∀ a ∈ rest, G f l a) : G f l (splitPredicate operator source rest).1 ∧
      ∀ a ∈ (splitPredicate operator source rest).2, G f l a := by
  unfold EntityQuery.splitPredicate
  split
  · exact ⟨hG.call (by simpa [hs] using hr), nofun⟩
  · exact ⟨hs, hr⟩

theorem expandTerminal (hrec : KeepsAlong M V G (expandWithin n)) (hl : V.outer l)
    (hp : p.forest.Linked M.catalog) {operator : Operator} {source : Expr} {rest : List Expr}
    (h : Runs (expandTerminal (expandWithin n) operator (source :: rest)) M p e' p')
    (hs : G p.forest l source) (hr : ∀ a ∈ rest, G p.forest l a) : G p'.forest l e' := by
  obtain ⟨s, q, hsource, h⟩ := Runs.expandTerminal h
  obtain ⟨hsplit, hrest⟩ := hG.splitPredicate operator hs hr
  obtain ⟨hq, before⟩ := expandSource_onward (expandWithin_onward n) _ hsource hp
  have hstream := expandSource hrec hl hp hsource hsplit
  rcases h with ⟨-, rfl, rfl⟩ | ⟨-, rfl, rfl⟩ | ⟨-, entity?, s', q', -, hmaterialize, hforest, rfl⟩
  · exact hG.call (List.forall_mem_cons.2 ⟨hstream, fun a ha => hG.keeps before (hrest a ha)⟩)
  · exact hG.reframe hl hstream
  · obtain ⟨hq', made⟩ := materialize_onward hmaterialize hq
    obtain ⟨hrows, hsel⟩ := (hG.toExpr hl).1 (hG.materialize hl hq hmaterialize hstream)
    have after : q'.forest.Keeps p'.forest := by
      rcases hforest with hforest | hforest <;> rw [hforest]
      · exact .refl _
      · exact (Forest.Onward.foldl (fun f m => Forest.onward_makeOptional m) _ _ hq').2
    refine hG.keeps after ((hG.toExpr hl).2 ⟨hG.call (List.forall_mem_cons.2 ⟨hrows, fun a ha => ?_⟩), hsel⟩)
    exact hG.inside hl (hG.keeps (before.trans made) (hrest a ha))

/-- Expansion to any depth keeps the property at every outer level. -/
theorem expandWithin (n : Nat) : KeepsAlong M V G (expandWithin n) := by
  induction n with
  | zero => exact fun _ _ h => (Runs.throw_iff.1 h).elim
  | succ n ih =>
    intro l e e' p p' hl hp h he
    unfold EntityQuery.expandWithin at h
    split at h
    · simp only [Runs.bind_iff, Runs.pure_iff] at h
      obtain ⟨s, _, hroot, rfl, rfl⟩ := h
      exact hG.rootStream hl hroot
    · obtain ⟨rfl, rfl⟩ := Runs.pure_iff.1 h
      exact he
    · have parts := hG.arguments hl he
      cases Runs.expandCall h with
      | rowWise _ brought hrows hnote => exact hG.rowWise ih hl hp he brought hrows hnote
      | select run =>
        exact hG.expandSelect ih hl hp run (parts _ (.head _)) (parts _ (.tail _ (.head _)))
      | join run =>
        exact hG.expandJoin ih hl hp run (parts _ (by simp)) (parts _ (by simp)) (parts _ (by simp))
          (parts _ (by simp)) (parts _ (by simp))
      | selectMany run =>
        refine hG.expandSelectMany ih hl hp run (parts _ (by simp)) (parts _ (by simp)) fun d hd => ?_
        exact parts d (.tail _ (.tail _ (List.mem_of_mem_head? hd)))
      | terminal _ _ _ run =>
        exact hG.expandTerminal ih hl hp run (parts _ (.head _)) fun a ha => parts a (.tail _ ha)
    · exact (Runs.throw_iff.1 h).elim

end Queries

end Durable

end EntityQuery
