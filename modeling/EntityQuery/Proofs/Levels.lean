import EntityQuery.Proofs.Durability

/-!
# Properties of the parts

`Invariant` says what has to be shown of a property of the expressions at each level that does not depend on
the forest: that it is made up of the parts of a node, that it survives when something is put for a
parameter, and that it is kept by the passes that walk through an expression. Such a property is durable, so
every expansion keeps it (`Invariant.expandWithin`).
-/

namespace EntityQuery

open EntityQuery.Expr

/-- The node has no level of its own for its parts. -/
def Expr.isEven : Expr → Bool
  | .nullSafeEqual .. | .lambda .. | .stream .. => false
  | _ => true

variable {L : Type} {M : Model} {V : Levels L} {G : L → Expr → Prop}

/-- At outer levels the step keeps what holds of an expression, whatever the forest is. -/
def KeepsAt (M : Model) (V : Levels L) (G : L → Expr → Prop) (f : Expr → Expansion Expr) : Prop :=
  KeepsAlong M V (fun _ => G) f

/-- What makes `G` a property that expansions keep at the outer levels. -/
structure Invariant (M : Model) (V : Levels L) (G : L → Expr → Prop) : Prop where
  node {l : L} {e : Expr} (even : e.isEven = true) (other : ∀ x, e ≠ .param x) :
    G l e ↔ ∀ c ∈ e.children, G l c
  param {l : L} {x : String} {params : List String} (h : x ∈ params) : G (V.under params l) (.param x)
  lambda {l : L} {params : List String} {body : Expr} :
    G l (.lambda params body) ↔ G (V.under params l) body
  stream {l : L} {rows selector : Expr} {frame : StreamFrame} (hl : V.outer l) :
    G l (.stream rows selector frame) ↔ G (V.rows l) rows ∧ G l selector
  scalar {l : L} {e : Expr} (h : e.Over (G l)) : G l e
  weaken {l : L} {e : Expr} (params : List String) (h : G l e) : G (V.under params l) e
  /-- A parameter that is not mentioned need not be bound. -/
  strengthen {l : L} {e : Expr} {x : String} (hl : V.outer l) (h : G (V.under [x] l) e)
    (free : e.mentions x = false) : G l e
  inside {l : L} {e : Expr} (hl : V.outer l) (h : G l e) : G (V.rows l) e
  substitute {l : L} {e d : Expr} {x : String} (hl : V.outer l) (h : G (V.under [x] l) e) (hd : G l d) :
    G l (e.substitute x d)
  rename {l : L} {e : Expr} {x : String} (y : String) (hl : V.outer l) (h : G (V.under [x] (V.rows l)) e) :
    G (V.under [y] (V.rows l)) (e.substitute x (.param y))
  rewrite : KeepsAt M V G rewriteBody
  subqueries (n : Nat) (hrec : KeepsAt M V G (expandWithin n)) : KeepsAt M V G (expandSubqueries (expandWithin n))
  resolve {l : L} {s : Stream} {e e' : Expr} {p p' : Progress} (hl : V.outer l)
    (h : Runs (s.resolve e) M p e' p') (he : G (V.under [s.parameter] (V.rows l)) e) :
    G (V.under [s.parameter] (V.rows l)) e'

/-- What expanding does to a query, and what an expression takes over from its parts, is done by expanding the
queries in an expression. -/
theorem Runs.expandSubqueries_keeps {R : Expr → Expr → Prop} {n : Nat} {e e' : Expr} {p p' : Progress}
    (refl : ∀ e, R e e)
    (hrec : ∀ {e e' p p'}, p.forest.Linked M.catalog → Runs (expandWithin n e) M p e' p' → R e e')
    (parts : ∀ {e e'}, (∀ rows selector frame, e ≠ .stream rows selector frame) → SameHead R e e' → R e e')
    (hp : p.forest.Linked M.catalog) (h : Runs (expandSubqueries (expandWithin n) e) M p e' p') : R e e' := by
  refine Runs.descend_linked (fun _ _ hat => subqueryAt_onward (expandWithin_onward n) hat)
    (fun {e x p e' p'} hat hp _ h => ?_) (fun hat head => parts ?_ head) hp (.refl _) h
  · unfold subqueryAt at hat
    split at hat
    · cases hat
      obtain ⟨rfl, rfl⟩ := Runs.pure_iff.1 h
      exact refl _
    · split at hat <;> cases hat
      exact hrec hp h
    · cases hat
  · rintro rows selector frame rfl
    cases hat

namespace Invariant

variable {l : L} {e e' : Expr} {p p' : Progress} {s s' : Stream} {n : Nat}

section Nodes

variable (hG : Invariant M V G) {a b : Expr} {items : List Expr}

include hG

theorem leaf (even : e.isEven = true) (other : ∀ x, e ≠ .param x) (none : e.children = []) : G l e := by
  refine (hG.node even other).2 ?_
  rw [none]
  exact nofun

theorem entitySet (entity : String) : G l (.entitySet entity) := hG.leaf rfl (by nofun) rfl

theorem const (value : Literal) : G l (.const value) := hG.leaf rfl (by nofun) rfl

theorem ref (f : Forest) (m : NodeId) : G l (f.ref m) := hG.leaf rfl (by nofun) rfl

theorem member {name : String} : G l (.member a name) ↔ G l a :=
  (hG.node rfl (by nofun)).trans (by simp [children])

theorem binary {op : BinaryOp} : G l (.binary op a b) ↔ G l a ∧ G l b :=
  (hG.node rfl (by nofun)).trans (by simp [children])

theorem record {fields : List (String × Expr)} :
    G l (.record fields) ↔ ∀ a ∈ fields.map (·.2), G l a := hG.node rfl (by nofun)

theorem tuple : G l (.tuple items) ↔ ∀ a ∈ items, G l a := hG.node rfl (by nofun)

theorem call {operator : Operator} {note : Option CallNote} :
    G l (.call operator items note) ↔ ∀ a ∈ items, G l a := hG.node rfl (by nofun)

theorem key (h : ∀ a ∈ items, G l a) : G l (.key items) := by
  unfold Expr.key
  split
  · exact h _ (.head _)
  · exact hG.tuple.2 h

theorem pairing (outer inner : String) : G l (pairing outer inner) := by
  have own (x : String) (hx : x ∈ [outer, inner]) : G (V.under [outer, inner] l) (.param x) := hG.param hx
  simp [EntityQuery.pairing, pairRecord, hG.lambda, hG.record, own]

theorem toExpr (hl : V.outer l) : G l s.toExpr ↔ G (V.rows l) s.rows ∧ G l s.selector := hG.stream hl

end Nodes

section Joins

variable (hG : Invariant M V G) {outer inner : Expr} {outerKey innerKey : JoinKey} {note : JoinNote}

include hG

theorem keyedJoin (h : Runs (keyedJoin outer inner outerKey innerKey note) M p e p') (ho : G l outer)
    (hi : G l inner) (hk : G l outerKey.toExpr) (hj : G l innerKey.toExpr) : G l e := by
  obtain ⟨-, ⟨-, rfl⟩ | ⟨-, group, row, rfl⟩⟩ := Runs.keyedJoin_cases h
  · simp [innerJoin, hG.call, hG.pairing, ho, hi, hk, hj]
  · have hrow := hG.param (l := l) (List.mem_singleton_self row)
    simp [flattenedJoin, hG.call, hG.lambda, hG.member, hG.pairing, hrow, ho, hi, hk, hj]

theorem joinNode {m : NodeId} (hl : V.outer l) (h : Runs (joinNode s m) M p s' p') (hs : G l s.toExpr) :
    G l s'.toExpr := by
  obtain ⟨q, edge, path, outerKey, innerKey, target, note, rows, q', found, rfl, -, -⟩ :=
    Runs.joinNode h
  obtain ⟨hrows, hselector⟩ := (hG.toExpr hl).1 hs
  have own (x : String) : G (V.under [x] (V.rows l)) (.param x) := hG.param (List.mem_singleton_self x)
  refine (hG.toExpr hl).2 ⟨hG.keyedJoin found.joined hrows (hG.entitySet _) (hG.lambda.2 (hG.scalar ?_))
    (hG.lambda.2 (hG.scalar ?_)), hselector⟩
  · exact navigationColumns_owner_over (.readPath _ _ (own _))
  · exact navigationColumns_target_over (own _)

end Joins

section Hoisting

variable (hG : Invariant M V G) {plan : HoistPlan} {outer inner : Stream} {m : MergedStreams}

include hG

theorem mergeStreams_keyed {outerKey innerKey : Expr} {note : JoinNote} (hl : V.outer l)
    (h : Runs (mergeStreams outer inner (.keyed outerKey innerKey note)) M p m p')
    (ho : G l outer.toExpr) (hi : G l inner.toExpr)
    (hk : G (V.under [outer.parameter] (V.rows l)) outerKey)
    (hj : G (V.under [inner.parameter] (V.rows l)) innerKey) : Merged G l m := by
  obtain ⟨rows, q, q', -, -, hjoin, rfl, -⟩ := Runs.mergeStreams_keyed h
  have hkey : G (V.under [mergedName outer inner p.names] (V.rows l))
      (mergedKey outer inner p.names innerKey) := by
    rw [mergedKey]
    split
    · exact hG.rename _ hl hj
    · next hclash =>
      rw [mergedName, if_neg hclash]
      exact hj
  rw [hG.toExpr hl] at ho hi
  have hrows := hG.keyedJoin hjoin ho.1 hi.1 (hG.lambda.2 hk) (hG.lambda.2 hkey)
  exact ⟨(hG.toExpr hl).2 ⟨hrows, hG.const _⟩, ho.2, hi.2⟩

/-- A source in place of the one of a call. -/
theorem callOn {operator : Operator} {source source' : Expr} {rest : List Expr} {note : Option CallNote}
    (h : G l (.call operator (source :: rest) note)) (hs : G l source') :
    G l (.call operator (source' :: rest) note) :=
  hG.call.2 (List.forall_mem_cons.2 ⟨hs, fun a ha => hG.call.1 h a (.tail _ ha)⟩)

theorem navigationFilter? {filter : NavigationFilter} {rowWise : Bool}
    (h : e.navigationFilter? = some (filter, rowWise)) (he : G l e) : ∀ a ∈ filter.arguments, G l a := by
  induction e using children_induction generalizing rowWise with
  | step e ih =>
    unfold Expr.navigationFilter? at h
    split at h
    · cases h
      exact hG.call.1 he
    · obtain ⟨⟨filter', rowWise'⟩, hsource, heq⟩ := Option.map_eq_some_iff.1 h
      cases heq
      exact ih _ (by simp [children]) hsource (hG.call.1 he _ (.head _))
    · cases h

theorem withoutFilter (target : String) (he : G l e) : G l (e.withoutFilter target) := by
  induction e using children_induction with
  | step e ih =>
    unfold Expr.withoutFilter
    split
    · exact hG.entitySet _
    · exact hG.callOn he (ih _ (.head _) (hG.call.1 he _ (.head _)))
    · exact he

theorem withChainRoot {root : Expr} (he : G l e) (hr : G l root) : G l (e.withChainRoot root) := by
  induction e using children_induction with
  | step e ih =>
    unfold Expr.withChainRoot
    split
    · exact hG.callOn he (ih _ (.head _) (hG.call.1 he _ (.head _)))
    · exact hr

theorem tupleParts (he : G l e) : ∀ part ∈ e.tupleParts, G l part := by
  unfold Expr.tupleParts
  split
  · exact hG.tuple.1 he
  · simpa using he

/-- A plan is made of the parts of its selector. Only the inner key reads the row of the target. -/
theorem ofSelector (hl : V.outer l) (h : HoistPlan.ofSelector e = .ok plan) (he : G l e) :
    G l plan.chain ∧ (∀ part ∈ plan.innerKey, G (V.under [plan.parameter] l) part) ∧
      ∀ part ∈ plan.outerKey, G l part := by
  obtain ⟨chain, filter, body, rest, hchain, hfilter, harguments, hpair, hopened, -⟩ :=
    HoistPlan.ofSelector_eq_ok h
  have hchain : G l chain := by
    rcases hchain with rfl | ⟨further, note, rfl⟩
    · exact he
    · exact hG.call.1 he _ (.head _)
  have hbody : G (V.under [plan.parameter] l) body :=
    hG.lambda.1 (hG.navigationFilter? hfilter hchain (.lambda [plan.parameter] body) (by simp [harguments]))
  obtain ⟨guard, a, b, rfl, hkeys⟩ := Expr.keyPair?_eq_some hpair
  obtain ⟨-, ha, hb⟩ := hG.binary.1 hbody |>.imp_right hG.binary.1
  refine ⟨hopened ▸ hG.withoutFilter _ hchain, ?_⟩
  rcases hkeys with ⟨hi, ho, hm, -⟩ | ⟨hi, ho, hm, -⟩ <;> rw [hi, ho]
  · exact ⟨hG.tupleParts ha, hG.tupleParts (hG.strengthen hl hb hm)⟩
  · exact ⟨hG.tupleParts hb, hG.tupleParts (hG.strengthen hl ha hm)⟩

/-- Resolving several expressions over a stream. -/
theorem mapM_resolve {f : Expr → Expr} {es es' : List Expr} (hl : V.outer l)
    (h : Runs (es.mapM fun e => s.resolve (f e)) M p es' p') (hes : ∀ e ∈ es, G l (f e)) :
    ∀ e ∈ es', G (V.under [s.parameter] (V.rows l)) e := by
  induction es generalizing p es' with
  | nil =>
    obtain ⟨rfl, -⟩ := Runs.pure_iff.1 h
    exact nofun
  | cons e es ih =>
    simp only [List.mapM_cons, Runs.bind_iff, Runs.pure_iff] at h
    obtain ⟨d, q, hd, ds, q', hds, rfl, rfl⟩ := h
    exact List.forall_mem_cons.2 ⟨hG.resolve hl hd (hG.weaken _ (hG.inside hl (hes e (.head _)))),
      ih hds fun e he => hes e (.tail _ he)⟩

theorem hoist (hl : V.outer l) (h : Runs (hoist outer inner plan) M p m p') (ho : G l outer.toExpr)
    (hi : G l inner.toExpr) (hinner : ∀ part ∈ plan.innerKey, G (V.under [plan.parameter] l) part)
    (houter : ∀ part ∈ plan.outerKey, G l part) : Merged G l m := by
  obtain ⟨_, innerParts, q, outer', k, q₁, outerParts, q₂, q₃, note, hinnerParts, rfl, hjoin, houterParts, -, -,
    hmerge, -⟩ := Runs.hoist h
  have joined : G l outer'.toExpr := joinReferenced_keeps (P := fun _ t => G l t.toExpr)
    (fun ht hrun => hG.joinNode hl hrun ht) (fun ht => (hG.stream hl).2 ((hG.stream hl).1 ht)) hjoin ho
  refine hG.mergeStreams_keyed hl hmerge joined hi (hG.key ?_) (hG.key ?_)
  · exact hG.mapM_resolve (f := id) hl houterParts houter
  · exact hG.mapM_resolve hl hinnerParts fun e he => hG.substitute hl (hinner e he) (hG.ref _ _)

end Hoisting

/-- A property of the parts is durable. -/
theorem durable (hG : Invariant M V G) : Durable M V fun _ => G where
  keeps _ h := h
  entitySet _ _ := hG.entitySet
  null _ _ := hG.const _
  ref f _ := hG.ref f
  pairing _ _ := hG.pairing
  lambda := hG.lambda
  stream := hG.stream
  call := hG.call.2
  arguments _ h := hG.call.1 h
  filter _ _ hrows hlambda := hG.call.2 (List.forall_mem_cons.2 ⟨hrows, List.forall_mem_singleton.2 hlambda⟩)
  weaken := hG.weaken
  inside := hG.inside
  substitute := hG.substitute
  rewrite := hG.rewrite
  subqueries := hG.subqueries
  resolve := hG.resolve
  joinNode hl _ h hs := hG.joinNode hl h hs
  join hl _ _ h ho hi hk hj := hG.mergeStreams_keyed hl h ho hi hk hj
  opened hl hplan he hroot := hG.withChainRoot (hG.ofSelector hl hplan he).1 hroot
  hoist hl _ hplan he _ h ho hi :=
    have ⟨_, hinner, houter⟩ := hG.ofSelector hl hplan he
    hG.hoist hl h ho hi hinner houter

/-- Expansion to any depth keeps the property at every outer level. -/
theorem expandWithin (hG : Invariant M V G) (n : Nat) : KeepsAt M V G (expandWithin n) :=
  hG.durable.expandWithin n

end Invariant

end EntityQuery
