import EntityQuery.Proofs.Bounds
import EntityQuery.Proofs.Budgets
import EntityQuery.Proofs.Tables

/-!
# Expansion ends

Expansions nest no deeper than the query costs (`expandWithin_suffices`), and a query costs little more
than its size. So the bound on nested expansions is never used up, and no higher one makes a difference
(`expandQuery_ends`). Two things are asked for that: the names of navigations are no names of columns, since
key columns would be bound again (`expandWithin_endless`), and lambdas are arguments of calls and nothing
else, since a lambda that is put for a parameter could be applied to itself.
-/

namespace EntityQuery

open EntityQuery.Expr

variable {α β : Type} {M : Model} {p p' q : Progress} {k n i m : Nat}
  {bound : Nat → Nat} {ρ : Costing} {arguments rest : List Expr} {recur : Recur} {e source lambda : Expr} {s : Stream}

/-- The step does not stop because a bound is used up, if it starts with this progress. -/
def FinishesFrom (M : Model) (p : Progress) (x : Expansion α) : Prop :=
  Ends ExpansionError.Final x M p fun _ _ => True

namespace FinishesFrom

theorem pure (a : α) : FinishesFrom M p (Pure.pure a : Expansion α) := trivial

theorem throw {cause : ExpansionError} (h : cause.Final) :
    FinishesFrom M p (MonadExcept.throw cause : Expansion α) := h

theorem throw_bind {cause : ExpansionError} {f : α → Expansion β} (h : cause.Final) :
    FinishesFrom M p ((MonadExcept.throw cause : Expansion α) >>= f) := h

theorem bind {x : Expansion α} {f : α → Expansion β} (hx : FinishesFrom M p x)
    (hf : ∀ a q, Runs x M p a q → FinishesFrom M q (f a)) : FinishesFrom M p (x >>= f) :=
  Ends.bind_iff.2 ((hx.and_runs fun _ _ hrun => hrun).mono fun a q h => hf a q h.2)

end FinishesFrom

/-- `recur` expands all queries that cost no more than `n`. -/
structure Suffices (M : Model) (n : Nat) (recur : Recur) : Prop
    extends Thrifty M recur where
  ends : ∀ {e p ρ k}, p.forest.Linked M.catalog → Costs M.catalog p.forest ρ k e → k ≤ n →
    FinishesFrom M p (recur e)
  refuses : ∀ {params body p}, 1 ≤ n → FinishesFrom M p (recur (.lambda params body))

/-- The expression costs at most `n`, or it is a lambda with a body that does. -/
inductive Expr.Affordable (c : Catalog) (f : Forest) (n : Nat) : Expr → Prop where
  | costs {ρ : Costing} {e : Expr} (h : Costs c f ρ n e) : Affordable c f n e
  | lambda {ρ : Costing} {params : List String} {body : Expr} (h : Costs c f ρ n body) :
    Affordable c f n (.lambda params body)

theorem Expr.Affordable.part {c : Catalog} {f : Forest} {d : Expr} (h : e.Affordable c f n)
    (hstream : ∀ rows selector frame, e ≠ .stream rows selector frame) (hd : d ∈ e.children) :
    d.Affordable c f n := by
  cases h with
  | lambda hbody =>
    obtain rfl := List.mem_singleton.1 hd
    exact .costs hbody
  | costs he =>
    cases he with
    | param _ _ _ _ | rowRef _ _ _ => cases hd
    | member target _ =>
      obtain rfl := List.mem_singleton.1 hd
      exact .costs target
    | stream _ _ => exact absurd rfl (hstream _ _ _)
    | scalar _ _ parts => exact .costs (parts d hd)
    | call τ around bound mono values apart bodies deeper =>
      obtain ⟨i, hi⟩ := List.mem_iff_getElem?.1 hd
      have within : bound (i + 1) ≤ n :=
        (mono (List.getElem?_eq_some_iff.1 hi).1).trans (Nat.le_of_add_right_le deeper)
      cases hl : d.isLambda with
      | false => exact .costs ((values i d hi hl).le within)
      | true =>
        cases d with
        | lambda params body => exact .lambda ((bodies i params body hi).le within)
        | _ => cases hl

section Bodies

variable (hrec : Suffices M n recur)

theorem expandSource_finishes (h : FinishesFrom M p (recur e)) : FinishesFrom M p (expandSource recur e) := by
  refine .bind h fun d q _ => ?_
  split
  · split
    · exact .pure _
    · exact .throw nofun
  · exact .throw nofun

include hrec

theorem expandArgument_finishes (hp : p.forest.Linked M.catalog)
    (args : Arguments M.catalog p.forest ρ bound arguments) (ha : arguments[i]? = some e)
    (hn : bound (i + 1) ≤ n) : FinishesFrom M p (expandSource recur e) := by
  refine expandSource_finishes ?_
  cases hl : e.isLambda with
  | false => exact hrec.ends hp (args.values i e ha hl) hn
  | true =>
    cases e with
    | lambda params body => exact hrec.refuses ((args.pos ha).trans hn)
    | _ => cases hl

/-- The queries in a body are expanded, also those below the lambdas of calls that are left as they are. -/
theorem expandSubqueries_finishes (hp : p.forest.Linked M.catalog)
    (he : Costs M.catalog p.forest ρ k e) (hk : k ≤ n) : FinishesFrom M p (expandSubqueries recur e) := by
  refine (Ends.descend (I := fun q => q.forest.Linked M.catalog ∧ p.forest.Keeps q.forest)
    (S := fun _ _ => True) (P := Affordable M.catalog p.forest n) ⟨hp, .refl _⟩
    (.costs (he.le hk)) (fun e he hnone c hc => ?_) (fun e x q he hsome hq => ?_)
    fun _ _ _ _ => trivial).mono fun _ _ _ => trivial
  · refine he.part (fun rows selector frame heq => ?_) hc
    subst heq
    cases hnone
  · unfold subqueryAt at hsome
    split at hsome
    · cases hsome
      exact ⟨hq, trivial⟩
    · split at hsome <;> cases hsome
      cases he with
      | costs he =>
        refine (Ends.and_runs (hrec.ends hq.1 (he.keeps hq.2) (Nat.le_refl n)) fun d q' hrun =>
          hrec.links _ hrun hq.1).both fun d q' _ onward => ⟨⟨onward.1, hq.2.trans onward.2⟩, trivial⟩
    · cases hsome

include hrec

theorem prepareBody_finishes (hc : M.catalog.NamesApart) (hp : p.forest.Linked M.catalog)
    (he : Costs M.catalog p.forest ρ k e) (hk : k ≤ n) : FinishesFrom M p (prepareBody recur e) :=
  .bind (rewriteBody_finishes e M p) fun _ _ hrun =>
    expandSubqueries_finishes hrec (rewriteBody_onward e hrun hp).1 ((rewriteBody_rewritten hc hp hrun).costs he) hk

theorem joinBody_finishes {x : String} {body : Expr} (hc : M.catalog.NamesApart) (hp : p.forest.Linked M.catalog)
    (he : Costs M.catalog p.forest ρ k (body.substitute x s.selector)) (hk : k ≤ n) :
    FinishesFrom M p (joinBody recur s x body) :=
  .bind (prepareBody_finishes hrec hc hp he hk) fun _ q _ =>
    .bind (joinReferenced_finishes _ _ M q) fun _ _ _ => .pure _

theorem resolvedBody_finishes {x : String} {body : Expr} (hc : M.catalog.NamesApart)
    (hp : p.forest.Linked M.catalog) (he : Costs M.catalog p.forest ρ k (body.substitute x s.selector))
    (hk : k ≤ n) : FinishesFrom M p (resolvedBody recur s x body) :=
  .bind (joinBody_finishes hrec hc hp he hk) fun _ q _ => .bind (resolve_finishes _ _ M q) fun _ _ _ => .pure _

end Bodies

section Operators

variable (hc : M.catalog.NamesApart) (hrec : Suffices M n recur)

include hrec

/-- A lambda that is brought over the rows of a source, or the error that it is none. -/
theorem bring_finishes {operator : Operator} {f : String × Expr → Stream → Expansion α}
    (hp : p.forest.Linked M.catalog) (args : Arguments M.catalog p.forest ρ bound [source, lambda])
    (hn : bound 2 ≤ n)
    (hf : ∀ x body s q, q.forest.Linked M.catalog →
      Costs M.catalog q.forest ρ (bound 2) (body.substitute x s.selector) →
      FinishesFrom M q (f (x, body) s)) :
    FinishesFrom M p (do
      let l ← expectUnary operator lambda
      let s ← expandSource recur source
      f l s) := by
  refine .bind (expectUnary_finishes operator lambda M p) fun l q hl => ?_
  obtain ⟨rfl, rfl⟩ := Runs.expectUnary_iff.1 hl
  have within : bound 1 ≤ bound 2 := args.mono (Nat.le_succ 1)
  refine .bind (expandArgument_finishes (i := 0) hrec hp args rfl (within.trans hn)) fun s q hs => ?_
  obtain ⟨hq, keeps⟩ := expandSource_onward hrec.links _ hs hp
  have selector := (Stream.costs_iff.1 (expandSource_costs (i := 0) hrec.toThrifty hp args rfl hs)).2
  exact hf _ _ s q hq ((args.keeps keeps).substitute (i := 1) rfl selector (Nat.le_refl _))

include hc

theorem expandFilter_finishes {note : Option CallNote} (hp : p.forest.Linked M.catalog)
    (args : Arguments M.catalog p.forest ρ bound [source, lambda]) (hn : bound 2 ≤ n) :
    FinishesFrom M p (expandFilter recur source lambda note) :=
  bring_finishes hrec hp args hn fun _ _ _ _ hq he =>
    .bind (resolvedBody_finishes hrec hc hq he hn) fun _ _ _ => .pure _

theorem expandSelect_finishes (hp : p.forest.Linked M.catalog)
    (args : Arguments M.catalog p.forest ρ bound [source, lambda]) (hn : bound 2 ≤ n) :
    FinishesFrom M p (expandSelect recur source lambda) :=
  bring_finishes hrec hp args hn fun _ _ _ _ hq he =>
    .bind (joinBody_finishes hrec hc hq he hn) fun b q _ =>
      .bind (aliasFields_finishes b.body M q) fun _ _ _ => .bind trivial fun _ _ _ => .pure _

theorem expandOrderBy_finishes {operator : Operator} (hp : p.forest.Linked M.catalog)
    (args : Arguments M.catalog p.forest ρ bound [source, lambda]) (hn : bound 2 ≤ n) :
    FinishesFrom M p (expandOrderBy recur operator source lambda) :=
  bring_finishes hrec hp args hn fun _ _ _ _ hq he =>
    .bind (resolvedBody_finishes hrec hc hq he hn) fun _ _ _ => .pure _

theorem expandThenBy_finishes {operator : Operator} (hp : p.forest.Linked M.catalog)
    (args : Arguments M.catalog p.forest ρ bound [source, lambda]) (hn : bound 2 ≤ n) :
    FinishesFrom M p (expandThenBy recur operator source lambda) := by
  refine bring_finishes hrec hp args hn fun _ _ _ _ hq he => ?_
  dsimp only
  split
  · exact .throw_bind nofun
  · exact .bind (resolvedBody_finishes hrec hc hq he hn) fun _ _ _ => .pure _

/-- A result selector over rows that cost no more than what comes before it. -/
theorem selectResult_finishes {mg : MergedStreams} {result : Option ResultSelector}
    (hp : p.forest.Linked M.catalog) (args : Arguments M.catalog p.forest ρ bound arguments)
    (hresult : ∀ x y body, result = some (x, y, body) →
      arguments[i]? = some (.lambda [x, y] body) ∧ bound (i + 1) ≤ n)
    (ho : Costs M.catalog p.forest ρ (bound i) mg.outerSelector)
    (hi : Costs M.catalog p.forest ρ (bound i) mg.innerSelector) :
    FinishesFrom M p (selectResult recur mg result) := by
  unfold selectResult
  split
  · exact .pure _
  · next x y body =>
    obtain ⟨hlambda, hn⟩ := hresult x y body rfl
    refine .bind (prepareBody_finishes hrec hc hp (args.substitute_pair hlambda ho hi (Nat.le_refl _)) hn) ?_
    exact fun _ q _ => .bind (joinReferenced_finishes _ _ M q) fun _ _ _ => .pure _

theorem expandJoin_finishes {outer inner outerKey innerKey result : Expr} (hp : p.forest.Linked M.catalog)
    (args : Arguments M.catalog p.forest ρ bound [outer, inner, outerKey, innerKey, result])
    (hn : bound 5 ≤ n) : FinishesFrom M p (expandJoin recur outer inner outerKey innerKey result) := by
  have within {i j : Nat} (h : i ≤ j) : bound i ≤ bound j := args.mono h
  refine .bind (expectUnary_finishes .join outerKey M p) fun k _ hk => ?_
  obtain ⟨rfl, rfl⟩ := Runs.expectUnary_iff.1 hk
  refine .bind (expectUnary_finishes .join innerKey M p) fun l _ hl => ?_
  obtain ⟨rfl, rfl⟩ := Runs.expectUnary_iff.1 hl
  refine .bind (expectBinary_finishes .join result M p) fun d _ hd => ?_
  obtain ⟨rfl, rfl⟩ := Runs.expectBinary_iff.1 hd
  refine .bind (expandArgument_finishes (i := 0) hrec hp args rfl ((within (by decide)).trans hn))
    fun s q₁ hs => ?_
  obtain ⟨h₁, k₁⟩ := expandSource_onward hrec.links _ hs hp
  have outerCosts := expandSource_costs (i := 0) hrec.toThrifty hp args rfl hs
  have args := args.keeps k₁
  refine .bind (expandArgument_finishes (i := 1) hrec h₁ args rfl ((within (by decide)).trans hn))
    fun t q₂ ht => ?_
  obtain ⟨h₂, k₂⟩ := expandSource_onward hrec.links _ ht h₁
  have innerCosts := expandSource_costs (i := 1) hrec.toThrifty h₁ args rfl ht
  have args := args.keeps k₂
  have outerCosts := outerCosts.keeps k₂
  refine .bind (resolvedBody_finishes hrec hc h₂ (args.substitute (i := 2) rfl (Stream.costs_iff.1 outerCosts).2
    (within (by decide))) ((within (by decide)).trans hn)) fun b q₃ hb => ?_
  obtain ⟨h₃, k₃⟩ := resolvedBody_onward hrec.links hb h₂
  have outerCosts := resolvedBody_costs hc hrec.toThrifty h₂ hb outerCosts
  have args := args.keeps k₃
  have innerCosts := innerCosts.keeps k₃
  refine .bind (resolvedBody_finishes hrec hc h₃ (args.substitute (i := 3) rfl (Stream.costs_iff.1 innerCosts).2
    (within (by decide))) ((within (by decide)).trans hn)) fun c q₄ hc' => ?_
  obtain ⟨h₄, k₄⟩ := resolvedBody_onward hrec.links hc' h₃
  have innerCosts := resolvedBody_costs hc hrec.toThrifty h₃ hc' innerCosts
  dsimp only
  split
  · exact .throw_bind nofun
  refine .bind trivial fun f q hf => ?_
  obtain ⟨rfl, rfl⟩ := Runs.forest_iff.1 hf
  refine .bind (mergeStreams_finishes _ _ _ M _) fun mg q₅ hmerge => ?_
  obtain ⟨h₅, k₅⟩ := mergeStreams_keyed_onward hmerge h₄
  obtain ⟨-, hout, hin⟩ := mergeStreams_rows hmerge
  refine selectResult_finishes (i := 4) hc hrec h₅ (args.keeps (k₄.trans k₅)) ?_ ?_ ?_
  · rintro _ _ _ ⟨⟩
    exact ⟨rfl, hn⟩
  · rw [hout]
    exact ((Stream.costs_iff.1 outerCosts).2.keeps (k₄.trans k₅)).le (within (by decide))
  · rw [hin]
    exact ((Stream.costs_iff.1 innerCosts).2.keeps k₅).le (within (by decide))

omit hc in
theorem correlate_finishes {outer : Stream} (hp : p.forest.Linked M.catalog)
    (he : Costs M.catalog p.forest ρ k e) (hk : k ≤ n) : FinishesFrom M p (correlate recur outer e) :=
  .bind (expandSource_finishes (hrec.ends hp he hk)) fun _ q _ =>
    .bind (joinReferenced_finishes _ _ M q) fun _ q _ => .bind (resolve_finishes _ _ M q) fun _ _ _ =>
      .bind trivial fun _ q _ => mergeStreams_finishes _ _ _ M q

omit hc in
theorem expandHoisted_finishes {plan : HoistPlan} (hp : p.forest.Linked M.catalog)
    (he : Costs M.catalog p.forest ρ k plan.chain) (hk : k ≤ n) :
    FinishesFrom M p (expandHoisted recur plan) := by
  refine .bind trivial fun _ q hq => ?_
  obtain ⟨-, rfl⟩ := Runs.get_iff.1 hq
  refine .bind (rootStream_finishes plan.target M _) fun root q hroot => ?_
  obtain ⟨hq, keeps⟩ := rootStream_onward _ hroot hp
  have opened : Costs M.catalog q.forest ρ k (plan.chain.withChainRoot root.toExpr) :=
    withChainRoot_costs (rootStream_costs hroot) he.pos fun _ => he.keeps keeps
  refine .bind (expandSource_finishes (hrec.ends hq opened hk)) fun s _ _ => .bind trivial fun _ _ _ => ?_
  dsimp only
  split
  · exact .pure _
  · exact .bind trivial fun _ _ _ => .pure _

theorem expandSelectMany_finishes (hp : p.forest.Linked M.catalog)
    (args : Arguments M.catalog p.forest ρ bound (source :: lambda :: rest))
    (hn : bound (rest.length + 2) ≤ n) : FinishesFrom M p (expandSelectMany recur source lambda rest.head?) := by
  have within {i : Nat} (h : i ≤ rest.length + 2) : bound i ≤ n := (args.mono h).trans hn
  refine .bind (expectUnary_finishes .selectMany lambda M p) fun l _ hl => ?_
  obtain ⟨rfl, rfl⟩ := Runs.expectUnary_iff.1 hl
  have results : FinishesFrom M p (rest.head?.mapM (expectBinary .selectMany)) := by
    cases rest with
    | nil => exact .pure _
    | cons d _ => exact (expectBinary_finishes .selectMany d).map some M p
  refine .bind results fun result q hmap => ?_
  obtain ⟨rfl, hresult⟩ : p = q ∧ ∀ x y body, result = some (x, y, body) →
      rest[0]? = some (.lambda [x, y] body) ∧ bound 3 ≤ n := by
    cases rest with
    | nil =>
      obtain ⟨rfl, rfl⟩ := Runs.pure_iff.1 hmap
      exact ⟨rfl, fun _ _ _ h => by cases h⟩
    | cons d rest =>
      obtain ⟨⟨x, y, body⟩, hd, rfl⟩ := Runs.map_iff.1 hmap
      obtain ⟨rfl, rfl⟩ := Runs.expectBinary_iff.1 hd
      refine ⟨rfl, ?_⟩
      rintro _ _ _ ⟨⟩
      exact ⟨rfl, within (by simp)⟩
  refine .bind (expandArgument_finishes (i := 0) hrec hp args rfl (within (by omega))) fun outer q₁ houter => ?_
  obtain ⟨h₁, k₁⟩ := expandSource_onward hrec.links _ houter hp
  obtain ⟨query, selector⟩ := Stream.costs_iff.1 (expandSource_costs (i := 0) hrec.toThrifty hp args rfl houter)
  have args := args.keeps k₁
  refine .bind (rewriteBody_finishes _ M q₁) fun collection q₂ hbody => ?_
  obtain ⟨h₂, k₂⟩ := rewriteBody_onward _ hbody h₁
  have hcollection := (rewriteBody_rewritten hc h₁ hbody).costs (args.substitute (i := 1) rfl selector (Nat.le_refl _))
  have args := args.keeps k₂
  have selector := (selector.keeps k₂).le (args.mono (show 1 ≤ 2 by decide))
  have correlated {q : Progress} (hq : q.forest.Linked M.catalog) (keeps : q₂.forest.Keeps q.forest) :
      FinishesFrom M q (do selectResult recur (← correlate recur outer collection) result) := by
    have hcollection := hcollection.keeps keeps
    refine .bind (correlate_finishes hrec hq hcollection (within (by omega))) fun mg q' hmerge => ?_
    obtain ⟨hq', keeps'⟩ := correlate_onward hrec.links hmerge hq
    obtain ⟨-, hout, hin⟩ := correlate_costs hrec.toThrifty hq query hcollection hmerge
    exact selectResult_finishes (i := 2) hc hrec hq' (args.keeps (keeps.trans keeps')) hresult
      (hout ▸ selector.keeps (keeps.trans keeps')) hin
  refine .bind (hoistPlan_finishes collection M q₂) fun found q hfound => ?_
  obtain ⟨rfl, hplan⟩ := Runs.hoistPlan hfound
  cases found with
  | error _ => exact correlated h₂ (.refl _)
  | ok plan =>
    have chain := HoistPlan.ofSelector_costs (hplan plan rfl) hcollection
    refine .bind (expandHoisted_finishes hrec h₂ chain (within (by omega))) fun found q₃ hfound => ?_
    obtain ⟨h₃, k₃⟩ := expandHoisted_onward hrec.links plan hfound h₂
    cases found with
    | none => exact correlated h₃ k₃
    | some inner =>
      refine .bind (hoist_finishes outer inner plan M q₃) fun mg q₄ hhoist => ?_
      obtain ⟨h₄, k₄⟩ := hoist_onward hhoist h₃
      obtain ⟨-, hout, hin⟩ := hoist_rows query hhoist
      have inner_costs := (Stream.costs_iff.1 (expandHoisted_costs hrec.toThrifty h₂ chain hfound)).2
      exact selectResult_finishes (i := 2) hc hrec h₄ (args.keeps (k₃.trans k₄)) hresult
        (hout ▸ selector.keeps (k₃.trans k₄)) (hin ▸ inner_costs.keeps k₄)

omit hc in
theorem expandTerminal_finishes {operator : Operator} (hp : p.forest.Linked M.catalog)
    (args : Arguments M.catalog p.forest ρ bound arguments)
    (hn : bound arguments.length + operator.depth ≤ n + 1) :
    FinishesFrom M p (expandTerminal recur operator arguments) := by
  cases arguments with
  | nil => exact .throw nofun
  | cons source rest =>
    have within : bound 1 ≤ bound (source :: rest).length := args.mono (by simp)
    have found : FinishesFrom M p (expandSource recur (splitPredicate operator source rest).1) := by
      unfold splitPredicate
      split
      · next predicate accepts =>
        have depth : operator.depth = 2 := by
          cases operator <;> first | rfl | cases accepts
        rw [depth] at hn
        exact expandSource_finishes (hrec.ends hp (args.call (Nat.le_refl _) none) (Nat.le_of_succ_le_succ hn))
      · have := operator.depth_pos
        exact expandArgument_finishes (i := 0) hrec hp args rfl (show bound 1 ≤ n by omega)
    refine .bind found fun s q _ => ?_
    split
    · exact .pure _
    · split
      · exact .pure _
      · split
        · exact .bind (materialize_finishes s none M q) fun _ _ _ => .pure _
        · exact .bind (materialize_finishes s none M q) fun _ _ _ => .pure _
        · exact .bind (materialize_finishes s none M q) fun _ _ _ => .pure _
        · exact .bind (materialize_finishes s none M q) fun _ _ _ => .pure _
        · exact .bind (entityArgument_finishes _ M q) fun entity q _ => .bind (Finishes.entityType _ _ M q) fun _ q _ =>
            .bind (materialize_finishes s _ M q) fun _ _ _ => .pure _
        · exact .bind (materialize_finishes s none M q) fun _ _ _ => .bind trivial fun _ _ _ => .pure _
        · exact .throw nofun

/-- A call finishes if what it is over and the bodies of its lambdas cost less than it. -/
theorem expandCall_finishes {operator : Operator} {note : Option CallNote} (hp : p.forest.Linked M.catalog)
    (args : Arguments M.catalog p.forest ρ bound arguments)
    (hn : bound arguments.length + operator.depth ≤ n + 1) :
    FinishesFrom M p (expandCall recur operator arguments note) := by
  have stream {x : Expansion Stream} (h : FinishesFrom M p x) : FinishesFrom M p (do return (← x).toExpr) :=
    .bind h fun _ _ _ => .pure _
  have within : bound arguments.length ≤ n := by
    have := operator.depth_pos
    omega
  have operates (info : OperatorInfo) (hinfo : operator.info? = some info) :
      FinishesFrom M p (expandOperator recur info arguments note) := by
    have heq := (Operator.info?_eq_some hinfo).1
    unfold expandOperator
    dsimp only
    split
    · exact stream (expandFilter_finishes hc hrec hp args within)
    · exact stream (expandSelect_finishes hc hrec hp args within)
    · exact stream (expandOrderBy_finishes hc hrec hp args within)
    · exact stream (expandOrderBy_finishes hc hrec hp args within)
    · exact stream (expandThenBy_finishes hc hrec hp args within)
    · exact stream (expandThenBy_finishes hc hrec hp args within)
    · exact stream (expandJoin_finishes hc hrec hp args within)
    · exact stream (expandSelectMany_finishes hc hrec hp args within)
    · split
      · exact expandTerminal_finishes hrec hp args (heq ▸ hn)
      · exact .throw nofun
  unfold expandCall
  split
  · next info hinfo =>
    dsimp only
    split
    · exact .throw_bind nofun
    · exact operates info hinfo
  · exact .throw nofun

end Operators

/-- Expansions that may be nested as deep as a query costs finish. -/
theorem expandWithin_suffices (hc : M.catalog.NamesApart) (n : Nat) :
    Suffices M n (expandWithin n) := by
  induction n with
  | zero =>
    exact ⟨expandWithin_thrifty hc 0, fun _ he hk => absurd (he.pos.trans hk) (by decide),
      fun h => absurd h (by decide)⟩
  | succ n ih =>
    refine ⟨expandWithin_thrifty hc (n + 1), fun {e p ρ k} hp he hk => ?_, fun _ => .throw nofun⟩
    unfold expandWithin
    split
    · exact .bind (rootStream_finishes _ M p) fun _ _ _ => .pure _
    · exact .pure _
    · obtain ⟨τ, bound, -, args, deeper⟩ := he.arguments
      exact expandCall_finishes hc ih hp args (deeper.trans hk)
    · exact .throw nofun

section Sizes

/-- The names that were in view at an outer place are in view here, and none that was bound since hides
them. -/
def Views (Γ Δ : List String) : Prop := ∃ inner, Γ = inner ++ Δ ∧ inner.Disjoint Δ

theorem Views.refl (Γ : List String) : Views Γ Γ := ⟨[], rfl, List.disjoint_nil_left Γ⟩

theorem Views.sees {Γ Δ : List String} (h : Views Γ Δ) (hρ : ρ.names = Γ) :
    ∃ τ, ρ.Sees τ ∧ τ.names = Δ ∧ τ ⊆ ρ := by
  obtain ⟨inner, rfl, apart⟩ := h
  obtain ⟨inner, τ, rfl, rfl, rfl⟩ := List.map_eq_append_iff.1 hρ
  exact ⟨τ, ⟨inner, rfl, apart⟩, rfl, List.subset_append_right _ _⟩

/-- An expression without rows and streams, whose lambdas are arguments of calls and nothing else. Whatever a
call of it is over can be put for the parameters of its lambdas without being captured: the names in view
around the call are not hidden where such a parameter is used. -/
inductive Expr.Composable : List String → Expr → Prop where
  | param {Γ : List String} {x : String} (Δ : List String) (seen : Views Γ (x :: Δ)) : Composable Γ (.param x)
  | member {Γ : List String} {t : Expr} {name : String} (target : Composable Γ t) :
    Composable Γ (.member t name)
  | scalar {Γ : List String} {e : Expr} (node : e.isScalarNode = true)
    (parts : ∀ d ∈ e.children, Composable Γ d) : Composable Γ e
  | call {Γ : List String} {operator : Operator} {arguments : List Expr} {note : Option CallNote}
    (Δ : List String) (around : Views Γ Δ)
    (values : ∀ a ∈ arguments, a.isLambda = false → Composable Δ a)
    (apart : ∀ params body, .lambda params body ∈ arguments → params.Nodup)
    (bodies : ∀ params body, .lambda params body ∈ arguments → Composable (params.reverse ++ Δ) body) :
    Composable Γ (.call operator arguments note)

/-- A call of a lambda of one parameter over something else. -/
theorem Expr.Composable.over {Γ : List String} {operator : Operator} {source body : Expr} {x : String}
    {note : Option CallNote} (hs : source.Composable Γ) (hb : body.Composable (x :: Γ)) :
    (Expr.call operator [source, .lambda [x] body] note).Composable Γ := by
  have parts {a : Expr} (ha : a ∈ [source, .lambda [x] body]) : a = source ∨ a = .lambda [x] body := by simpa using ha
  have source_ne {params : List String} {b : Expr} : Expr.lambda params b ≠ source := by
    rintro rfl
    cases hs with
    | scalar node _ => cases node
  refine .call Γ (.refl Γ) (fun a ha hl => ?_) (fun params b hmem => ?_) fun params b hmem => ?_
  · rcases parts ha with rfl | rfl
    · exact hs
    · cases hl
  · obtain ⟨rfl, -⟩ := Expr.lambda.inj ((parts hmem).resolve_left source_ne)
    exact List.nodup_cons.2 ⟨List.not_mem_nil, .nil⟩
  · obtain ⟨rfl, rfl⟩ := Expr.lambda.inj ((parts hmem).resolve_left source_ne)
    exact hb

theorem itemsSize_take_succ {e : Expr} (h : arguments[i]? = some e) :
    itemsSize (arguments.take (i + 1)) = itemsSize (arguments.take i) + (e.size + 1) := by
  induction arguments generalizing i with
  | nil => cases h
  | cons a arguments ih =>
    cases i with
    | zero =>
      cases h
      simp [itemsSize]
    | succ i =>
      have := ih h
      simp only [List.take_succ_cons, itemsSize]
      omega

theorem itemsSize_take_mono (arguments : List Expr) : Monotone fun i => itemsSize (arguments.take i) := by
  refine monotone_nat_of_le_succ fun i => ?_
  cases hi : arguments[i]? with
  | none =>
    have := List.getElem?_eq_none_iff.1 hi
    rw [List.take_of_length_le this, List.take_of_length_le (by omega)]
  | some e =>
    rw [itemsSize_take_succ hi]
    omega

/-- A query costs little more than its size: all its collections cost what one does. -/
theorem Expr.Composable.costs {c : Catalog} {f : Forest} {Γ : List String} (h : e.Composable Γ)
    (hρ : ρ.names = Γ) (hle : ∀ x ∈ ρ, x.2 ≤ k) (hk : 4 ≤ k) : Costs c f ρ (k + 2 * e.size) e := by
  induction h generalizing ρ k with
  | @param Γ x Δ seen =>
    obtain ⟨τ, known, hτ, hsub⟩ := seen.sees hρ
    obtain ⟨⟨y, m⟩, τ, rfl, rfl, rfl⟩ := List.map_eq_cons_iff.1 hτ
    have := hle _ (hsub (List.mem_cons_self ..))
    exact .param τ known (Nat.le_add_right_of_le this) (by omega)
  | member _ ih =>
    rw [size]
    exact .member ((ih hρ hle hk).le (by omega)) fun _ => by omega
  | @scalar Γ e node _ ih =>
    refine .scalar node (by omega) fun d hd => (ih d hd hρ hle hk).le ?_
    have := size_lt_of_mem_children hd
    omega
  | @call Γ operator arguments note Δ around _ apart _ ihv ihb =>
    obtain ⟨τ, seen, hτ, hsub⟩ := around.sees hρ
    have hle' (x) (hx : x ∈ τ) : x.2 ≤ k := hle x (hsub hx)
    refine .call τ seen (fun i => k + 2 * itemsSize (arguments.take i)) ?_ (fun i a ha hl => ?_) apart
      (fun i params body ha => ?_) ?_
    · exact fun i j hij => by
        have := itemsSize_take_mono arguments hij
        dsimp only at this ⊢
        omega
    · refine (ihv a (List.mem_of_getElem? ha) hl hτ hle' hk).le ?_
      rw [itemsSize_take_succ ha]
      omega
    · refine (ihb params body (List.mem_of_getElem? ha) (k := k + 2 * itemsSize (arguments.take i))
        (by rw [Costing.names_binding, hτ]) (fun x hx => ?_) (by omega)).le ?_
      · rcases List.mem_append.1 hx with hx | hx
        · obtain ⟨y, -, rfl⟩ := List.mem_map.1 (List.mem_reverse.1 hx)
          exact Nat.le_refl _
        · exact Nat.le_add_right_of_le (hle' x hx)
      · rw [itemsSize_take_succ ha, size]
        omega
    · have : operator.depth ≤ 2 := by
        unfold Operator.depth
        split <;> decide
      rw [List.take_length, size]
      omega

end Sizes

/-- The bound on nested expansions leaves room for all of them: a higher one makes no difference, and an
expansion does not stop because the bound is used up. -/
theorem expandQuery_ends {c : Catalog} (hc : c.NamesApart) {Γ : List String} (he : e.Composable Γ)
    (settings : Settings) :
    (∀ n, nestingBound c e ≤ n →
      expandWithin n e ⟨c, settings⟩ {} = expandWithin (nestingBound c e) e ⟨c, settings⟩ {}) ∧
    expandQuery c settings e ≠ .error (.expansion .exhausted) := by
  have room : 4 + 2 * e.size ≤ nestingBound c e := by
    have : 8 * (e.size + 1) * 2 ≤ nestingBound c e := Nat.mul_le_mul_left _ (Nat.le_add_left 2 _)
    omega
  have cost : Costs c ({} : Progress).forest (Γ.map (·, 1)) (4 + 2 * e.size) e := by
    refine he.costs (by simp [Costing.names, Function.comp_def]) (fun x hx => ?_) (Nat.le_refl 4)
    obtain ⟨y, -, rfl⟩ := List.mem_map.1 hx
    exact Nat.le_of_ble_eq_true rfl
  have finishes : FinishesFrom ⟨c, settings⟩ {} (expandWithin (nestingBound c e) e) :=
    (expandWithin_suffices (M := ⟨c, settings⟩) hc (nestingBound c e)).ends (Forest.empty_linked c) cost room
  refine ⟨fun n hn => expandWithin_stable (fun h => ?_) hn, fun h => ?_⟩
  · exact (Ends.iff_runs.1 finishes).2 _ h rfl
  · have whole : FinishesFrom ⟨c, settings⟩ {} (do reduce (← expand e)) :=
      .bind (.bind trivial fun M q hM => by
        obtain ⟨rfl, rfl⟩ := Runs.read_iff.1 hM
        exact finishes) fun d q _ => reduce_finishes d _ q
    unfold expandQuery at h
    split at h
    · cases h
    · split at h
      · cases h
      · next cause hrun =>
        cases h
        exact (Ends.iff_runs.1 whole).2 _ hrun rfl

namespace Shop

/-- The customers one of whose orders belongs to a customer with more orders than that. -/
def regulars : Expr :=
  .call .filter [.entitySet "Customer", .lambda ["c"]
    (.call .any [.member (.param "c") "Orders", .lambda ["o"]
      (.binary .greater (.member (.member (.member (.param "o") "Buyer") "Orders") "Count")
        (.member (.param "c") "Id"))] none)] none

theorem composable_regulars : regulars.Composable [] := by
  have outer : (Expr.param "c").Composable ["o", "c"] := .param [] ⟨["o"], rfl, by simp⟩
  have order : (Expr.param "o").Composable ["o", "c"] := .param ["c"] (.refl _)
  have compared : (Expr.binary .greater (.member (.member (.member (.param "o") "Buyer") "Orders") "Count")
      (.member (.param "c") "Id")).Composable ["o", "c"] :=
    .scalar rfl (List.forall_mem_cons.2
      ⟨order.member.member.member, List.forall_mem_singleton.2 outer.member⟩)
  exact .over (.scalar rfl nofun) (.over (.member (.param [] (.refl _))) compared)
end Shop

theorem expandQuery_regulars_ends : Shop.catalog.NamesApart ∧ Shop.regulars.Composable [] ∧
    (∀ n, nestingBound Shop.catalog Shop.regulars ≤ n →
      expandWithin n Shop.regulars ⟨Shop.catalog, {}⟩ {} =
        expandWithin (nestingBound Shop.catalog Shop.regulars) Shop.regulars ⟨Shop.catalog, {}⟩ {}) ∧
    expandQuery Shop.catalog {} Shop.regulars ≠ .error (.expansion .exhausted) :=
  have apart : Shop.catalog.NamesApart := by decide
  ⟨apart, Shop.composable_regulars, expandQuery_ends apart Shop.composable_regulars {}⟩

namespace Namesake

/-- The orders of a customer, by a key column with the name of the navigation. -/
def orders : NavigationEdge where
  name := "Orders"
  target := "Order"
  foreignKey := ["CustomerId"]
  principalKey := ["Orders"]
  toPrincipal := false
  isCollection := true
  isRequired := true

def customer : EntityType where
  name := "Customer"
  primaryKey := ["Orders"]
  properties := [⟨"Orders", .int, false⟩]
  navigations := [orders]

def order : EntityType where
  name := "Order"
  primaryKey := ["Id"]
  properties := [⟨"Id", .int, false⟩, ⟨"CustomerId", .int, true⟩]
  navigations := []

def types : List EntityType := [customer, order]

def catalog : Catalog := ⟨types⟩

theorem checked_types : Catalog.checked types = .ok catalog := by rfl

def model : Model := ⟨catalog, {}⟩

/-- The customers that have orders. -/
def withOrders : Expr :=
  .call .filter [.entitySet "Customer", .lambda ["c"]
    (.binary .greater (.member (.member (.param "c") "Orders") "Count") (.int 0))] none

/-- What the filter for the orders of a customer compares. -/
def comparison (a x b : Expr) : Expr :=
  .and (.ne (.convert a .int true) (.typedNull .int)) (.eq x (.convert b .int true))

/-- The filter for the orders of a customer. -/
def ordersOf (r : RowRef) (element : String) : Expr :=
  .call .filter [.entitySet "Order", .lambda [element] (comparison (.member (.rowRef r) "Orders")
    (.member (.param element) "CustomerId") (.member (.rowRef r) "Orders"))]
    (some (.collection "Customer" "Orders"))

/-- The node is the row of a customer, at the root of its tree. -/
structure IsCustomer (f : Forest) (n : NodeId) : Prop where
  entity : (f.node n).entity = some "Customer"
  top : (f.node n).parent = none
  single : (f.node n).edge = none

/-- The node is the row of an order. -/
structure IsOrder (f : Forest) (n : NodeId) : Prop where
  entity : (f.node n).entity = some "Order"
  single : (f.node n).edge = none

/-- The node stands for the orders of the row of a customer. -/
structure AreOrders (f : Forest) (owner n : NodeId) : Prop where
  edge : (f.node n).edge = some orders
  parent : (f.node n).parent = some owner

/-- The row stands for the rows of an entity, which the step has made a source of. -/
structure Started (p q : Progress) (entity : String) (o : RowRef) : Prop where
  node : o.node = q.forest.root ⟨p.forest.sources.length⟩
  forest : q.forest = (p.forest.addSource (some entity) false).2
  entity : (q.forest.node o.node).entity = some entity
  single : (q.forest.node o.node).edge = none
  linked : q.forest.Linked catalog
  keeps : p.forest.Keeps q.forest

/-- The bound on nested expansions is used up. -/
def UsedUp (cause : ExpansionError) : Prop := cause = .exhausted

variable {f g : Forest} {owner x : NodeId} {r : RowRef} {allowed : ExpansionError → Prop}

theorem IsCustomer.keeps (h : IsCustomer f x) (hfg : f.Keeps g) : IsCustomer g x := by
  have stays := hfg.node (Forest.Keeps.range_of_entity h.entity)
  exact ⟨stays.entity.trans h.entity, stays.parent.trans h.top, stays.edge.trans h.single⟩

theorem IsOrder.keeps (h : IsOrder f x) (hfg : f.Keeps g) : IsOrder g x := by
  have stays := hfg.node (Forest.Keeps.range_of_entity h.entity)
  exact ⟨stays.entity.trans h.entity, stays.edge.trans h.single⟩

theorem AreOrders.many (h : AreOrders f owner x) : (f.node x).isCollection = true := by
  rw [Node.isCollection, h.edge]
  rfl

theorem AreOrders.keeps (h : AreOrders f owner x) (hfg : f.Keeps g) : AreOrders g owner x := by
  have stays := hfg.node (Forest.range_of_many h.many)
  exact ⟨stays.edge.trans h.edge, stays.parent.trans h.parent⟩

/-- The column of a customer that names the navigation is bound as the navigation. -/
theorem bindMember_orders (hp : p.forest.Linked catalog) (hr : IsCustomer p.forest r.node) :
    Ends allowed (bindMember (.rowRef r) "Orders") model p fun e q => ∃ s : RowRef, e = .rowRef s ∧
      AreOrders q.forest r.node s.node ∧ q.forest.Linked catalog ∧ p.forest.Keeps q.forest := by
  have range := Forest.Keeps.range_of_entity hr.entity
  have single := Node.not_isCollection hr.single
  have depth : p.forest.depth r.node = 0 := by
    rw [Forest.depth, Forest.lineage, hr.top]
    rfl
  have owner_type : model.catalog.type? "Customer" = some customer := rfl
  have declared : catalog.navigation? "Customer" orders.name = some orders := rfl
  obtain ⟨linked, keeps, edge, -⟩ := Forest.follow_onward hp hr.entity single declared rfl
  have found : ∃ s : RowRef, (p.forest.follow r.node orders).2.ref (p.forest.follow r.node orders).1 = .rowRef s ∧
      AreOrders (p.forest.follow r.node orders).2 r.node s.node :=
    ⟨_, rfl, edge, hp.parent_follow range⟩
  have shallow : ¬ model.settings.maxNavigationDepth < p.forest.depth r.node + 1 := by
    rw [depth]
    decide
  simp only [bindMember, bindRowMember, Ends.bind_iff, Ends.forest_iff, single, hp.fieldless hr.entity, hr.entity,
    Bool.false_eq_true, if_false, bindNavigation, Ends.entityType owner_type]
  change Ends allowed (_ >>= _) model p _
  simp only [Ends.bind_iff, Ends.settings_iff, Ends.forest_iff, if_neg shallow, Ends.growForest_iff]
  obtain ⟨s, hs, are⟩ := found
  split
  · exact ⟨s, hs, are, linked, keeps⟩
  · exact ⟨s, hs, are, linked, keeps⟩

/-- The column of an order leads nowhere. -/
theorem bindMember_customerId (hp : p.forest.Linked catalog) (hr : IsOrder p.forest r.node)
    {Q : Expr → Progress → Prop} (h : Q (.member (.rowRef r) "CustomerId") p) :
    Ends allowed (bindMember (.rowRef r) "CustomerId") model p Q := by
  have element_type : model.catalog.type? "Order" = some order := rfl
  simp only [bindMember, bindRowMember, Ends.bind_iff, Ends.forest_iff, Node.not_isCollection hr.single,
    hp.fieldless hr.entity, hr.entity, Bool.false_eq_true, if_false, bindNavigation,
    Ends.entityType element_type]
  exact h

/-- A collection becomes the filter for the orders of its owner. -/
theorem collectionFilter_ordersOf (hp : p.forest.Linked catalog) (ho : IsCustomer p.forest owner)
    (hr : AreOrders p.forest owner r.node) :
    Ends allowed (collectionFilter r) model p fun e q => ∃ (s : RowRef) (element : String),
      e = ordersOf s element ∧ s.node = owner ∧ q.forest.Linked catalog ∧ p.forest.Keeps q.forest := by
  have owner_type : model.catalog.type? "Customer" = some customer := rfl
  have target_type : model.catalog.type? orders.target = some order := rfl
  have ownerKey : customer.propertiesNamed orders.sourceKey = .ok [⟨"Orders", .int, false⟩] := rfl
  have elementKey : order.propertiesNamed orders.targetKey = .ok [⟨"CustomerId", .int, true⟩] := rfl
  obtain ⟨linked, keeps⟩ := Forest.onward_remove r.node hp
  simp only [collectionFilter, Ends.bind_iff, Ends.node_iff, hr.edge, hr.parent, ho.entity, Option.getD_some]
  rw [Ends.entityType owner_type, Ends.entityType target_type, Ends.ofCatalog ownerKey, Ends.ofCatalog elementKey]
  exact ⟨_, _, rfl, rfl, linked, keeps⟩

/-- The key columns of the filter are taken for the orders themselves. -/
theorem bind_comparison {o : RowRef} (hp : p.forest.Linked catalog) (hr : IsCustomer p.forest r.node)
    (ho : IsOrder p.forest o.node) :
    Ends allowed (bind (comparison (.member (.rowRef r) "Orders") (.member (.rowRef o) "CustomerId")
        (.member (.rowRef r) "Orders"))) model p fun e q => ∃ a b : RowRef,
      e = comparison (.rowRef a) (.member (.rowRef o) "CustomerId") (.rowRef b) ∧
      AreOrders q.forest r.node a.node ∧ AreOrders q.forest r.node b.node ∧
      q.forest.Linked catalog ∧ p.forest.Keeps q.forest := by
  simp only [bind, comparison, Expr.and, Expr.ne, Expr.eq, typedNull, Expr.null, Expr.rewrite, Ends.bind_iff, pure_bind,
    Ends.pure_iff]
  refine (bindMember_orders hp hr).mono fun _ q h => ?_
  obtain ⟨a, rfl, ha, hq, keeps⟩ := h
  refine bindMember_customerId hq (ho.keeps keeps) ?_
  refine (bindMember_orders hq (hr.keeps keeps)).mono fun _ q' h => ?_
  obtain ⟨b, rfl, hb, hq', keeps'⟩ := h
  exact ⟨a, b, rfl, ha.keeps keeps', hb, hq', keeps.trans keeps'⟩

/-- Nothing is compared by keys. -/
theorem compareByKeys_comparison {a b o : RowRef} :
    Ends allowed (compareByKeys (comparison (.rowRef a) (.member (.rowRef o) "CustomerId") (.rowRef b))) model p
      fun e q => p = q ∧ ∃ d, e = .and (.ne (.convert (.rowRef a) .int true) (.typedNull .int)) d ∧
        (d = .eq (.member (.rowRef o) "CustomerId") (.convert (.rowRef b) .int true) ∨
          d = .nullSafeEqual [.rowRef o] (.member (.rowRef o) "CustomerId") (.convert (.rowRef b) .int true)) := by
  have unequal : Ends allowed (compareSides .notEqual (.convert (.rowRef a) .int true) (.typedNull .int)) model p
      fun e q => e = .ne (.convert (.rowRef a) .int true) (.typedNull .int) ∧ p = q := ⟨rfl, rfl⟩
  have equal : Ends allowed (compareSides .equal (.member (.rowRef o) "CustomerId") (.convert (.rowRef b) .int true))
      model p fun e q => e = guardedEquality p.forest (.member (.rowRef o) "CustomerId")
        (.convert (.rowRef b) .int true) ∧ p = q := ⟨rfl, rfl⟩
  have reads : optionalReads p.forest (.member (.rowRef o) "CustomerId") ++
      optionalReads p.forest (.convert (.rowRef b) .int true) =
        if (p.forest.node o.node).isOptional then [o] else [] := by
    simp [optionalReads, gather_eq, children]
  simp only [compareByKeys, comparison, Expr.and, Expr.rewrite, Ends.bind_iff]
  refine unequal.mono fun e q h => ?_
  obtain ⟨rfl, rfl⟩ := h
  refine equal.mono fun e q h => ?_
  obtain ⟨rfl, rfl⟩ := h
  refine ⟨rfl, _, rfl, ?_⟩
  rw [guardedEquality, reads]
  cases (p.forest.node o.node).isOptional with
  | true => exact .inr rfl
  | false => exact .inl rfl

/-- A filter for the orders of the same customer takes the place of the key column. -/
theorem rewriteBody_comparison {o : RowRef} (hp : p.forest.Linked catalog) (hr : IsCustomer p.forest r.node)
    (ho : IsOrder p.forest o.node) :
    Ends allowed (rewriteBody (comparison (.member (.rowRef r) "Orders") (.member (.rowRef o) "CustomerId")
        (.member (.rowRef r) "Orders"))) model p fun e q => ∃ (s : RowRef) (element : String) (d : Expr),
      e = .and (.ne (.convert (ordersOf s element) .int true) (.typedNull .int)) d ∧
      s.node = r.node ∧ q.forest.Linked catalog ∧ p.forest.Keeps q.forest := by
  simp only [rewriteBody, Ends.bind_iff]
  refine (bind_comparison hp hr ho).mono fun _ q h => ?_
  obtain ⟨a, b, rfl, ha, hb, hq, keeps⟩ := h
  refine compareByKeys_comparison.mono fun _ q' h => ?_
  obtain ⟨rfl, d, rfl, hd⟩ := h
  have order : (q.forest.node o.node).isCollection = false := Node.not_isCollection (ho.keeps keeps).single
  simp only [filterCollections, Ends.bind_iff, Ends.forest_iff, Expr.and, Expr.ne, typedNull, Expr.null,
    Expr.descend, collectionAt, ha.many, if_true, Ends.pure_iff]
  refine (collectionFilter_ordersOf hq (hr.keeps keeps) ha).mono fun _ q₁ h => ?_
  obtain ⟨s, element, rfl, hs, h₁, k₁⟩ := h
  have second : Ends allowed (collectionFilter b) model q₁ fun _ q₂ => q₂.forest.Linked catalog ∧
      p.forest.Keeps q₂.forest := by
    refine (collectionFilter_ordersOf h₁ (hr.keeps (keeps.trans k₁)) (hb.keeps k₁)).mono fun _ q₂ h => ?_
    obtain ⟨_, _, _, _, h₂, k₂⟩ := h
    exact ⟨h₂, keeps.trans (k₁.trans k₂)⟩
  have rest : Ends allowed (d.descend (collectionAt q.forest)) model q₁ fun _ q₂ =>
      q₂.forest.Linked catalog ∧ p.forest.Keeps q₂.forest := by
    rcases hd with rfl | rfl <;>
      simp only [Expr.eq, Expr.descend, collectionAt, order, hb.many, if_true, descendItems, Ends.bind_iff,
        Ends.pure_iff, Bool.false_eq_true, if_false] <;>
      exact second
  exact rest.mono fun _ q₂ h => ⟨s, element, _, rfl, hs, h⟩

/-- The rows of a set are those of a new root. -/
theorem rootStream_row {entity : String} {t : EntityType} (hp : p.forest.Linked catalog)
    (ht : catalog.type? entity = some t) :
    Ends allowed (rootStream entity) model p fun s q => s.cardinality = none ∧ ∃ o : RowRef,
      s.selector = .rowRef o ∧ Started p q entity o := by
  have added : p.forest.addSource (some entity) false =
    (⟨p.forest.sources.length⟩, (p.forest.addSource (some entity) false).2) := rfl
  obtain ⟨onward, -, hentity, hedge⟩ := Forest.addSource_onward (c := catalog) added
  have known : model.catalog.type? entity = some t := ht
  simp only [rootStream, Ends.bind_iff, Ends.entityType known, Ends.growForest_iff, Ends.forest_iff, Ends.ref_iff,
    Ends.pure_iff]
  obtain ⟨linked, keeps⟩ := onward hp
  exact ⟨trivial, _, rfl, rfl, rfl, hentity, hedge, linked, keeps⟩

/-- A filter of a set is not expanded if its predicate is not. -/
theorem expandWithin_filter {entity x : String} {t : EntityType} {body : Expr} {note : Option CallNote} {n : Nat}
    (hp : p.forest.Linked catalog) (ht : catalog.type? entity = some t)
    (predicate : ∀ (o : RowRef) (q : Progress), Started p q entity o →
      Ends UsedUp (prepareBody (expandWithin n) (body.substitute x (.rowRef o))) model q fun _ _ => False) :
    Ends UsedUp (expandWithin (n + 1) (.call .filter [.entitySet entity, .lambda [x] body] note)) model p
      fun _ _ => False := by
  unfold expandWithin
  change Ends UsedUp (do return (← expandFilter (expandWithin n) (.entitySet entity) (.lambda [x] body) note).toExpr)
    model p _
  simp only [expandFilter, Ends.bind_iff, expectUnary, Ends.pure_iff, expandSource]
  cases n with
  | zero => exact rfl
  | succ n =>
    simp only [expandWithin, Ends.bind_iff, Ends.pure_iff, Stream.toExpr]
    refine (rootStream_row hp ht).mono fun s q h => ?_
    obtain ⟨single, o, hs, started⟩ := h
    rw [single]
    simp only [Ends.pure_iff, resolvedBody, joinBody, Ends.bind_iff, hs]
    exact (predicate o q started).mono fun _ _ h => h.elim

/-- To expand the filter for the orders of a customer takes to expand one with a single level less, and so on. -/
theorem expandWithin_ordersOf (n : Nat) {element : String} (hp : p.forest.Linked catalog)
    (hr : IsCustomer p.forest r.node) :
    Ends UsedUp (expandWithin n (ordersOf r element)) model p fun _ _ => False := by
  induction n generalizing p r element with
  | zero => exact rfl
  | succ n ih =>
    refine expandWithin_filter (t := order) hp rfl fun o q row => ?_
    have substituted : (comparison (.member (.rowRef r) "Orders") (.member (.param element) "CustomerId")
        (.member (.rowRef r) "Orders")).substitute element (.rowRef o) =
        comparison (.member (.rowRef r) "Orders") (.member (.rowRef o) "CustomerId") (.member (.rowRef r) "Orders") := by
      simp [comparison, substitute, Expr.descend, substituteAt, Expr.and, Expr.ne, Expr.eq, typedNull, Expr.null]
    simp only [substituted, prepareBody, Ends.bind_iff]
    refine (rewriteBody_comparison row.linked (hr.keeps row.keeps) ⟨row.entity, row.single⟩).mono fun _ q' h => ?_
    obtain ⟨s, element, d, rfl, hs, hq', keeps⟩ := h
    have owner : IsCustomer q'.forest s.node := hs ▸ hr.keeps (row.keeps.trans keeps)
    simp only [expandSubqueries, Expr.and, Expr.ne, Expr.descend, subqueryAt, Ends.bind_iff]
    exact (ih hq' owner).mono fun _ _ h => h.elim

theorem expandWithin_count (n : Nat) {element : String} (hp : p.forest.Linked catalog)
    (hr : IsCustomer p.forest r.node) :
    Ends UsedUp (expandWithin n (.call .count [ordersOf r element] none)) model p fun _ _ => False := by
  cases n with
  | zero => exact rfl
  | succ n =>
    unfold expandWithin
    change Ends UsedUp (expandTerminal (expandWithin n) .count [ordersOf r element]) model p _
    simp only [expandTerminal, splitPredicate, expandSource, Ends.bind_iff]
    exact (expandWithin_ordersOf n hp hr).mono fun _ _ h => h.elim

end Namesake

open Namesake

/-- No bound is enough for the customers with orders if their key has the name of the navigation. -/
theorem expandWithin_endless : Catalog.checked types = .ok catalog ∧
    ∀ n, expandWithin n withOrders model {} = .error .exhausted := by
  have unfinished (n : Nat) : Ends UsedUp (expandWithin n withOrders) model {} fun _ _ => False := by
    cases n with
    | zero => exact rfl
    | succ n =>
      refine expandWithin_filter (t := customer) (Forest.empty_linked catalog) rfl fun o q row => ?_
      have owner : IsCustomer q.forest o.node := ⟨row.entity, by rw [row.node, row.forest]; rfl, row.single⟩
      change Ends UsedUp (prepareBody (expandWithin n)
        (.binary .greater (.member (.member (.rowRef o) "Orders") "Count") (.int 0))) model q _
      simp only [prepareBody, rewriteBody, bind, Expr.rewrite, Ends.bind_iff, Expr.int]
      refine (bindMember_orders row.linked owner).mono fun _ q₁ h => ?_
      obtain ⟨a, rfl, ha, h₁, k₁⟩ := h
      have count : Ends UsedUp (bindMember (.rowRef a) "Count") model q₁ fun e q =>
          e = .member (.rowRef a) "Count" ∧ q₁ = q := by
        simp only [bindMember, bindRowMember, Ends.bind_iff, Ends.forest_iff, ha.many, if_true, Ends.pure_iff,
          and_self]
      refine count.mono fun _ q₂ h => ?_
      obtain ⟨rfl, rfl⟩ := h
      simp only [compareByKeys, Expr.rewrite, Ends.bind_iff, Ends.pure_iff, pure_bind, BinaryOp.isEquality,
        filterCollections, Ends.forest_iff, Bool.false_eq_true, if_false, Expr.descend, collectionAt, ha.many,
        if_true]
      refine (collectionFilter_ordersOf h₁ (owner.keeps k₁) ha).mono fun _ q₂ h => ?_
      obtain ⟨s, element, rfl, hs, h₂, k₂⟩ := h
      simp only [expandSubqueries, Expr.descend, subqueryAt, Ends.bind_iff]
      have owner' : IsCustomer q₂.forest s.node := hs ▸ owner.keeps (k₁.trans k₂)
      exact (expandWithin_count n h₂ owner').mono fun _ _ h => h.elim
  refine ⟨checked_types, fun n => ?_⟩
  have ends := Ends.iff_runs.1 (unfinished n)
  cases hrun : expandWithin n withOrders model {} with
  | ok result => exact absurd hrun fun h => ends.1 _ _ h
  | error cause => rw [ends.2 _ hrun]

end EntityQuery
