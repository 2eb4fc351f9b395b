import EntityQuery.Proofs.BoundParameters
import EntityQuery.Proofs.Chains
import EntityQuery.Proofs.Levels

/-!
# Closed queries stay closed

Expansion moves bodies between lambdas, generates row parameters and renames them, but whatever occurs
free in the result occurs free in the query (`expandQuery_scoped`). The invariant is that the rows and
the pending selector of every stream read only parameters that are in view of the query, and that a
body that is resolved over a stream reads the parameter of its rows besides.
-/

namespace EntityQuery

open EntityQuery.Expr

variable {M : Model} {Γ : List String} {e : Expr}

/-- In rows the same parameters are in view as around them. -/
def viewLevels : Levels (List String) where
  under := (· ++ ·)
  rows Γ := Γ
  outer _ := True
  outer_under _ h := h
  under_cons _ _ _ := rfl

theorem rewriteBody_keepsView : KeepsAt M viewLevels (fun Γ e => e.Scoped Γ) rewriteBody :=
  fun _ _ h => rewriteBody_scoped h

theorem expandSubqueries_keepsView {n : Nat}
    (hrec : KeepsAt M viewLevels (fun Γ e => e.Scoped Γ) (expandWithin n)) :
    KeepsAt M viewLevels (fun Γ e => e.Scoped Γ) (expandSubqueries (expandWithin n)) := by
  intro Γ e e' p p' _ hp h he
  refine Runs.expandSubqueries_keeps (R := fun e e' => ∀ Γ, e.Scoped Γ → e'.Scoped Γ) (fun _ _ h => h)
    (fun hp h Γ he => hrec trivial hp h he) (fun _ head Γ he => ?_) hp h Γ he
  exact he.of_sameHead head (fun x hx => scoped_param.1 (hx ▸ he)) fun _ h hc => h _ hc

/-- Which parameters are in view is kept by every step. -/
theorem scoped_invariant : Invariant M viewLevels fun Γ e => e.Scoped Γ where
  node {Γ e} even other := by
    rw [scoped_iff other]
    cases e <;> first | rfl | cases even
  param h := scoped_param.2 (List.mem_append_left _ h)
  lambda := scoped_lambda
  stream _ := scoped_stream
  scalar h := h.scoped fun _ h => h
  weaken params h := h.mono (List.subset_append_right params _)
  strengthen {Γ e x} _ h free := by
    intro y hy
    refine (List.mem_cons.1 (h y hy)).resolve_left ?_
    rintro rfl
    simp [mentions, hy] at free
  inside _ h := h
  substitute _ h hd := h.substitute hd
  rename {Γ e x} y _ h := Scoped.substitute
    (h.mono (List.cons_subset_cons _ (List.subset_cons_self y Γ))) (scoped_param.2 (.head _))
  rewrite := rewriteBody_keepsView
  subqueries _ := expandSubqueries_keepsView
  resolve {Γ s e e' p p'} _ h he := ((resolution_scoped p.forest).resolve rfl h).2.2 _ (.head _) he

theorem reduction_scoped (f : Forest) : Reduction f (fun s e e' =>
    ∀ Γ, s.parameter ∈ Γ → e.Scoped Γ → e'.Scoped Γ) fun e e' => ∀ Γ, e.Scoped Γ → e'.Scoped Γ where
  parts _ head Γ he := he.of_sameHead head (fun x hx => scoped_param.1 (hx ▸ he))
    fun _ ⟨_, h⟩ hc => h _ hc
  projected := by
    intro rows rows' selector body frame hselector _ _ hrows Γ he
    obtain ⟨hr, hsel⟩ := scoped_stream.1 he
    refine scoped_query (hrows Γ hr) ?_
    rintro _ ⟨⟩
    exact scoped_lambda.2 (hselector _ (.head _) (hsel.mono (List.subset_append_right _ _)))
  unprojected hrows Γ he := scoped_query (hrows Γ (scoped_stream.1 he).1) nofun

/-- What a whole expansion leaves in view of its result is what was in view of the query. -/
theorem expandQuery_scoped {c : Catalog} {settings : Settings} {q : ExpandedQuery}
    (h : expandQuery c settings e = .ok q) (he : e.Scoped Γ) : q.query.Scoped Γ := by
  obtain ⟨n, d, p, p', hexpand, hreduce⟩ := Runs.of_expandQuery h
  exact ((reduction_scoped p.forest).reduce (resolution_scoped p.forest) rfl hreduce).2 Γ
    (scoped_invariant.expandWithin n trivial (Forest.empty_linked c) hexpand he)

/-- Expansion introduces no unbound parameter: every parameter that occurs free in the result occurs
free in the query. A closed query has a closed expansion, which finds every parameter that it looks
up, whatever the tables are. -/
theorem freeParams_expandQuery {c : Catalog} {settings : Settings} {q : ExpandedQuery}
    (h : expandQuery c settings e = .ok q) : q.query.freeParams ⊆ e.freeParams ∧
      (e.freeParams = [] → q.query.freeParams = [] ∧
        ∀ tables name, q.query.evaluate tables ≠ .error (.unboundParameter name)) := by
  have hq : q.query.Scoped e.freeParams := expandQuery_scoped h fun _ hx => hx
  refine ⟨hq, fun hclosed => ?_⟩
  rw [hclosed] at hq
  refine ⟨List.eq_nil_of_subset_nil hq, fun tables => ?_⟩
  exact (Scoped.bound (show q.query.Scoped (Scope.names []) from hq)).1

namespace Shop

/-- The orders of each customer that another customer has referred, with both names and with whether
the customer has more orders. All lambdas name their rows alike. -/
def referredTrades : Expr :=
  let x : Expr := .param "c"
  .call .selectMany [
    .call .filter [.entitySet "Customer",
      .lambda ["c"] (.ne (.member (.member x "Referrer") "Name") (.string "Bob"))] none,
    .lambda ["c"] (.call .filter [.member x "Orders",
      .lambda ["t"] (.call .any [.entitySet "Order",
        .lambda ["c"] (.eq (.member (.member x "Buyer") "Name")
          (.member (.member (.param "t") "Buyer") "Name"))] none)] none),
    .lambda ["c", "t"] (.record [("By", .member (.member x "Referrer") "Name"),
      ("Total", .member (.param "t") "Total")])] none

end Shop

theorem freeParams_referredTrades : ∃ q,
    expandQuery Shop.catalog {} Shop.referredTrades = .ok q ∧ q.query.freeParams = [] ∧
      ∀ tables name, q.query.evaluate tables ≠ .error (.unboundParameter name) := by
  obtain ⟨q, h⟩ : ∃ q, expandQuery Shop.catalog {} Shop.referredTrades = .ok q :=
    Except.exists_of_isSome (by decide +kernel)
  exact ⟨q, h, (freeParams_expandQuery h).2 rfl⟩

end EntityQuery
