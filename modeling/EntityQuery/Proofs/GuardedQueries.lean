import EntityQuery.Proofs.Guards
import EntityQuery.Proofs.Roots
import EntityQuery.Proofs.Tables

/-!
# The guards of an expanded query

Nothing that users write has a guard. The streams that an expansion makes of it keep the guards of their
rows inside and those of their selectors outside (`Expr.Guarded`), and a collection stays a guard when the
filter that stands for it is expanded. In the result a guard is the path of a row or the query for a
collection (`expandQuery_guards`).
-/

namespace EntityQuery

open EntityQuery.Expr

variable {M : Model} {C : Catalog} {p p' : Progress} {e e' : Expr}

section Expansions

variable {n : Nat}

/-- The filter of a collection becomes a stream that is a guard. -/
theorem expandWithin_isGuard (h : Runs (expandWithin n e) M p e' p') (he : IsGuard C none e) :
    IsGuard C none e' := by
  cases n with
  | zero => exact (Runs.throw_iff.1 h).elim
  | succ n =>
    unfold expandWithin at h
    cases he with
    | ref r => exact (Runs.throw_iff.1 h).elim
    | stream hrows =>
      obtain ⟨rfl, rfl⟩ := Runs.pure_iff.1 h
      exact .stream hrows
    | collection declared =>
      cases Runs.expandCall h with
      | rowWise _ _ _ note_eq =>
        rw [note_eq, if_pos rfl]
        exact .stream declared
      | terminal _ registered kind =>
        cases registered
        cases kind

/-- In the rows of a stream, lambdas are over rows. -/
def guardLevels : Levels Level where
  under := Level.under
  rows := Level.rows
  outer l := l = none
  outer_under := by
    rintro _ params rfl
    rfl
  under_cons x params l := by cases l <;> rfl

theorem rewriteBody_guarded : KeepsAt M guardLevels (Guarded M.catalog) rewriteBody :=
  fun _ hp h => (rewriteBody_keepsGuards hp h).guarded

/-- A collection that guards an equality is itself one of the queries that are expanded. -/
theorem expandSubqueries_guarded (hrec : KeepsAt M guardLevels (Guarded M.catalog) (expandWithin n)) :
    KeepsAt M guardLevels (Guarded M.catalog) (expandSubqueries (expandWithin n)) := by
  rintro l e e' p p' rfl hp h he
  refine (Runs.expandSubqueries_keeps (R := fun e e' => (e.Guarded M.catalog none → e'.Guarded M.catalog none) ∧
    (IsGuard M.catalog none e → IsGuard M.catalog none e')) (fun _ => ⟨id, id⟩)
    (fun hp h => ⟨hrec rfl hp h, expandWithin_isGuard h⟩) (fun {e e'} plain head => ⟨fun he => ?_, fun he => ?_⟩)
    hp h).1 he
  · refine he.of_sameHead head (fun h => h.2) (fun h => h.1) (fun _ h => h.1) ?_
    rintro rows selector _ _ frame rfl
    exact absurd rfl (plain rows selector frame)
  · cases he with
    | ref r =>
      cases head
      exact .ref r
    | collection declared =>
      cases head
      exact .collection declared
    | stream => exact absurd rfl (plain _ _ _)

/-- Which forms guards have is kept by every step. -/
theorem guarded_invariant : Invariant M guardLevels (Guarded M.catalog) where
  node even _ := guarded_iff even
  param _ := guarded_param _
  lambda := guarded_lambda
  stream := by
    rintro _ rows selector frame rfl
    exact guarded_stream
  scalar h := h.guarded fun _ h => h
  weaken {l} e params h := h.mono (by
    cases l
    · trivial
    · exact List.subset_append_right params _)
  strengthen := by
    rintro _ e x rfl h -
    exact h
  inside := by
    rintro _ e rfl h
    exact h.anywhere
  substitute := by
    rintro _ e d x rfl h hd
    exact Guarded.substitute h hd
  rename := by
    rintro _ e x y rfl h
    refine Guarded.put h ⟨fun z hz hne => absurd (List.mem_singleton.1 hz) hne, fun _ => ?_⟩ (guarded_param y)
    exact ⟨y, List.mem_singleton_self y, rfl⟩
  rewrite := rewriteBody_guarded
  subqueries _ := expandSubqueries_guarded
  resolve := by
    rintro _ s e e' p p' rfl h he
    exact ((resolution_guarded p.forest).resolve rfl h).2.2.guarded (.head _) he

end Expansions

section Results

/-- What is reduced has neither streams nor references. -/
theorem reduction_plain (f : Forest) {Q : RowScope → Expr → Expr → Prop} :
    Reduction f Q fun _ e' => e'.hasStream = false ∧ e'.rowRefs = [] where
  parts kind head := by
    refine ⟨hasStream_eq_false_iff.2 ⟨?_, fun c' hc' => ?_⟩, List.eq_nil_iff_forall_not_mem.2 fun r hr => ?_⟩
    · rintro rows selector frame rfl
      cases head
      cases kind
    · obtain ⟨c, -, -, h, -⟩ := head.of_mem_children hc'
      exact h
    · rcases mem_rowRefs_iff.1 hr with rfl | ⟨c', hc', hr⟩
      · cases head
        cases kind
      · obtain ⟨c, -, -, -, h⟩ := head.of_mem_children hc'
        rw [h] at hr
        cases hr
  projected _ plain closed hrows := by
    refine ⟨Resolved.query_plain _ hrows.1 ?_, List.eq_nil_iff_forall_not_mem.2 fun r hr => ?_⟩
    · rintro _ ⟨⟩
      exact hasStream_lambda plain
    · rcases Resolved.query_refs hr with hr | ⟨_, ⟨⟩, hr⟩
      · rw [hrows.2] at hr
        cases hr
      · obtain ⟨c, hc, inside⟩ := (mem_rowRefs_iff.1 hr).resolve_left nofun
        obtain rfl := List.mem_singleton.1 hc
        rw [closed] at inside
        cases inside
  unprojected hrows := by
    refine ⟨Resolved.query_plain _ hrows.1 nofun, List.eq_nil_iff_forall_not_mem.2 fun r hr => ?_⟩
    rcases Resolved.query_refs hr with hr | ⟨_, ⟨⟩, -⟩
    rw [hrows.2] at hr
    cases hr

theorem Runs.reduce_closed (h : Runs (reduce e) M p e' p') : e'.hasStream = false ∧ e'.rowRefs = [] :=
  ((reduction_plain p.forest).reduce (resolution_scoped p.forest) rfl h).2

end Results

section Queries

/-- The node is never written by users. -/
def Expr.isInternal : Expr → Bool
  | .rowRef _ | .stream .. | .nullSafeEqual .. | .entityShape .. => true
  | _ => false

/-- The expression is built of what users write. -/
def Expr.isUserWritten (e : Expr) : Bool := e.nodes.all (!·.isInternal)

/-- What guards the equalities in an expression. -/
def Expr.guards (e : Expr) : List Expr :=
  e.nodes.flatMap fun
    | .nullSafeEqual guards _ _ => guards
    | _ => []

theorem Expr.guarded_of_isUserWritten {l : Level} (h : e.isUserWritten = true) : e.Guarded C l := by
  induction e using children_induction generalizing l with
  | step e ih =>
    have nodes := List.all_eq_true.1 h
    have part {c} (hc : c ∈ e.children) {l : Level} : c.Guarded C l :=
      ih c hc (List.all_eq_true.2 fun d hd => nodes d (mem_nodes_of_child hc hd))
    have self := nodes e (self_mem_nodes e)
    cases e with
    | rowRef _ | stream _ _ _ | nullSafeEqual _ _ _ => cases self
    | lambda params body => exact .lambda (part (.head _))
    | _ => exact .node rfl fun c hc => part hc

theorem Expr.mem_guards {g : Expr} (h : g ∈ e.guards) :
    (∃ guards a b, e = .nullSafeEqual guards a b ∧ g ∈ guards) ∨ ∃ c ∈ e.children, g ∈ c.guards := by
  rcases exists_nodes_iff.1 (List.mem_flatMap.1 h) with hg | ⟨c, hc, hg⟩
  · split at hg
    · exact .inl ⟨_, _, _, rfl, hg⟩
    · cases hg
  · exact .inr ⟨c, hc, List.mem_flatMap.2 hg⟩

/-- Where neither streams nor references are left, every guard is the path of a row or the query for a
collection. -/
theorem Expr.Guarded.guards {Γ : List String} (h : e.Guarded C (some Γ)) (plain : e.hasStream = false)
    (read : e.rowRefs = []) : ∀ g ∈ e.guards, g.isRowPath = true ∨ g.isCollectionQuery C = true := by
  intro g hg
  induction e using children_induction generalizing Γ with
  | step e ih =>
    rw [List.eq_nil_iff_forall_not_mem] at read
    rcases mem_guards hg with ⟨guards, a, b, rfl, hmem⟩ | ⟨c, hc, hg⟩
    · have hc : g ∈ (Expr.nullSafeEqual guards a b).children := List.mem_append_left _ hmem
      cases ((guarded_nullSafeEqual.1 h).1 g hmem).1 with
      | ref r => exact (read r (mem_rowRefs_of_child hc (List.mem_singleton_self r))).elim
      | stream =>
        have stream := hasStream_of_child hc (hasStream_iff.2 (.inl ⟨_, _, _, rfl⟩))
        rw [plain] at stream
        cases stream
      | path hroot => exact .inl (Option.isSome_iff_exists.2 ⟨_, hroot⟩)
      | query hquery => exact .inr hquery
    · obtain ⟨Δ, hguarded⟩ : ∃ Δ, c.Guarded C (some Δ) := by
        cases h with
        | node _ parts => exact ⟨Γ, parts c hc⟩
        | lambda h =>
          obtain rfl := List.mem_singleton.1 hc
          exact ⟨_, h⟩
        | stream => exact absurd rfl ((hasStream_eq_false_iff.1 plain).1 _ _ _)
        | nullSafeEqual _ parts ha hb =>
          simp only [children, List.mem_append, List.mem_cons, List.not_mem_nil, or_false] at hc
          rcases hc with hc | rfl | rfl
          · exact ⟨Γ, parts c hc⟩
          · exact ⟨Γ, ha⟩
          · exact ⟨Γ, hb⟩
      refine ih c hc hguarded ((hasStream_eq_false_iff.1 plain).2 c hc) ?_ hg
      exact List.eq_nil_iff_forall_not_mem.2 fun r hr => read r (mem_rowRefs_of_child hc hr)

/-- Whatever the catalog, the settings and the query: what guards an equality in the result is a parameter
with members after it, or the query for a collection that the catalog declares. It is never an entity as a
whole, nor an operator over anything but such a collection. -/
theorem expandQuery_guards {c : Catalog} {settings : Settings} {q : ExpandedQuery}
    (user : e.isUserWritten = true) (h : expandQuery c settings e = .ok q) :
    ∀ g ∈ q.query.guards, g.isRowPath = true ∨ g.isCollectionQuery c = true := by
  obtain ⟨n, d, p, p', hexpand, hreduce⟩ := Runs.of_expandQuery h
  have expanded : d.Guarded c none := guarded_invariant.expandWithin n rfl (Forest.empty_linked c) hexpand
    (guarded_of_isUserWritten user)
  have reduced : ResolvesGuards c .outside d q.query :=
    ((reduction_guarded p.forest).reduce (resolution_guarded p.forest) rfl hreduce).2
  obtain ⟨plain, read⟩ := Runs.reduce_closed hreduce
  exact (reduced.guarded (List.mem_singleton_self _) expanded.anywhere).guards plain read

end Queries

namespace Shop

/-- The customers that Bob has referred and that have two orders. -/
def referredWithTwoOrders : Expr :=
  .call .filter [.entitySet "Customer",
    .lambda ["c"] (.and (.eq (.member (.member (.param "c") "Referrer") "Name") (.string "Bob"))
      (.eq (.member (.member (.param "c") "Orders") "Count") (.int 2)))] none

/-- The customers that have two orders. -/
def withTwoOrders : Expr :=
  .call .filter [.entitySet "Customer",
    .lambda ["c"] (.eq (.member (.member (.param "c") "Orders") "Count") (.int 2))] none

end Shop

/-- The one equality is guarded by the referrer, the other one by the orders. -/
theorem guards_referredWithTwoOrders : ∃ q, Shop.referredWithTwoOrders.isUserWritten = true ∧
    expandQuery Shop.catalog {} Shop.referredWithTwoOrders = .ok q ∧ q.query.guards.length = 2 ∧
    ∀ g ∈ q.query.guards, g.isRowPath = true ∨ g.isCollectionQuery Shop.catalog = true := by
  obtain ⟨q, h, count⟩ := Except.exists_of_any
    (show (expandQuery Shop.catalog {} Shop.referredWithTwoOrders).toOption.any
      (fun q => q.query.guards.length == 2) = true by decide +kernel)
  have user : Shop.referredWithTwoOrders.isUserWritten = true := by decide
  exact ⟨q, user, h, eq_of_beq count, expandQuery_guards user h⟩

/-- A comparison with how many orders a customer has is guarded, and the guard is no path of a row: it is the
operator that finds the orders, which is never null. -/
theorem guards_withTwoOrders : ∃ q, Shop.withTwoOrders.isUserWritten = true ∧
    expandQuery Shop.catalog {} Shop.withTwoOrders = .ok q ∧
    ∃ g ∈ q.query.guards, g.isRowPath = false ∧ g.isCall = true := by
  obtain ⟨q, h, guarded⟩ := Except.exists_of_any
    (show (expandQuery Shop.catalog {} Shop.withTwoOrders).toOption.any
      (fun q => q.query.guards.any fun g => !g.isRowPath && g.isCall) = true by decide +kernel)
  obtain ⟨g, hg, form⟩ := List.any_eq_true.1 guarded
  rw [Bool.and_eq_true, Bool.not_eq_true'] at form
  exact ⟨q, by decide, h, g, hg, form⟩

end EntityQuery
