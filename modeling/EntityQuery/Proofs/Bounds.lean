import EntityQuery.Proofs.Finishing
import EntityQuery.Proofs.Names

/-!
# Raising the bound

Expanding with a higher bound changes nothing, unless the lower bound was used up
(`expandWithin_stable`). Each step that expands queries hands on what it is given to expand them, so
it is enough to look at the places where it does that.
-/

namespace EntityQuery

open EntityQuery.Expr

variable {α β : Type} {M : Model} {p : Progress} {recur recur' : Recur} {n m : Nat} {e : Expr}

/-- The second step does what the first one does, unless the first one uses up a bound. -/
def Below (x y : Expansion α) : Prop := ∀ M p, x M p = .error .exhausted ∨ x M p = y M p

namespace Below

theorem refl (x : Expansion α) : Below x x := fun _ _ => .inr rfl

theorem exhausted (y : Expansion α) : Below (throw .exhausted) y := fun _ _ => .inl rfl

theorem bind {x y : Expansion α} {f g : α → Expansion β} (h : Below x y) (k : ∀ a, Below (f a) (g a)) :
    Below (x >>= f) (y >>= g) := by
  intro M p
  change (x M p >>= fun r : α × Progress => f r.1 M r.2) = .error .exhausted ∨
    (x M p >>= fun r : α × Progress => f r.1 M r.2) = (y M p >>= fun r : α × Progress => g r.1 M r.2)
  rcases h M p with hx | hx
  · rw [hx]
    exact .inl rfl
  · rw [← hx]
    cases hrun : x M p with
    | error cause => exact .inr rfl
    | ok r => exact k r.1 M r.2

theorem mapItems {f g : Expr → Expansion Expr} {es : List Expr} (h : ∀ c ∈ es, Below (f c) (g c)) :
    Below (Expr.mapItems f es) (Expr.mapItems g es) := by
  induction es with
  | nil => exact .refl _
  | cons e es ih =>
    exact .bind (h e (.head _)) fun _ => .bind (ih fun c hc => h c (.tail _ hc)) fun _ => .refl _

theorem mapFields {f g : Expr → Expansion Expr} {fields : List (String × Expr)}
    (h : ∀ c ∈ fields.map (·.2), Below (f c) (g c)) :
    Below (Expr.mapFields f fields) (Expr.mapFields g fields) := by
  induction fields with
  | nil => exact .refl _
  | cons field fields ih =>
    exact .bind (h field.2 (.head _)) fun _ => .bind (ih fun c hc => h c (.tail _ hc)) fun _ => .refl _

theorem mapChildren {f g : Expr → Expansion Expr} (h : ∀ c ∈ e.children, Below (f c) (g c)) :
    Below (e.mapChildren f) (e.mapChildren g) := by
  cases e with
  | entitySet _ | const _ | param _ | rowRef _ => exact .refl _
  | member _ _ | not _ | convert _ _ _ | lambda _ _ | entityShape _ _ =>
    exact .bind (h _ (.head _)) fun _ => .refl _
  | binary _ _ _ | stream _ _ _ =>
    exact .bind (h _ (.head _)) fun _ => .bind (h _ (.tail _ (.head _))) fun _ => .refl _
  | cond _ _ _ =>
    exact .bind (h _ (.head _)) fun _ => .bind (h _ (.tail _ (.head _))) fun _ =>
      .bind (h _ (.tail _ (.tail _ (.head _)))) fun _ => .refl _
  | record _ => exact .bind (.mapFields h) fun _ => .refl _
  | tuple _ | function _ _ | call _ _ _ => exact .bind (.mapItems h) fun _ => .refl _
  | nullSafeEqual _ _ _ =>
    exact .bind (.mapItems fun c hc => h c (List.mem_append_left _ hc)) fun _ =>
      .bind (h _ (by simp [children])) fun _ => .bind (h _ (by simp [children])) fun _ => .refl _

end Below

section Steps

variable (h : ∀ e, Below (recur e) (recur' e))

include h

theorem expandSource_below (e : Expr) : Below (expandSource recur e) (expandSource recur' e) :=
  .bind (h e) fun _ => .refl _

theorem expandSubqueries_below (e : Expr) :
    Below (expandSubqueries recur e) (expandSubqueries recur' e) := by
  unfold expandSubqueries
  induction e using children_induction with
  | step e ih =>
    rw [descend_eq, descend_eq]
    have parts := Below.mapChildren ih
    cases e with
    | stream rows selector frame => exact .refl _
    | call operator arguments note =>
      simp only [subqueryAt]
      cases (Expr.call operator arguments note).chainRoot with
      | entitySet _ => exact h _
      | _ => exact parts
    | _ => exact parts

theorem prepareBody_below (body : Expr) : Below (prepareBody recur body) (prepareBody recur' body) :=
  .bind (.refl _) fun _ => expandSubqueries_below h _

theorem joinBody_below (s : Stream) (x : String) (body : Expr) :
    Below (joinBody recur s x body) (joinBody recur' s x body) :=
  .bind (prepareBody_below h _) fun _ => .refl _

theorem resolvedBody_below (s : Stream) (x : String) (body : Expr) :
    Below (resolvedBody recur s x body) (resolvedBody recur' s x body) :=
  .bind (joinBody_below h s x body) fun _ => .refl _

theorem expandFilter_below (source predicate : Expr) (note : Option CallNote) :
    Below (expandFilter recur source predicate note) (expandFilter recur' source predicate note) :=
  .bind (.refl _) fun _ => .bind (expandSource_below h source) fun _ =>
    .bind (resolvedBody_below h _ _ _) fun _ => .refl _

theorem expandSelect_below (source selector : Expr) :
    Below (expandSelect recur source selector) (expandSelect recur' source selector) :=
  .bind (.refl _) fun _ => .bind (expandSource_below h source) fun _ =>
    .bind (joinBody_below h _ _ _) fun _ => .refl _

theorem expandOrderBy_below (operator : Operator) (source key : Expr) :
    Below (expandOrderBy recur operator source key) (expandOrderBy recur' operator source key) :=
  .bind (.refl _) fun _ => .bind (expandSource_below h source) fun _ =>
    .bind (resolvedBody_below h _ _ _) fun _ => .refl _

theorem expandThenBy_below (operator : Operator) (source key : Expr) :
    Below (expandThenBy recur operator source key) (expandThenBy recur' operator source key) := by
  refine .bind (.refl _) fun _ => .bind (expandSource_below h source) fun s => ?_
  split
  · exact .bind (.refl (throw _)) fun _ => .bind (resolvedBody_below h _ _ _) fun _ => .refl _
  · exact .bind (resolvedBody_below h _ _ _) fun _ => .refl _

theorem selectResult_below (m : MergedStreams) (result : Option ResultSelector) :
    Below (selectResult recur m result) (selectResult recur' m result) := by
  unfold selectResult
  split
  · exact .refl _
  · exact .bind (prepareBody_below h _) fun _ => .refl _

theorem expandJoin_below (outer inner outerKey innerKey result : Expr) :
    Below (expandJoin recur outer inner outerKey innerKey result)
      (expandJoin recur' outer inner outerKey innerKey result) := by
  refine .bind (.refl _) fun _ => .bind (.refl _) fun _ => .bind (.refl _) fun _ =>
    .bind (expandSource_below h outer) fun _ => .bind (expandSource_below h inner) fun _ =>
      .bind (resolvedBody_below h _ _ _) fun _ => .bind (resolvedBody_below h _ _ _) fun _ => ?_
  dsimp only
  split
  · exact .bind (.refl (throw _)) fun _ => .bind (.refl _) fun _ => .bind (.refl _) fun _ =>
      selectResult_below h _ _
  · exact .bind (.refl _) fun _ => .bind (.refl _) fun _ => selectResult_below h _ _

theorem expandHoisted_below (plan : HoistPlan) :
    Below (expandHoisted recur plan) (expandHoisted recur' plan) :=
  .bind (.refl _) fun _ => .bind (.refl _) fun _ => .bind (expandSource_below h _) fun _ => .refl _

theorem correlate_below (outer : Stream) (collection : Expr) :
    Below (correlate recur outer collection) (correlate recur' outer collection) :=
  .bind (expandSource_below h collection) fun _ => .refl _

theorem expandSelectMany_below (source selector : Expr) (result : Option Expr) :
    Below (expandSelectMany recur source selector result) (expandSelectMany recur' source selector result) := by
  refine .bind (.refl _) fun _ => .bind (.refl _) fun _ => .bind (expandSource_below h source) fun _ =>
    .bind (.refl _) fun _ => .bind (.refl _) fun found => ?_
  cases found with
  | error _ => exact .bind (correlate_below h _ _) fun _ => selectResult_below h _ _
  | ok plan =>
    refine .bind (expandHoisted_below h plan) fun inner => ?_
    cases inner with
    | none => exact .bind (correlate_below h _ _) fun _ => selectResult_below h _ _
    | some _ => exact .bind (.refl _) fun _ => selectResult_below h _ _

theorem expandTerminal_below (operator : Operator) (arguments : List Expr) :
    Below (expandTerminal recur operator arguments) (expandTerminal recur' operator arguments) := by
  cases arguments with
  | nil => exact .refl _
  | cons source rest => exact .bind (expandSource_below h _) fun _ => .refl _

theorem expandOperator_below (info : OperatorInfo) (arguments : List Expr) (note : Option CallNote) :
    Below (expandOperator recur info arguments note) (expandOperator recur' info arguments note) := by
  unfold expandOperator
  dsimp only
  split
  · exact .bind (expandFilter_below h _ _ _) fun _ => .refl _
  · exact .bind (expandSelect_below h _ _) fun _ => .refl _
  · exact .bind (expandOrderBy_below h _ _ _) fun _ => .refl _
  · exact .bind (expandOrderBy_below h _ _ _) fun _ => .refl _
  · exact .bind (expandThenBy_below h _ _ _) fun _ => .refl _
  · exact .bind (expandThenBy_below h _ _ _) fun _ => .refl _
  · exact .bind (expandJoin_below h _ _ _ _ _) fun _ => .refl _
  · exact .bind (expandSelectMany_below h _ _ _) fun _ => .refl _
  · split
    · exact expandTerminal_below h _ _
    · exact .refl _

theorem expandCall_below (operator : Operator) (arguments : List Expr) (note : Option CallNote) :
    Below (expandCall recur operator arguments note) (expandCall recur' operator arguments note) := by
  unfold expandCall
  split
  · dsimp only
    split
    · exact .bind (.refl (throw _)) fun _ => expandOperator_below h _ _ _
    · exact expandOperator_below h _ _ _
  · exact .refl _

end Steps

theorem expandWithin_below (n : Nat) (e : Expr) : Below (expandWithin n e) (expandWithin (n + 1) e) := by
  induction n generalizing e with
  | zero => exact .exhausted _
  | succ n ih =>
    cases e with
    | call operator arguments note => exact expandCall_below ih operator arguments note
    | _ => exact .refl _

/-- Beyond a bound that is not used up, the bound makes no difference. -/
theorem expandWithin_stable (h : expandWithin n e M p ≠ .error .exhausted) (hnm : n ≤ m) :
    expandWithin m e M p = expandWithin n e M p := by
  induction hnm with
  | refl => rfl
  | step _ ih => exact ((expandWithin_below _ e M p).resolve_left (ih ▸ h)).symm.trans ih

end EntityQuery
