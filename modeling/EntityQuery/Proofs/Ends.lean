import EntityQuery.Proofs.Names

/-!
# How a step ends

`Ends allowed x M p Q` says that the step `x`, started with the progress `p`, stops with an `allowed`
error, or succeeds and makes `Q` true of its result and of the progress that it leaves. The equations
below follow the text of a step; the rules for the walks carry an invariant of the progress and a
relation between an expression and what becomes of it.
-/

namespace EntityQuery

variable {α β : Type} {M : Model} {p : Progress} {allowed : ExpansionError → Prop}

/-- The step succeeds with `Q`, or its error is allowed. -/
def Ends (allowed : ExpansionError → Prop) (x : Expansion α) (M : Model) (p : Progress)
    (Q : α → Progress → Prop) : Prop :=
  match x M p with
  | .ok (a, q) => Q a q
  | .error cause => allowed cause

namespace Ends

variable {Q R : α → Progress → Prop}

theorem iff_runs {x : Expansion α} : Ends allowed x M p Q ↔
    (∀ a q, Runs x M p a q → Q a q) ∧ ∀ cause, x M p = .error cause → allowed cause := by
  unfold Ends Runs
  cases x M p with
  | ok r => exact ⟨fun h => ⟨fun a q heq => by cases heq; exact h, nofun⟩, fun h => h.1 _ _ rfl⟩
  | error cause => exact ⟨fun h => ⟨nofun, fun _ heq => by cases heq; exact h⟩, fun h => h.2 _ rfl⟩

theorem mono {x : Expansion α} (h : Ends allowed x M p Q) (k : ∀ a q, Q a q → R a q) :
    Ends allowed x M p R :=
  iff_runs.2 ((iff_runs.1 h).imp_left fun h a q hrun => k a q (h a q hrun))

/-- Two things that are known are handed on one by one. -/
theorem both {P : α → Progress → Prop} {x : Expansion α} (h : Ends allowed x M p fun a q => P a q ∧ Q a q)
    (k : ∀ a q, P a q → Q a q → R a q) : Ends allowed x M p R :=
  h.mono fun a q h => k a q h.1 h.2

/-- What is known of the successful runs may be added. -/
theorem and_runs {x : Expansion α} (h : Ends allowed x M p Q)
    (k : ∀ a q, Runs x M p a q → R a q) : Ends allowed x M p fun a q => Q a q ∧ R a q :=
  iff_runs.2 ((iff_runs.1 h).imp_left fun h a q hrun => ⟨h a q hrun, k a q hrun⟩)

@[simp] theorem pure_iff {a : α} : Ends allowed (pure a) M p Q ↔ Q a p := Iff.rfl

@[simp] theorem throw_iff {cause : ExpansionError} :
    Ends allowed (throw cause : Expansion α) M p Q ↔ allowed cause := Iff.rfl

@[simp] theorem bind_iff {x : Expansion α} {f : α → Expansion β} {Q : β → Progress → Prop} :
    Ends allowed (x >>= f) M p Q ↔ Ends allowed x M p fun a q => Ends allowed (f a) M q Q := by
  change (match (x M p >>= fun r : α × Progress => f r.1 M r.2) with
    | .ok (b, q) => Q b q
    | .error cause => allowed cause) ↔ _
  rw [Ends]
  cases x M p <;> exact Iff.rfl

@[simp] theorem map_iff {x : Expansion α} {f : α → β} {Q : β → Progress → Prop} :
    Ends allowed (f <$> x) M p Q ↔ Ends allowed x M p fun a q => Q (f a) q := by
  rw [← bind_pure_comp, bind_iff]
  exact Iff.rfl

@[simp] theorem get_iff {Q : Progress → Progress → Prop} :
    Ends allowed get M p Q ↔ Q p p := Iff.rfl

@[simp] theorem read_iff {Q : Model → Progress → Prop} :
    Ends allowed read M p Q ↔ Q M p := Iff.rfl

@[simp] theorem modify_iff {change : Progress → Progress} {Q : PUnit → Progress → Prop} :
    Ends allowed (modify change) M p Q ↔ Q ⟨⟩ (change p) := Iff.rfl

@[simp] theorem forest_iff {Q : Forest → Progress → Prop} :
    Ends allowed Expansion.forest M p Q ↔ Q p.forest p := Iff.rfl

@[simp] theorem node_iff {n : NodeId} {Q : Node → Progress → Prop} :
    Ends allowed (Expansion.node n) M p Q ↔ Q (p.forest.node n) p := Iff.rfl

@[simp] theorem ref_iff {n : NodeId} {Q : Expr → Progress → Prop} :
    Ends allowed (Expansion.ref n) M p Q ↔ Q (p.forest.ref n) p := Iff.rfl

@[simp] theorem settings_iff {Q : Settings → Progress → Prop} :
    Ends allowed Expansion.settings M p Q ↔ Q M.settings p := Iff.rfl

@[simp] theorem setForest_iff {f : Forest} {Q : Unit → Progress → Prop} :
    Ends allowed (Expansion.setForest f) M p Q ↔ Q () { p with forest := f } := Iff.rfl

@[simp] theorem modifyForest_iff {change : Forest → Forest} {Q : Unit → Progress → Prop} :
    Ends allowed (Expansion.modifyForest change) M p Q ↔ Q () { p with forest := change p.forest } :=
  Iff.rfl

@[simp] theorem modifyTally_iff {change : Tally → Tally} {Q : Unit → Progress → Prop} :
    Ends allowed (Expansion.modifyTally change) M p Q ↔ Q () { p with tally := change p.tally } :=
  Iff.rfl

@[simp] theorem growForest_iff {grow : Forest → α × Forest} :
    Ends allowed (Expansion.growForest grow) M p Q ↔
      Q (grow p.forest).1 { p with forest := (grow p.forest).2 } := Iff.rfl

@[simp] theorem freshName_iff {base : String} {Q : String → Progress → Prop} :
    Ends allowed (Expansion.freshName base) M p Q ↔
      Q (base ++ toString (p.names + 1)) { p with names := p.names + 1 } := Iff.rfl

/-- A look-up in the catalog that finds something. -/
theorem ofCatalog {stage : Stage} {result : Except CatalogError α} {a : α} (h : result = .ok a) :
    Ends allowed (Expansion.ofCatalog stage result) M p Q ↔ Q a p := by
  subst h
  exact Iff.rfl

theorem entityType {stage : Stage} {name : String} {t : EntityType}
    {Q : EntityType → Progress → Prop} (h : M.catalog.type? name = some t) :
    Ends allowed (Expansion.entityType stage name) M p Q ↔ Q t p := by
  rw [Expansion.entityType, bind_iff, read_iff, ofCatalog (a := t)]
  rw [Catalog.type, h]

/-- A look-up in the catalog that may fail. -/
theorem entityType_of {stage : Stage} {name : String} {Q : EntityType → Progress → Prop}
    (h : ∀ t, M.catalog.type? name = some t → Q t p) (fails : ∀ cause, allowed (.catalog stage cause)) :
    Ends allowed (Expansion.entityType stage name) M p Q := by
  rw [Expansion.entityType, bind_iff, read_iff, Catalog.type]
  cases ht : M.catalog.type? name with
  | none => exact fails _
  | some t => exact h t ht

theorem ofCatalog_of {stage : Stage} {result : Except CatalogError α} (h : ∀ a, result = .ok a → Q a p)
    (fails : ∀ cause, allowed (.catalog stage cause)) :
    Ends allowed (Expansion.ofCatalog stage result) M p Q := by
  cases result with
  | error cause => exact fails cause
  | ok a => exact h a rfl

section Walks

open EntityQuery.Expr

variable {I : Progress → Prop} {f : Expr → Expansion Expr} {S : Expr → Expr → Prop} {e : Expr}

theorem mapItems {es : List Expr} (hp : I p)
    (step : ∀ c ∈ es, ∀ q, I q → Ends allowed (f c) M q fun c' q' => I q' ∧ S c c') :
    Ends allowed (Expr.mapItems f es) M p fun es' q => I q ∧ List.Forall₂ S es es' := by
  induction es generalizing p with
  | nil => exact ⟨hp, .nil⟩
  | cons e es ih =>
    simp only [Expr.mapItems, bind_iff, pure_iff]
    refine (step e (.head _) p hp).both fun e' q hq he => ?_
    exact (ih hq fun c hc => step c (.tail _ hc)).both fun es' q' hq' hes => ⟨hq', .cons he hes⟩

theorem mapFields {fields : List (String × Expr)} (hp : I p)
    (step : ∀ c ∈ fields.map (·.2), ∀ q, I q → Ends allowed (f c) M q fun c' q' => I q' ∧ S c c') :
    Ends allowed (Expr.mapFields f fields) M p fun fields' q => I q ∧
      List.Forall₂ (fun x y => x.1 = y.1 ∧ S x.2 y.2) fields fields' := by
  induction fields generalizing p with
  | nil => exact ⟨hp, .nil⟩
  | cons x fields ih =>
    simp only [Expr.mapFields, bind_iff, pure_iff]
    refine (step x.2 (.head _) p hp).both fun e' q hq he => ?_
    exact (ih hq fun c hc => step c (.tail _ hc)).both fun _ q' hq' hes => ⟨hq', .cons ⟨rfl, he⟩ hes⟩

/-- The parts are rewritten one after the other, and the head stays. -/
theorem mapChildren (hp : I p)
    (step : ∀ c ∈ e.children, ∀ q, I q → Ends allowed (f c) M q fun c' q' => I q' ∧ S c c') :
    Ends allowed (e.mapChildren f) M p fun e' q => I q ∧ SameHead S e e' := by
  cases e with
  | entitySet entity => exact ⟨hp, .entitySet entity⟩
  | const value => exact ⟨hp, .const value⟩
  | param name => exact ⟨hp, .param name⟩
  | rowRef ref => exact ⟨hp, .rowRef ref⟩
  | member t name =>
    simp only [Expr.mapChildren, bind_iff, pure_iff]
    exact (step t (.head _) p hp).mono fun _ _ h => h.imp_right (.member name)
  | not a =>
    simp only [Expr.mapChildren, bind_iff, pure_iff]
    exact (step a (.head _) p hp).mono fun _ _ h => h.imp_right .not
  | convert a dataType nullable =>
    simp only [Expr.mapChildren, bind_iff, pure_iff]
    exact (step a (.head _) p hp).mono fun _ _ h => h.imp_right (.convert dataType nullable)
  | lambda params body =>
    simp only [Expr.mapChildren, bind_iff, pure_iff]
    exact (step body (.head _) p hp).mono fun _ _ h => h.imp_right (.lambda params)
  | entityShape entity rows =>
    simp only [Expr.mapChildren, bind_iff, pure_iff]
    exact (step rows (.head _) p hp).mono fun _ _ h => h.imp_right (.entityShape entity)
  | binary op a b =>
    simp only [Expr.mapChildren, bind_iff, pure_iff]
    refine (step a (.head _) p hp).both fun a' q hq ha => ?_
    exact (step b (.tail _ (.head _)) q hq).mono fun b' q' h => h.imp_right (.binary op ha)
  | stream rows selector frame =>
    simp only [Expr.mapChildren, bind_iff, pure_iff]
    refine (step rows (.head _) p hp).both fun a' q hq ha => ?_
    exact (step selector (.tail _ (.head _)) q hq).mono fun b' q' h => h.imp_right (.stream frame ha)
  | cond a b c =>
    simp only [Expr.mapChildren, bind_iff, pure_iff]
    refine (step a (.head _) p hp).both fun a' q hq ha => ?_
    refine (step b (.tail _ (.head _)) q hq).both fun b' q' hq' hb => ?_
    exact (step c (.tail _ (.tail _ (.head _))) q' hq').mono fun c' _ h => h.imp_right (.cond ha hb)
  | record fields =>
    simp only [Expr.mapChildren, bind_iff, pure_iff]
    exact (mapFields hp step).mono fun _ _ h => h.imp_right .record
  | tuple items =>
    simp only [Expr.mapChildren, bind_iff, pure_iff]
    exact (mapItems hp step).mono fun _ _ h => h.imp_right .tuple
  | function name arguments =>
    simp only [Expr.mapChildren, bind_iff, pure_iff]
    exact (mapItems hp step).mono fun _ _ h => h.imp_right (.function name)
  | call operator arguments note =>
    simp only [Expr.mapChildren, bind_iff, pure_iff]
    exact (mapItems hp step).mono fun _ _ h => h.imp_right (.call operator note)
  | nullSafeEqual guards a b =>
    simp only [Expr.mapChildren, bind_iff, pure_iff]
    refine (mapItems hp fun c hc => step c (List.mem_append_left _ hc)).both fun guards' q hq hg => ?_
    refine (step a (by simp [children]) q hq).both fun a' q' hq' ha => ?_
    exact (step b (by simp [children]) q' hq').mono fun b' _ h => h.imp_right (.nullSafeEqual hg ha)

/-- Rewriting relates an expression to its result, if the action does so once the parts are related. -/
theorem rewrite {act : Expr → Expansion Expr} (hp : I p)
    (step : ∀ e d q, I q → SameHead S e d → Ends allowed (act d) M q fun e' q' => I q' ∧ S e e') :
    Ends allowed (e.rewrite act) M p fun e' q => I q ∧ S e e' := by
  induction e using children_induction generalizing p with
  | step e ih =>
    rw [rewrite_eq, bind_iff]
    refine (mapChildren hp fun c hc q hq => ih c hc hq).both fun d q hq head => ?_
    exact step e d q hq head

/-- Going down relates an expression to its result, if what takes the place of a node is related to it
and related parts make related wholes. `P` is what is known of the expressions that are met. -/
theorem descend {P : Expr → Prop} {act? : Expr → Option (Expansion Expr)} (hp : I p) (he : P e)
    (down : ∀ e, P e → act? e = none → ∀ c ∈ e.children, P c)
    (stop : ∀ e x q, P e → act? e = some x → I q → Ends allowed x M q fun e' q' => I q' ∧ S e e')
    (go : ∀ e e', act? e = none → SameHead S e e' → S e e') :
    Ends allowed (e.descend act?) M p fun e' q => I q ∧ S e e' := by
  induction e using children_induction generalizing p with
  | step e ih =>
    rw [descend_eq]
    cases hat : act? e with
    | some x => exact stop e x p he hat hp
    | none =>
      exact (mapChildren hp fun c hc q hq => ih c hc hq (down e he hat c hc)).both
        fun e' q hq head => ⟨hq, go e e' hat head⟩

/-- What each step of a loop keeps is kept by the loop. -/
theorem forM {α : Type} {f : α → Expansion Unit} {l : List α} (hp : I p)
    (step : ∀ a ∈ l, ∀ q, I q → Ends allowed (f a) M q fun _ q' => I q') :
    Ends allowed (l.forM f) M p fun _ q => I q := by
  induction l generalizing p with
  | nil => exact hp
  | cons a l ih =>
    change Ends allowed (f a >>= fun _ => l.forM f) M p _
    refine bind_iff.2 ((step a (.head _) p hp).mono fun _ q hq => ?_)
    exact ih hq fun a ha => step a (.tail _ ha)

theorem mapM {α β : Type} {f : α → Expansion β} {l : List α} (hp : I p)
    (step : ∀ a q, I q → Ends allowed (f a) M q fun _ q' => I q') :
    Ends allowed (l.mapM f) M p fun _ q => I q := by
  induction l generalizing p with
  | nil => exact hp
  | cons a l ih =>
    simp only [List.mapM_cons, bind_iff, pure_iff]
    exact (step a p hp).mono fun _ q hq => (ih hq).mono fun _ _ h => h

end Walks

end Ends

end EntityQuery
