import EntityQuery.Proofs.Resolution
import EntityQuery.Proofs.Tables
import Mathlib.Data.List.Flatten

/-!
# The references that resolving keeps

A stream binds the references to its sources in its selector, as a lambda binds its parameters in its body.
Resolving over a scope takes away the references of the scope, and of the others it keeps those that no
stream binds (`openRefs`), all of them and in their order (`resolve_references`). A selector is resolved over
its stream first, and what is left of it over the scope; so it does not matter how deep streams are nested in
one another.
-/

namespace EntityQuery

open EntityQuery.Expr

variable {M : Model} {p p' : Progress} {s : RowScope} {e e' : Expr}

section OpenRefs

namespace Expr

mutual

/-- The references that no stream in the expression binds, from left to right and with repetitions. -/
def openRefs : Expr → List RowRef
  | .entitySet _ | .const _ | .param _ => []
  | .rowRef r => [r]
  | .member target _ => target.openRefs
  | .binary _ left right => left.openRefs ++ right.openRefs
  | .not operand => operand.openRefs
  | .cond test ifTrue ifFalse => test.openRefs ++ ifTrue.openRefs ++ ifFalse.openRefs
  | .record fields => fieldsOpenRefs fields
  | .tuple items => itemsOpenRefs items
  | .convert operand _ _ => operand.openRefs
  | .function _ arguments => itemsOpenRefs arguments
  | .call _ arguments _ => itemsOpenRefs arguments
  | .lambda _ body => body.openRefs
  | .stream rows selector frame => rows.openRefs ++ selector.openRefs.filter (!frame.scope.owns ·)
  | .nullSafeEqual guards left right => itemsOpenRefs guards ++ left.openRefs ++ right.openRefs
  | .entityShape _ rows => rows.openRefs
termination_by structural e => e

def itemsOpenRefs : List Expr → List RowRef
  | [] => []
  | e :: es => e.openRefs ++ itemsOpenRefs es
termination_by structural es => es

def fieldsOpenRefs : List (String × Expr) → List RowRef
  | [] => []
  | (_, e) :: es => e.openRefs ++ fieldsOpenRefs es
termination_by structural es => es

end

theorem itemsOpenRefs_eq (es : List Expr) : itemsOpenRefs es = es.flatMap openRefs := by
  induction es with
  | nil => rfl
  | cons e es ih => rw [itemsOpenRefs, List.flatMap_cons, ih]

theorem fieldsOpenRefs_eq (fields : List (String × Expr)) :
    fieldsOpenRefs fields = (fields.map (·.2)).flatMap openRefs := by
  induction fields with
  | nil => rfl
  | cons field fields ih => rw [fieldsOpenRefs, List.map_cons, List.flatMap_cons, ih]

theorem openRefs_eq (h : e.isReducedByParts = true) : e.openRefs = e.children.flatMap openRefs := by
  cases e with
  | rowRef _ | stream _ _ _ => cases h
  | _ => simp [openRefs, children, itemsOpenRefs_eq, fieldsOpenRefs_eq]

theorem SameHead.isReducedByParts {R : Expr → Expr → Prop} (head : SameHead R e e') :
    e'.isReducedByParts = e.isReducedByParts := by
  cases head <;> rfl

theorem isReducedByParts_of_isResolvedByParts (h : e.isResolvedByParts = true) : e.isReducedByParts = true := by
  cases e with
  | rowRef _ | stream _ _ _ => cases h
  | _ => rfl

theorem ne_rowRef_of_parts (h : e.isReducedByParts = true) (r : RowRef) : e ≠ .rowRef r := by
  rintro rfl
  cases h

/-- A reference that no stream binds is one of the references, and they stand in the same order. -/
theorem openRefs_sublist (e : Expr) : e.openRefs.Sublist e.rowRefs := by
  induction e using children_induction with
  | step e ih =>
    have byParts (kind : e.isReducedByParts = true) : e.openRefs.Sublist e.rowRefs := by
      rw [openRefs_eq kind, rowRefs_eq (ne_rowRef_of_parts kind)]
      exact List.Sublist.flatMap_right _ ih
    cases e with
    | rowRef r => exact List.Sublist.refl _
    | stream rows selector frame =>
      have hselector : (selector.openRefs.filter (!frame.scope.owns ·)).Sublist selector.rowRefs :=
        List.filter_sublist.trans (ih selector (.tail _ (.head _)))
      rw [openRefs, rowRefs_eq (e := .stream rows selector frame) nofun]
      simpa [children] using (ih rows (.head _)).append hselector
    | _ => exact byParts rfl

/-- Where there is no stream, nothing is bound. -/
theorem openRefs_of_plain (h : e.hasStream = false) : e.openRefs = e.rowRefs := by
  induction e using children_induction with
  | step e ih =>
    obtain ⟨head, parts⟩ := hasStream_eq_false_iff.1 h
    have byParts (kind : e.isReducedByParts = true) : e.openRefs = e.rowRefs := by
      rw [openRefs_eq kind, rowRefs_eq (ne_rowRef_of_parts kind)]
      exact List.flatMap_congr fun c hc => ih c hc (parts c hc)
    cases e with
    | rowRef r => rfl
    | stream rows selector frame => exact absurd rfl (head rows selector frame)
    | _ => exact byParts rfl

/-- Putting one parameter for another touches no reference. -/
theorem openRefs_substitute (e : Expr) (old new : String) :
    (e.substitute old (.param new)).openRefs = e.openRefs := by
  induction e using children_induction with
  | step e ih =>
    have byParts (kind : e.isReducedByParts = true) (none : substituteAt old (.param new) e = none) :
        (e.substitute old (.param new)).openRefs = e.openRefs := by
      have head : SameHead (fun c c' => c.openRefs = c'.openRefs) e (e.substitute old (.param new)) := by
        rw [substitute_of_none none]
        refine (SameHead.of_map _ _).mono ?_
        rintro c _ ⟨hc, rfl⟩
        exact (ih c hc).symm
      rw [openRefs_eq kind, openRefs_eq (head.isReducedByParts.trans kind), List.flatMap_def, List.flatMap_def,
        head.map_children]
    cases e with
    | rowRef r => rfl
    | param name =>
      rw [substitute_param]
      split <;> rfl
    | lambda params body =>
      rw [substitute_lambda]
      split
      · rfl
      · exact ih body (.head _)
    | stream rows selector frame =>
      rw [substitute_of_none rfl]
      change (rows.substitute old (.param new)).openRefs ++
        (selector.substitute old (.param new)).openRefs.filter _ = _
      rw [ih rows (.head _), ih selector (.tail _ (.head _)), openRefs]
    | _ => exact byParts rfl rfl

end Expr

end OpenRefs

section Resolving

theorem rowRefs_query (frame : StreamFrame) (rows : Expr) (selector? : Option Expr) :
    (frame.query rows selector?).rowRefs = rows.rowRefs ++ (selector?.map rowRefs).getD [] := by
  unfold StreamFrame.query
  cases frame.cardinality <;> cases selector? <;> simp [rowRefs_eq, children]

/-- Where the head stays, it is enough that the references of the scope go from the parts. -/
theorem rowRefs_of_sameHead
    (head : SameHead (fun c c' => c.openRefs.filter (!s.owns ·) = c'.rowRefs) e e')
    (kind : e.isReducedByParts = true) : e'.rowRefs = e.openRefs.filter (!s.owns ·) := by
  rw [rowRefs_eq (ne_rowRef_of_parts (head.isReducedByParts.trans kind)), openRefs_eq kind,
    List.filter_flatMap, List.flatMap_def, List.flatMap_def, ← head.map_children]

/-- What is resolved has the references that no stream binds, but for those of the scope. -/
theorem resolution_openRefs (f : Forest) :
    Resolution f fun s e e' => e'.rowRefs = e.openRefs.filter (!s.owns ·) where
  parts kind head :=
    rowRefs_of_sameHead (head.mono fun _ _ h => h.2.symm) (isReducedByParts_of_isResolvedByParts kind)
  kept owns := by simp [openRefs, owns, rowRefs, nodes]
  keptMember owns := by simp [openRefs, owns, rowRefs, nodes]
  row owns _ := by simp [openRefs, owns, rowRefs_readPath]
  entity owns _ := by simp [openRefs, owns, rowRefs_readPath, rowRefs_eq, children]
  property owns _ := by simp [openRefs, owns, rowRefs_readPath, rowRefs_eq, children]
  guarded hguards hleft hright := by
    refine rowRefs_of_sameHead (.nullSafeEqual (hguards.imp ?_) hleft.symm hright.symm) rfl
    rintro g g' (⟨h, -⟩ | ⟨r, path, rfl, owns, -, rfl⟩)
    · exact h.symm
    · simp [openRefs, owns, rowRefs_readPath]
  lambda _ hbody := rowRefs_of_sameHead (.lambda _ hbody.symm) rfl
  renamed {s params body body' name} _ hbody := by
    rw [Lambda.rename, openRefs_substitute] at hbody
    simpa [rowRefs_eq, children, openRefs] using hbody
  projected {s rows rows' selector body selector' frame} hselector plain hrows again := by
    rw [openRefs, openRefs_of_plain plain, hselector] at again
    rw [rowRefs_query, openRefs, List.filter_append, hrows]
    exact congrArg (rows.openRefs.filter (!s.owns ·) ++ ·) again
  unprojected {s rows rows' selector frame} returns hrows := by
    have bound : selector.openRefs.filter (!frame.scope.owns ·) = [] := by
      cases selector with
      | rowRef r =>
        simp only [StreamFrame.returnsRow, Bool.and_eq_true] at returns
        simp [openRefs, returns.1.1]
      | _ => cases returns
    rw [openRefs, bound, rowRefs_query, hrows]
    simp

/-- Whatever expression is resolved over a scope: if that succeeds, no stream is left and no reference of the
scope, at any depth. What is left are the references to other sources that no stream of the expression binds,
each as often as it occurs there and in the same order; without streams in the expression these are all of
its references to other sources. -/
theorem resolve_references (h : Runs (resolve s e) M p e' p') :
    e'.hasStream = false ∧ (∀ r ∈ e'.rowRefs, r ∈ e.rowRefs ∧ r.source ∉ s.sources) ∧
      e'.rowRefs = e.openRefs.filter (!s.owns ·) ∧
      (e.hasStream = false → e'.rowRefs = e.rowRefs.filter (!s.owns ·)) := by
  obtain ⟨-, plain, refs⟩ := (resolution_openRefs p.forest).resolve rfl h
  refine ⟨plain, fun r hr => ?_, refs, fun hplain => by rw [refs, openRefs_of_plain hplain]⟩
  rw [refs, List.mem_filter] at hr
  refine ⟨(openRefs_sublist e).subset hr.1, ?_⟩
  simpa [RowScope.owns] using hr.2

end Resolving

namespace Shop

/-- Where there are customers, orders, and the customers of an enclosing query. -/
def customersAround : Progress where
  forest := (((Forest.empty.addSource "Customer" false).2.addSource "Order" false).2.addSource "Customer" false).2

/-- The identity of the row that a source holds. -/
def identity (i : Nat) : Expr := .member (.rowRef ⟨⟨i⟩, ⟨i⟩, []⟩) "Id"

/-- Of a customer, the identities of the customer, of each order together with both customers, and of the
customer around. -/
def identities : Expr :=
  .tuple [identity 0, .stream (.entitySet "Order") (.tuple [identity 1, identity 0, identity 2])
    { (default : StreamFrame) with parameter := "o", sources := [⟨1⟩], needsProjection := true }, identity 2]

end Shop

/-- Only the customer around is left, in the selector and beside the stream. -/
theorem resolve_references_identities : ∃ e' p',
    Runs (resolve ⟨"c", [⟨0⟩]⟩ Shop.identities) ⟨Shop.catalog, {}⟩ Shop.customersAround e' p' ∧
    e'.hasStream = false ∧ e'.rowRefs = [⟨⟨2⟩, ⟨2⟩, []⟩, ⟨⟨2⟩, ⟨2⟩, []⟩] := by
  obtain ⟨⟨e', p'⟩, h, -⟩ := Except.exists_of_any
    (show (resolve ⟨"c", [⟨0⟩]⟩ Shop.identities ⟨Shop.catalog, {}⟩ Shop.customersAround).toOption.any
      (fun _ => true) = true by decide +kernel)
  obtain ⟨plain, -, refs, -⟩ := resolve_references h
  exact ⟨e', p', h, plain, refs⟩

end EntityQuery
