import EntityQuery.Evaluation.Operators
import Mathlib.Data.List.Forall2

/-!
# Outcomes up to the wording of errors

A rewritten query may quote other expressions in its errors than the query that it came from, but
it gives the same value, and it fails to find a field of a join's pair record only where the other
one does. That is `Alike`. All operators take alike arguments to alike outcomes.
-/

namespace EntityQuery

/-- The member is one of the fields that joins put around rows. -/
def isPairField (member : String) : Bool :=
  member == "outer" || member == "inner"

namespace EvalError

/-- A path that the expansion made leads to a field that is not there. -/
def isLostPath : EvalError → Bool
  | noMember member _ => isPairField member
  | _ => false

end EvalError

/-- Two evaluations with the same value, or with errors that are both lost paths or both not. -/
inductive Alike {α : Type} : Outcome α → Outcome α → Prop where
  | ok (v : α) : Alike (.ok v) (.ok v)
  | error {e e' : EvalError} (h : e.isLostPath = e'.isLostPath) : Alike (.error e) (.error e')

namespace Alike

variable {α β : Type}

@[refl] theorem refl (a : Outcome α) : Alike a a := by
  cases a with
  | ok v => exact .ok v
  | error e => exact .error rfl

theorem of_eq {a b : Outcome α} (h : a = b) : Alike a b := h ▸ refl a

theorem symm {a b : Outcome α} (h : Alike a b) : Alike b a := by
  cases h with
  | ok v => exact .ok v
  | error h => exact .error h.symm

theorem trans {a b c : Outcome α} (h : Alike a b) (k : Alike b c) : Alike a c := by
  cases h with
  | ok v => exact k
  | error h =>
    cases k with
    | error k => exact .error (h.trans k)

theorem eq_ok {a b : Outcome α} {v : α} (h : Alike a b) (ha : a = .ok v) : b = .ok v := by
  cases h with
  | ok _ => exact ha
  | error _ => cases ha

theorem ok_iff {a b : Outcome α} (h : Alike a b) (v : α) : a = .ok v ↔ b = .ok v :=
  ⟨h.eq_ok, h.symm.eq_ok⟩

/-- Alike outcomes continued alike stay alike. -/
theorem bind {a b : Outcome α} {f g : α → Outcome β} (h : Alike a b)
    (k : ∀ v, a = .ok v → Alike (f v) (g v)) : Alike (a >>= f) (b >>= g) := by
  cases h with
  | ok v => exact k v rfl
  | error h => exact .error h

theorem map {a b : Outcome α} (f : α → β) (h : Alike a b) : Alike (f <$> a) (f <$> b) := by
  cases h with
  | ok v => exact .ok (f v)
  | error h => exact .error h

end Alike

namespace Argument

/-- Two arguments that are used alike. -/
structure Alike (a b : Argument) : Prop where
  value : EntityQuery.Alike (a.value ()) (b.value ())
  apply : ∀ values, EntityQuery.Alike (a.apply values) (b.apply values)

theorem Alike.rows {a b : Argument} (h : EntityQuery.Alike (a.value ()) (b.value ())) :
    EntityQuery.Alike a.rows b.rows := by
  refine EntityQuery.Alike.bind h fun v _ => ?_
  rfl

theorem Alike.rowCount {a b : Argument} (h : a.Alike b) :
    EntityQuery.Alike a.rowCount b.rowCount := by
  refine EntityQuery.Alike.bind h.value fun v _ => ?_
  rfl

end Argument

section Rows

variable {p q r r' : Argument}

theorem keepRows_alike {rows : List Value}
    (h : ∀ row ∈ rows, Alike (p.apply [row]) (q.apply [row])) :
    Alike (keepRows p rows) (keepRows q rows) := by
  induction rows with
  | nil => rfl
  | cons row rows ih =>
    refine .bind (h row (.head _)) fun _ _ => ?_
    refine .bind (ih fun row hrow => h row (.tail _ hrow)) fun _ _ => ?_
    rfl

theorem mapRows_alike {rows : List Value}
    (h : ∀ row ∈ rows, Alike (p.apply [row]) (q.apply [row])) :
    Alike (mapRows p rows) (mapRows q rows) := by
  induction rows with
  | nil => rfl
  | cons row rows ih =>
    refine .bind (h row (.head _)) fun _ _ => ?_
    refine .bind (ih fun row hrow => h row (.tail _ hrow)) fun _ _ => ?_
    rfl

theorem mapRows_eq_mapM (selector : Argument) (rows : List Value) :
    mapRows selector rows = rows.mapM fun row => selector.apply [row] := by
  induction rows with
  | nil => rfl
  | cons row rows ih => simp only [mapRows, List.mapM_cons, ih]

theorem keyRows_alike {rows : List Value}
    (h : ∀ row ∈ rows, Alike (p.apply [row]) (q.apply [row])) :
    Alike (keyRows p rows) (keyRows q rows) :=
  .bind (mapRows_alike h) fun _ _ => .refl _

theorem mapM_alike {α β : Type} {f g : α → Outcome β} {l : List α}
    (h : ∀ x ∈ l, Alike (f x) (g x)) : Alike (l.mapM f) (l.mapM g) := by
  induction l with
  | nil => rfl
  | cons x l ih =>
    simp only [List.mapM_cons]
    refine .bind (h x (.head _)) fun _ _ => ?_
    refine .bind (ih fun x hx => h x (.tail _ hx)) fun _ _ => ?_
    rfl

theorem joinRows_alike (inner : List (Value × Value)) (rows : List Value)
    (h : ∀ values, Alike (p.apply values) (q.apply values))
    (k : ∀ values, Alike (r.apply values) (r'.apply values)) :
    Alike (joinRows p r inner rows) (joinRows q r' inner rows) := by
  induction rows with
  | nil => rfl
  | cons row rows ih =>
    refine .bind (h _) fun _ _ => ?_
    refine .bind (mapM_alike fun _ _ => k _) fun _ _ => ?_
    exact .bind ih fun _ _ => .refl _

theorem groupRows_alike (inner : List (Value × Value)) (rows : List Value)
    (h : ∀ values, Alike (p.apply values) (q.apply values))
    (k : ∀ values, Alike (r.apply values) (r'.apply values)) :
    Alike (groupRows p r inner rows) (groupRows q r' inner rows) := by
  induction rows with
  | nil => rfl
  | cons row rows ih =>
    refine .bind (h _) fun _ _ => ?_
    refine .bind (k _) fun _ _ => ?_
    exact .bind ih fun _ _ => .refl _

theorem flattenRows_alike {result result' : Option Argument} (rows : List Value)
    (h : ∀ values, Alike (p.apply values) (q.apply values))
    (k : Option.Rel Argument.Alike result result') :
    Alike (flattenRows p result rows) (flattenRows q result' rows) := by
  induction rows with
  | nil => rfl
  | cons row rows ih =>
    refine .bind (h _) fun v _ => ?_
    cases v with
    | list elements =>
      refine .bind (.refl (pure elements)) fun _ _ => ?_
      cases k with
      | none => exact .bind (.refl (pure _)) fun _ _ => .bind ih fun _ _ => .refl _
      | some k =>
        refine .bind (mapM_alike fun _ _ => k.apply _) fun _ _ => ?_
        exact .bind ih fun _ _ => .refl _
    | _ => rfl

end Rows

/-- Operators do not tell alike arguments apart. -/
theorem evalOperator_alike (op : Operator) {as bs : List Argument}
    (h : List.Forall₂ Argument.Alike as bs) :
    Alike (evalOperator op as) (evalOperator op bs) := by
  cases h with
  | nil => cases op <;> rfl
  | @cons a b as bs ha h =>
    have rows := Argument.Alike.rows ha.value
    cases h with
    | nil =>
      cases op
      all_goals first
        | rfl
        | exact ha.value
        | exact .bind rows fun _ _ => .refl _
    | @cons a₂ b₂ as bs h₂ h =>
      have rest : Option.Rel Argument.Alike as.head? bs.head? := by
        cases h with
        | nil => exact .none
        | cons h _ => exact .some h
      cases op
      case filter =>
        exact .bind rows fun _ _ => .bind (keepRows_alike fun _ _ => h₂.apply _) fun _ _ => .refl _
      case select =>
        exact .bind rows fun _ _ => .bind (mapRows_alike fun _ _ => h₂.apply _) fun _ _ => .refl _
      case orderBy =>
        exact .bind rows fun _ _ => .bind (keyRows_alike fun _ _ => h₂.apply _) fun _ _ => .refl _
      case orderByDescending =>
        exact .bind rows fun _ _ => .bind (keyRows_alike fun _ _ => h₂.apply _) fun _ _ => .refl _
      case selectMany =>
        exact .bind rows fun _ _ =>
          .bind (flattenRows_alike _ h₂.apply rest) fun _ _ => .refl _
      case take =>
        exact .bind rows fun _ _ => .bind h₂.rowCount fun _ _ => .refl _
      case skip =>
        exact .bind rows fun _ _ => .bind h₂.rowCount fun _ _ => .refl _
      case contains =>
        exact .bind rows fun _ _ => .bind h₂.value fun _ _ => .refl _
      case join =>
        rcases h with _ | ⟨h₃, _ | ⟨h₄, _ | ⟨h₅, _⟩⟩⟩
        case cons.cons.cons =>
          refine .bind rows fun _ _ => .bind (Argument.Alike.rows h₂.value) fun _ _ => ?_
          refine .bind (keyRows_alike fun _ _ => h₄.apply _) fun inner _ => ?_
          exact .bind (joinRows_alike inner _ h₃.apply h₅.apply) fun _ _ => .refl _
        all_goals rfl
      case groupJoin =>
        rcases h with _ | ⟨h₃, _ | ⟨h₄, _ | ⟨h₅, _⟩⟩⟩
        case cons.cons.cons =>
          refine .bind rows fun _ _ => .bind (Argument.Alike.rows h₂.value) fun _ _ => ?_
          refine .bind (keyRows_alike fun _ _ => h₄.apply _) fun inner _ => ?_
          exact .bind (groupRows_alike inner _ h₃.apply h₅.apply) fun _ _ => .refl _
        all_goals rfl
      all_goals first
        | rfl
        | exact ha.value
        | exact .bind rows fun _ _ => .refl _

end EntityQuery
