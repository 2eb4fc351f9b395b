import EntityQuery.Expansion.KeyEquality
import EntityQuery.Expansion.Binding
import EntityQuery.Proofs.Scalars

/-!
# Rewriting node by node

Binding and comparing by keys rebuild an expression from the leaves upwards. What they do with a node
whose parts are rewritten is `bindNode` and `compareNode`; which nodes are equalities does not depend on
what became of their parts. Equalities of anything but rows stay equalities (`Runs.compareSides_iff`).
-/

namespace EntityQuery

open EntityQuery.Expr

variable {e d : Expr} {op : BinaryOp} {a b : Expr}

/-- Binds a node whose parts are bound. -/
def bindNode : Expr → Expansion Expr
  | .member target name => bindMember target name
  | e => return e

theorem bind_eq (e : Expr) : bind e = e.mapChildren bind >>= bindNode := by
  rw [bind, rewrite_eq]
  congr 1

theorem bind_rowRef (r : RowRef) : bind (.rowRef r) = pure (.rowRef r) := rfl

theorem bind_member (t : Expr) (name : String) :
    bind (.member t name) = bind t >>= fun t => bindMember t name := by
  rw [bind_eq, mapChildren, bind_assoc]
  rfl

/-- A member of the expression can lead somewhere. -/
def Expr.isTarget : Expr → Bool
  | .record _ | .rowRef _ => true
  | _ => false

theorem bindMember_of_not_target (he : e.isTarget = false) (name : String) :
    bindMember e name = return .member e name := by
  cases e <;> first | rfl | cases he

/-- The operator and the sides, if the node is an equality. -/
def Expr.sides? : Expr → Option (BinaryOp × Expr × Expr)
  | .binary op a b => if op.isEquality then some (op, a, b) else none
  | .function "Equals" [a, b] => some (.equal, a, b)
  | _ => none

/-- Rewrites a node whose parts are rewritten. -/
def compareNode (e : Expr) : Expansion Expr :=
  match e.sides? with
  | some (op, a, b) => compareSides op a b
  | none => return e

theorem Expr.sides?_binary :
    (Expr.binary op a b).sides? = if op.isEquality then some (op, a, b) else none := rfl

theorem Expr.sides?_eq_none (hbinary : ∀ op a b, e ≠ .binary op a b)
    (hequals : ∀ a b, e ≠ .function "Equals" [a, b]) : e.sides? = none := by
  unfold sides?
  split
  · exact absurd rfl (hbinary _ _ _)
  · exact absurd rfl (hequals _ _)
  · rfl

theorem compareByKeys_rewrite (e : Expr) : compareByKeys e = e.rewrite compareNode := by
  rw [compareByKeys]
  congr 1
  funext e
  unfold compareNode
  split
  · rw [sides?_binary]
    split <;> rfl
  · rfl
  · next hbinary hequals => rw [sides?_eq_none hbinary hequals]

theorem compareByKeys_eq (e : Expr) : compareByKeys e = e.mapChildren compareByKeys >>= compareNode := by
  have each : compareByKeys = Expr.rewrite compareNode := funext compareByKeys_rewrite
  rw [each, rewrite_eq]

theorem Expr.SameHead.sides? {R : Expr → Expr → Prop} (h : SameHead R e d) :
    e.sides? = none ∧ d.sides? = none ∨ ∃ op a b a' b', e.sides? = some (op, a, b) ∧
      d.sides? = some (op, a', b') ∧ R a a' ∧ R b b' := by
  cases h with
  | @binary a a' b b' op ha hb =>
    simp only [sides?_binary]
    cases op.isEquality with
    | true => exact .inr ⟨op, a, b, a', b', rfl, rfl, ha, hb⟩
    | false => exact .inl ⟨rfl, rfl⟩
  | function name h =>
    by_cases hname : name = "Equals"
    · subst hname
      cases h with
      | nil => exact .inl ⟨rfl, rfl⟩
      | cons ha h =>
        cases h with
        | nil => exact .inl ⟨rfl, rfl⟩
        | cons hb h =>
          cases h with
          | nil => exact .inr ⟨_, _, _, _, _, rfl, rfl, ha, hb⟩
          | cons _ _ => exact .inl ⟨rfl, rfl⟩
    · have other (l : List Expr) : (Expr.function name l).sides? = none :=
        sides?_eq_none (fun _ _ _ heq => by cases heq) fun _ _ heq => by
          cases heq
          exact hname rfl
      exact .inl ⟨other _, other _⟩
  | _ => exact .inl ⟨rfl, rfl⟩

section Equalities

variable {M : Model} {p p' : Progress} {f : Forest}

/-- An equality of anything but rows, guarded if need be. -/
def plainEquality (s : Settings) (f : Forest) (op : BinaryOp) (a b : Expr) : Expr :=
  if op = .equal && s.nullSafeEquality then guardedEquality f a b else .binary op a b

/-- An equality is guarded only by rows that its sides read. -/
theorem plainEquality_cases (s : Settings) (f : Forest) (op : BinaryOp) (a b : Expr) :
    plainEquality s f op a b = .binary op a b ∨
      ∃ guards : List RowRef, plainEquality s f op a b = .nullSafeEqual (guards.map .rowRef) a b ∧
        ∀ r ∈ guards, r ∈ optionalReads f a ∨ r ∈ optionalReads f b := by
  unfold plainEquality
  split
  · next hsafe =>
    obtain rfl : op = .equal := by simpa using (Bool.and_eq_true_iff.1 hsafe).1
    unfold guardedEquality
    split
    · exact .inl rfl
    · exact .inr ⟨_, rfl, fun r hr => List.mem_append.1 (mem_of_distinctNodes hr)⟩
  · exact .inl rfl

theorem Runs.equality_iff : Runs (equality op a b) M p e p' ↔
    e = plainEquality M.settings p.forest op a b ∧ p = p' := by
  simp only [equality, plainEquality, Runs.bind_iff, Runs.settings_iff]
  constructor
  · rintro ⟨_, _, ⟨rfl, rfl⟩, h⟩
    split at h
    · next hsafe =>
      simp only [Runs.bind_iff, Runs.forest_iff, Runs.pure_iff] at h
      obtain ⟨_, _, ⟨rfl, rfl⟩, rfl, rfl⟩ := h
      exact ⟨(if_pos hsafe).symm, rfl⟩
    · next hsafe =>
      obtain ⟨rfl, rfl⟩ := Runs.pure_iff.1 h
      exact ⟨(if_neg hsafe).symm, rfl⟩
  · rintro ⟨rfl, rfl⟩
    refine ⟨_, _, ⟨rfl, rfl⟩, ?_⟩
    split
    · simp only [Runs.bind_iff, Runs.forest_iff, Runs.pure_iff]
      exact ⟨_, _, ⟨rfl, rfl⟩, rfl, rfl⟩
    · exact Runs.pure_iff.2 ⟨rfl, rfl⟩

/-- The operand is neither a row nor a collection. -/
def Operand.isPlain : Operand → Bool
  | .null | .other => true
  | _ => false

def Operand.isCollection : Operand → Bool
  | .collection _ => true
  | _ => false

/-- Where a side is neither a row nor null, or neither side is a row, the sides are compared as they
are. -/
theorem Runs.compareSides_iff
    (h : (Operand.of p.forest a).isPlain = true ∧ (Operand.of p.forest b).isPlain = true ∨
      Operand.of p.forest a = .other ∧ (Operand.of p.forest b).isCollection = false ∨
      (Operand.of p.forest a).isCollection = false ∧ Operand.of p.forest b = .other) :
    Runs (compareSides op a b) M p e p' ↔ e = plainEquality M.settings p.forest op a b ∧ p = p' := by
  have step : Runs (compareSides op a b) M p e p' ↔ Runs (equality op a b) M p e p' := by
    simp only [compareSides, Runs.bind_iff, Runs.forest_iff]
    constructor
    · rintro ⟨_, _, ⟨rfl, rfl⟩, hrun⟩
      cases ha : Operand.of p.forest a <;> cases hb : Operand.of p.forest b <;> rw [ha, hb] at hrun h <;>
        first | exact hrun | simp [Operand.isPlain, Operand.isCollection] at h
    · intro hrun
      refine ⟨_, _, ⟨rfl, rfl⟩, ?_⟩
      cases ha : Operand.of p.forest a <;> cases hb : Operand.of p.forest b <;> rw [ha, hb] at h <;>
        first | exact hrun | simp [Operand.isPlain, Operand.isCollection] at h
  exact step.trans Runs.equality_iff

theorem Expr.isRef_iff : e.isRef = true ↔ ∃ r, e = .rowRef r := by
  cases e <;> simp [isRef]

theorem Expr.SameHead.isRef {R : Expr → Expr → Prop} (h : SameHead R e d) : d.isRef = e.isRef := by
  cases h <;> rfl

theorem Operand.of_not_ref (h : e.isRef = false) : Operand.of f e = if e.isNull then .null else .other := by
  cases e <;> first | rfl | cases h

theorem Operand.isPlain_of_not_ref (h : e.isRef = false) : (Operand.of f e).isPlain = true := by
  rw [of_not_ref h]
  split <;> rfl

/-- Its sides are all that an equality is made of. -/
theorem Expr.children_of_sides? (h : e.sides? = some (op, a, b)) : e.children = [a, b] := by
  unfold sides? at h
  split at h
  · split at h <;> cases h
    rfl
  · cases h
    rfl
  · cases h

end Equalities

end EntityQuery
