import Mathlib
import EntityQuery.Proofs.GuardSets
import EntityQuery.Proofs.Prebinding
import EntityQuery.Proofs.Roots

/-!
# Optimizing in stages

The body of a nested lambda is bound and compared by keys as a part of the body around it, where its
parameter stands for no row yet, and again when its own operator is expanded, with the row put for the
parameter. An equality that a row guards in the first stage is left alone in the second. So both stages
together make what one does that puts the row first, as long as every equality is complete in one of them
(`Expr.Separable`, `optimize_staged`): one that mentions the parameter reads and compares no row of the first
stage that can be missing, and any other one becomes something that stays as it is. Then every equality ends
up with all guards that it needs (`Expr.FullyGuarded`).
-/

namespace EntityQuery

open EntityQuery.Expr EntityQuery.Forest

variable {M : Model} {p p' q q' : Progress} {e e' d a b : Expr} {x : String} {f g : Forest} {c : Catalog}
  {op : BinaryOp}

section Progressing

theorem mapChildren_function_two (f : Expr → Expansion Expr) (name : String) (a b : Expr) :
    (Expr.function name [a, b]).mapChildren f = f a >>= fun a' => f b >>= fun b' =>
      return .function name [a', b'] := by
  simp [mapChildren, mapItems]

theorem mapChildren_binary (f : Expr → Expansion Expr) (op : BinaryOp) (a b : Expr) :
    (Expr.binary op a b).mapChildren f = f a >>= fun a' => f b >>= fun b' =>
      return .binary op a' b' := rfl

/-- From some point on, comparing takes either expression to the second one, and binding leaves both as
they are. Neither names the parameter. -/
structure Settles (M : Model) (p : Progress) (x : String) (e d : Expr) : Prop where
  names : x ∉ e.names ∧ x ∉ d.names
  binds : ∀ {q}, p.forest.Steady M.catalog q.forest → Runs (bind e) M q e q ∧ Runs (bind d) M q d q
  compares : ∀ {q}, p.forest.Steady M.catalog q.forest →
    Runs (compareByKeys e) M q d q ∧ Runs (compareByKeys d) M q d q

/-- The second expression is the first one, with some of its equalities compared already. -/
inductive Ahead (M : Model) (p : Progress) (x : String) : Expr → Expr → Prop where
  | settled {e d : Expr} (h : Settles M p x e d) (he : e.isTarget = false) (hd : d.isTarget = false) :
    Ahead M p x e d
  | equals {a b a' b' : Expr} (ha : Ahead M p x a a') (hb : Ahead M p x b b') :
    Ahead M p x (.function "Equals" [a, b]) (.binary .equal a' b')
  | head {e d : Expr} (h : SameHead (fun _ _ => True) e d)
    (parts : ∀ c ∈ e.children.zip d.children, Ahead M p x c.1 c.2) : Ahead M p x e d

namespace Ahead

variable {R : Expr → Expr → Prop}

theorem of_head (h : SameHead (Ahead M p x) e d) : Ahead M p x e d :=
  .head (h.mono fun _ _ _ => trivial) fun _ hc => List.forall₂_zip h.parts hc

theorem refl (M : Model) (p : Progress) (x : String) (e : Expr) : Ahead M p x e e := by
  induction e using children_induction with
  | step e ih => exact of_head (SameHead.refl_of e ih)

/-- What is ahead stays so when a row is put for the parameter. -/
theorem substitute (h : Ahead M p x e d) (r : RowRef) :
    Ahead M p x (e.substitute x (.rowRef r)) (d.substitute x (.rowRef r)) := by
  induction h with
  | settled h he hd =>
    rw [substitute_of_not_mem (mt mem_names_of_mem_freeParams h.names.1),
      substitute_of_not_mem (mt mem_names_of_mem_freeParams h.names.2)]
    exact .settled h he hd
  | equals _ _ iha ihb =>
    rw [substitute_of_none rfl, substitute_of_none rfl]
    exact .equals iha ihb
  | head h parts ih =>
    have head : SameHead (fun c c' => Ahead M p x c c' ∧
        Ahead M p x (c.substitute x (.rowRef r)) (c'.substitute x (.rowRef r))) _ _ :=
      h.of_zip fun c hc => ⟨parts c hc, ih c hc⟩
    have rebuilt := SameHead.map (fun c => c.substitute x (.rowRef r)) head fun _ _ h => h.2
    cases head with
    | entitySet _ | const _ | param _ | rowRef _ => exact refl M p x _
    | lambda params hbody =>
      rw [substitute_lambda, substitute_lambda]
      split
      · exact of_head (.lambda params hbody.1)
      · exact of_head (.lambda params hbody.2)
    | _ =>
      rw [substitute_of_none rfl, substitute_of_none rfl]
      exact of_head rebuilt

/-- What leads somewhere is as it was, up to what is in the fields of a record. -/
theorem target (h : Ahead M p x e d) : e.isTarget = false ∧ d.isTarget = false ∨
    (∃ r, e = .rowRef r ∧ d = .rowRef r) ∨ ∃ fields fields', e = .record fields ∧ d = .record fields' ∧
      List.Forall₂ (fun y z => y.1 = z.1 ∧ Ahead M p x y.2 z.2) fields fields' := by
  cases h with
  | settled _ he hd => exact .inl ⟨he, hd⟩
  | equals _ _ => exact .inl ⟨rfl, rfl⟩
  | head h parts =>
    cases h.of_zip parts with
    | rowRef r => exact .inr (.inl ⟨r, rfl, rfl⟩)
    | record hfields => exact .inr (.inr ⟨_, _, rfl, rfl, hfields⟩)
    | _ => exact .inl ⟨rfl, rfl⟩

theorem row (h : Ahead M p x e d) (r : RowRef) : d = .rowRef r ↔ e = .rowRef r := by
  rcases h.target with ⟨he, hd⟩ | ⟨r', rfl, rfl⟩ | ⟨_, _, rfl, rfl, -⟩
  · exact ⟨fun heq => by simp [heq, isTarget] at hd, fun heq => by simp [heq, isTarget] at he⟩
  · rfl
  · exact ⟨nofun, nofun⟩

/-- A member of what is ahead leads where the member itself leads. -/
theorem bindMember_lockstep (h : Ahead M p x e d) (name : String) :
    Lockstep M q (Ahead M p x) (bindMember e name) (bindMember d name) := by
  have member : Ahead M p x (.member e name) (.member d name) := of_head (.member name h)
  rcases h.target with ⟨he, hd⟩ | ⟨r, rfl, rfl⟩ | ⟨fields, fields', rfl, rfl, hfields⟩
  · rw [bindMember_of_not_target he, bindMember_of_not_target hd]
    exact .pure member
  · exact .refl (refl M p x) _
  · refine .pure ?_
    rcases lookup_of_fields hfields name with ⟨hv, hv'⟩ | ⟨v, v', hv, hv', hahead⟩ <;> rw [hv, hv']
    · exact member
    · exact hahead

/-- A member that stays a member does so when the expression is ahead. -/
theorem bindMember_stays (h : Ahead M p x e d) {name : String}
    (stays : Runs (bindMember e name) M q (.member e name) q) :
    Runs (bindMember d name) M q (.member d name) q := by
  rcases h.target with ⟨-, hd⟩ | ⟨r, rfl, rfl⟩ | ⟨fields, fields', rfl, rfl, hfields⟩
  · rw [bindMember_of_not_target hd]
    exact Runs.pure_iff.2 ⟨rfl, rfl⟩
  · exact stays
  · refine Runs.pure_iff.2 ⟨?_, rfl⟩
    have stays := (Runs.pure_iff.1 stays).1
    rcases lookup_of_fields hfields name with ⟨-, hv'⟩ | ⟨v, v', hv, -, -⟩
    · rw [hv']
      rfl
    · -- No field of a record is a member of the record.
      obtain ⟨before, after, rfl, -⟩ := List.lookup_eq_some_iff.1 hv
      have smaller : v.size < (Expr.record (before ++ (name, v) :: after)).size :=
        size_lt_of_mem_children (by simp [children])
      rw [hv] at stays
      have larger := congrArg Expr.size stays
      simp only [Option.getD_some, Expr.size] at larger smaller
      omega

theorem bindNode_lockstep (h : SameHead (Ahead M p x) e d) :
    Lockstep M q (Ahead M p x) (bindNode e) (bindNode d) := by
  have rebuilt := of_head h
  cases h with
  | member name ht => exact bindMember_lockstep ht name
  | _ => exact .pure rebuilt

/-- Binding leaves ahead what is ahead. -/
theorem bind_lockstep (h : Ahead M p x e d) (hq : p.forest.Steady M.catalog q.forest) :
    Lockstep M q (Ahead M p x) (bind e) (bind d) := by
  have keeps {c q c' q'} (hq : p.forest.Steady M.catalog q.forest) (h : Runs (bind c) M q c' q') :
      p.forest.Steady M.catalog q'.forest := hq.trans (bind_steady h hq.linked)
  induction h generalizing q with
  | settled h he hd => exact .of_runs (h.binds hq).1 (h.binds hq).2 (.settled h he hd)
  | equals _ _ iha ihb =>
    rw [bind_eq, bind_eq, mapChildren_function_two, mapChildren_binary]
    simp only [bind_assoc, pure_bind]
    exact (iha hq).bind fun hrun ha => (ihb (keeps hq hrun)).bind fun _ hb => .pure (.equals ha hb)
  | head h parts ih =>
    have head : SameHead (fun c d => ∀ {q}, p.forest.Steady M.catalog q.forest →
      Lockstep M q (Ahead M p x) (bind c) (bind d)) _ _ := h.of_zip ih
    rw [bind_eq, bind_eq]
    exact (Lockstep.mapChildren keeps (fun h hq => h hq) head hq).bind fun _ head =>
      bindNode_lockstep head

/-- Comparing takes what is ahead and what is behind to the same expression. -/
theorem compareByKeys_lockstep (h : Ahead M p x e d) (hq : p.forest.Steady M.catalog q.forest) :
    Lockstep M q Eq (compareByKeys e) (compareByKeys d) := by
  have keeps {c q c' q'} (hq : p.forest.Steady M.catalog q.forest)
      (h : Runs (compareByKeys c) M q c' q') : p.forest.Steady M.catalog q'.forest :=
    hq.trans (compareByKeys_steady h hq.linked)
  induction h generalizing q with
  | settled h _ _ => exact .of_runs (h.compares hq).1 (h.compares hq).2 rfl
  | equals _ _ iha ihb =>
    rw [compareByKeys_eq, compareByKeys_eq, mapChildren_function_two, mapChildren_binary]
    simp only [bind_assoc, pure_bind]
    refine (iha hq).bind fun hrun ha => (ihb (keeps hq hrun)).bind fun _ hb => ?_
    subst ha hb
    exact .refl (fun _ => rfl) _
  | head h parts ih =>
    have head : SameHead (fun c d => ∀ {q}, p.forest.Steady M.catalog q.forest →
      Lockstep M q Eq (compareByKeys c) (compareByKeys d)) _ _ := h.of_zip ih
    rw [compareByKeys_eq, compareByKeys_eq]
    refine (Lockstep.mapChildren (S := Eq) keeps (fun h hq => h hq) head hq).bind fun _ head => ?_
    obtain rfl := head.eq
    exact .refl (fun _ => rfl) _

end Ahead

end Progressing

section Staging

theorem mem_names_of_sides? (h : e.sides? = some (op, a, b)) {y : String} :
    y ∈ e.names ↔ y ∈ a.names ∨ y ∈ b.names := by
  have own : e.ownNames = [] := by cases e <;> first | rfl | cases h
  rw [mem_names_iff, own, children_of_sides? h]
  simp

theorem isTarget_of_sides? (h : e.sides? = some (op, a, b)) : e.isTarget = false := by
  cases e <;> first | rfl | cases h

theorem isNull_of_sides? (h : e.sides? = some (op, a, b)) : e.isNull = false := by
  cases e <;> first | rfl | cases h

theorem isTarget_plainEquality {s : Settings} : (plainEquality s f op a b).isTarget = false := by
  rcases plainEquality_cases s f op a b with heq | ⟨guards, heq, -⟩ <;> rw [heq] <;> rfl

theorem isNull_plainEquality {s : Settings} : (plainEquality s f op a b).isNull = false := by
  rcases plainEquality_cases s f op a b with heq | ⟨guards, heq, -⟩ <;> rw [heq] <;> rfl

theorem names_plainEquality {s : Settings} {y : String} (hy : y ∈ (plainEquality s f op a b).names) :
    y ∈ a.names ∨ y ∈ b.names := by
  have sides {c : Expr} (hc : c ∈ [a, b]) (part : y ∈ c.names) : y ∈ a.names ∨ y ∈ b.names := by
    rcases List.mem_pair.1 hc with rfl | rfl
    · exact .inl part
    · exact .inr part
  rcases plainEquality_cases s f op a b with heq | ⟨guards, heq, -⟩ <;> rw [heq] at hy <;>
    rcases mem_names_iff.1 hy with own | ⟨c, hc, part⟩
  · cases own
  · exact sides hc part
  · cases own
  · rcases List.mem_append.1 hc with hc | hc
    · obtain ⟨r, -, rfl⟩ := List.mem_map.1 hc
      simp [Expr.names, Expr.nodes, ownNames] at part
    · exact sides hc part

theorem isNull_of_mem_names (hx : x ∈ e.names) : e.isNull = false := by
  induction e using children_induction with
  | step e ih =>
    cases e with
    | const _ => simp [Expr.names, Expr.nodes, ownNames] at hx
    | convert operand _ _ =>
      rcases mem_names_iff.1 hx with hx | ⟨c, hc, hx⟩
      · cases hx
      · have hnull := ih c hc hx
        rwa [List.mem_singleton.1 hc] at hnull
    | _ => rfl

theorem Operand.of_mem_names (hx : x ∈ e.names) : Operand.of f e = .other := by
  have href : e.isRef = false := by
    cases e <;> first | rfl | cases hx
  rw [Operand.of_not_ref href, isNull_of_mem_names hx]
  rfl

variable {op : BinaryOp} {a b a' b' : Expr}

/-- The expression reads no row that can be missing, and compares none. -/
def Expr.ReadsPresent (f : Forest) (e : Expr) : Prop :=
  optionalReads f e = [] ∧ ∀ d ∈ e.nodes, ∀ sides ∈ d.sides?,
    Operand.arePresent f (.of f sides.2.1) (.of f sides.2.2) = true

instance (f : Forest) (e : Expr) : Decidable (e.ReadsPresent f) := inferInstanceAs (Decidable (_ ∧ _))

/-- The equality is complete in one of the stages: what the first one compares it compares for good, and what it
leaves to the second one it does not guard. -/
structure Expr.Complete (M : Model) (f : Forest) (x : String) (op : BinaryOp) (a b : Expr) : Prop where
  first : x ∉ a.names → x ∉ b.names → Operand.areFinal M f op (.of f a) (.of f b) = true
  second : x ∈ a.names ∨ x ∈ b.names →
    (op = .equal → M.settings.nullSafeEquality = true → a.ReadsPresent f ∧ b.ReadsPresent f) ∧
      (Operand.of f a).isCollection = false ∧ (Operand.of f b).isCollection = false

instance (M : Model) (f : Forest) (x : String) (op : BinaryOp) (a b : Expr) :
    Decidable (Complete M f x op a b) :=
  decidable_of_iff (_ ∧ _) ⟨fun h => ⟨h.1, h.2⟩, fun h => ⟨h.first, h.second⟩⟩

/-- Every equality of the expression is complete in one of the stages. -/
def Expr.Separable (M : Model) (f : Forest) (x : String) (e : Expr) : Prop :=
  ∀ d ∈ e.nodes, ∀ sides ∈ d.sides?, Complete M f x sides.1 sides.2.1 sides.2.2

instance (M : Model) (f : Forest) (x : String) (e : Expr) : Decidable (e.Separable M f x) :=
  inferInstanceAs (Decidable (∀ d ∈ e.nodes, ∀ sides ∈ d.sides?, _))

theorem Expr.Separable.child (h : e.Separable M f x) (hd : d ∈ e.children) : d.Separable M f x :=
  fun b hb => h b (mem_nodes_of_child hd hb)

/-- What the first stage makes of an expression that is bound. -/
structure Staged (M : Model) (p : Progress) (x : String) (e d : Expr) : Prop where
  ahead : Ahead M p x e d
  isNull : d.isNull = e.isNull
  reads : e.ReadsPresent p.forest → optionalReads p.forest d = []
  names : ∀ y ∈ d.names, y ∈ e.names
  bound : d.Bound M p.forest
  compares : x ∉ e.names → ∀ {q : Progress}, p.forest.Steady M.catalog q.forest →
    Runs (compareByKeys e) M q d q ∧ Runs (compareByKeys d) M q d q

namespace Staged

/-- An expression whose parts are staged is, too, if it is no equality. -/
theorem of_head (he : e.Bound M p.forest) (hs : d.sides? = none)
    (head : SameHead (fun c c' => c ∈ e.children ∧ Staged M p x c c') e d) : Staged M p x e d where
  ahead := Ahead.of_head (head.mono fun _ _ h => h.2.ahead)
  isNull := by
    cases head with
    | convert _ _ h => exact h.2.isNull
    | _ => rfl
  reads present := by
    refine optionalReads_eq_nil (head.mono fun c c' h => ⟨fun none => h.2.reads ⟨none, ?_⟩, h.2.ahead.row⟩) present.1
    exact fun b hb => present.2 b (mem_nodes_of_child h.1 hb)
  names y hy := by
    rcases mem_names_iff.1 hy with hy | ⟨c', hc', hy⟩
    · exact mem_names_iff.2 (.inl (ownNames_of_sameHead head ▸ hy))
    · obtain ⟨c, -, hc, h⟩ := head.of_mem_children hc'
      exact mem_names_of_child hc (h.names y hy)
  bound := by
    refine .of_children (fun c' hc' => ?_) (fun r heq => ?_) fun t name heq => ?_
    · obtain ⟨c, -, -, h⟩ := head.of_mem_children hc'
      exact h.bound
    · subst heq
      cases head
      exact he.range r (mem_rowRefs.2 (self_mem_nodes _))
    · subst heq
      cases head with
      | member _ h => exact fun hq => h.2.ahead.bindMember_stays (he.members (self_mem_nodes _) hq)
  compares hx q hq := by
    have part {c c'} (h : c ∈ e.children ∧ Staged M p x c c') :=
      h.2.compares (fun hy => hx (mem_names_of_child h.1 hy)) hq
    rw [compareByKeys_eq, compareByKeys_eq, Runs.bind_iff, Runs.bind_iff]
    have done : Runs (compareNode d) M q d q := by
      rw [compareNode, hs]
      exact Runs.pure_iff.2 ⟨rfl, rfl⟩
    refine ⟨⟨d, q, Runs.mapChildren_fixed (head.mono fun _ _ h => (part h).1), done⟩, d, q, ?_, done⟩
    refine Runs.mapChildren_fixed (SameHead.refl_of d fun c' hc' => ?_)
    obtain ⟨c, -, h⟩ := head.of_mem_children hc'
    exact (part h).2

/-- A side of an equality stays a row, a null or neither. -/
theorem operand (h : Staged M p x e d) : Operand.of f d = Operand.of f e := by
  rcases h.ahead.target with ⟨he, hd⟩ | ⟨r, rfl, rfl⟩ | ⟨_, _, rfl, rfl, -⟩
  · have other {e : Expr} (he : e.isTarget = false) : e.isRef = false := by
      cases e <;> first | rfl | cases he
    rw [Operand.of_not_ref (other he), Operand.of_not_ref (other hd), h.isNull]
  · rfl
  · rfl

theorem fixed (h : Staged M p x e d) (hx : x ∉ e.names) : d.Fixed M p.forest :=
  ⟨h.bound, fun hq => (h.compares hx hq).2⟩

/-- If an equality reads no row that can be missing, neither do its sides once they are staged. -/
theorem reads_sides (hs : e.sides? = some (op, a, b)) (ha : Staged M p x a a') (hb : Staged M p x b b')
    (present : e.ReadsPresent p.forest) : optionalReads p.forest a' = [] ∧ optionalReads p.forest b' = [] := by
  have part {c c' : Expr} (hc : c ∈ [a, b]) (h : Staged M p x c c') (none : optionalReads p.forest c = []) :
      optionalReads p.forest c' = [] :=
    h.reads ⟨none, fun d hd => present.2 d (mem_nodes_of_child (children_of_sides? hs ▸ hc) hd)⟩
  obtain ⟨na, nb⟩ := List.append_eq_nil_iff.1 (optionalReads_of_sides hs ▸ present.1)
  exact ⟨part (.head _) ha na, part (.tail _ (.head _)) hb nb⟩

/-- An equality that does not mention the parameter, once it is compared. -/
theorem settled (hp : p.forest.Linked M.catalog) (he : e.Bound M p.forest) (hs : e.sides? = some (op, a, b))
    (ha : Staged M p x a a') (hb : Staged M p x b b') (hx : x ∉ e.names)
    (final : Operand.areFinal M p.forest op (.of p.forest a) (.of p.forest b) = true)
    (hd : comparedSides M p.forest op a' b' = some d) : Staged M p x e d := by
  obtain ⟨hxa, hxb⟩ := not_or.1 fun h => hx ((mem_names_of_sides? hs).2 h)
  rw [← ha.operand, ← hb.operand] at final
  have outcome := comparedSides_final hd (ha.fixed hxa) (hb.fixed hxb) final
  have fixed : d.Fixed M p.forest := by
    obtain rfl | ⟨_, _, rfl, as⟩ := outcome
    · exact .const _
    · exact as.fixed hp
  have isTarget : d.isTarget = false := by
    obtain rfl | ⟨_, _, rfl, -⟩ := outcome
    · rfl
    · exact isTarget_plainEquality
  have names : ∀ y ∈ d.names, y ∈ e.names := by
    obtain rfl | ⟨_, _, rfl, as⟩ := outcome
    · intro y hy
      simp [EntityQuery.settled, Expr.bool, Expr.names, Expr.nodes, ownNames] at hy
    · exact fun y hy => (mem_names_of_sides? hs).2
        ((as.names y (names_plainEquality hy)).imp (ha.names y) (hb.names y))
  have compares {q : Progress} (hq : p.forest.Steady M.catalog q.forest) :
      Runs (compareByKeys e) M q d q ∧ Runs (compareByKeys d) M q d q :=
    ⟨Runs.compareByKeys_sides hs (ha.compares hxa hq).1 (hb.compares hxb hq).1
      (Runs.compareSides_steady hd hp ha.bound hb.bound final hq), fixed.compares hq⟩
  exact
    { ahead := .settled ⟨⟨hx, fun h => hx (names x h)⟩, fun hq => ⟨he.again hq, fixed.bound.again hq⟩, compares⟩
        (isTarget_of_sides? hs) isTarget
      isNull := by
        rw [isNull_of_sides? hs]
        obtain rfl | ⟨_, _, rfl, -⟩ := outcome
        · rfl
        · exact isNull_plainEquality
      reads := fun present => by
        obtain rfl | ⟨_, _, rfl, as⟩ := outcome
        · rfl
        · obtain ⟨na, nb⟩ := reads_sides hs ha hb present
          obtain ⟨ra, rb⟩ := as.reads (ha.operand ▸ hb.operand ▸ present.2 e (self_mem_nodes e) _ hs) na nb
          rw [optionalReads_plainEquality, ra, rb]
          rfl
      names
      bound := fixed.bound
      compares := fun _ => compares }

/-- An equality with staged sides, one of which mentions the parameter. -/
theorem left_open (hs : e.sides? = some (op, a, b)) (ha : Staged M p x a a')
    (hb : Staged M p x b b') (hx : x ∈ e.names)
    (plain : plainEquality M.settings p.forest op a' b' = .binary op a' b') :
    Staged M p x e (.binary op a' b') where
  ahead := by
    unfold sides? at hs
    split at hs
    · split at hs
      · cases hs
        exact .of_head (.binary _ ha.ahead hb.ahead)
      · cases hs
    · cases hs
      exact .equals ha.ahead hb.ahead
    · cases hs
  isNull := (isNull_of_sides? hs).symm
  reads present := by
    obtain ⟨ra, rb⟩ := reads_sides hs ha hb present
    rw [← plain, optionalReads_plainEquality, ra, rb]
    rfl
  names y hy := (mem_names_of_sides? hs).2 <|
    (names_plainEquality (plain.symm ▸ hy)).imp (ha.names y) (hb.names y)
  bound := plain ▸ ha.bound.plainEquality hb.bound M.settings op
  compares hxe := absurd hx hxe

/-- Comparing what is bound by keys, where each equality is complete in one of the stages. -/
theorem of_compareByKeys (h : Runs (compareByKeys e) M p d p') (hp : p.forest.Linked M.catalog)
    (he : e.Bound M p.forest) (hs : e.Separable M p.forest x) : p' = p ∧ Staged M p x e d := by
  induction e using children_induction generalizing d p' with
  | step e ih =>
    rw [compareByKeys_eq, Runs.bind_iff] at h
    obtain ⟨e₁, q, hparts, h⟩ := h
    obtain ⟨rfl, head⟩ := Runs.mapChildren_within (fun p q => q = p) (fun _ => rfl)
      (fun h k => k.trans h) (fun c hc q c' q' hq hrun => by
        subst hq
        exact (ih c hc hrun (he.child hc) (hs.child hc)).1) hparts
    have head : SameHead (fun c c' => c ∈ e.children ∧ Staged M q x c c') e e₁ :=
      head.mono fun c c' ran => by
        obtain ⟨hc, r, r', rfl, -, hrun⟩ := ran
        exact ⟨hc, (ih c hc hrun (he.child hc) (hs.child hc)).2⟩
    rw [compareNode] at h
    rcases head.sides? with ⟨hnone, hnone'⟩ | ⟨op, a, b, a', b', hsides, hsides', ⟨-, ha⟩, -, hb⟩
    · rw [hnone'] at h
      obtain ⟨rfl, rfl⟩ := Runs.pure_iff.1 h
      exact ⟨rfl, of_head he hnone' head⟩
    rw [hsides'] at h
    have complete : Complete M q.forest x op a b := hs e (self_mem_nodes e) _ hsides
    by_cases hx : x ∈ a.names ∨ x ∈ b.names
    · obtain ⟨present, left, right⟩ := complete.second hx
      have plain := plainEquality_of_no_reads (a := a') (b := b') fun hop hsafe =>
        ⟨ha.reads (present hop hsafe).1, hb.reads (present hop hsafe).2⟩
      rw [← ha.operand] at left
      rw [← hb.operand] at right
      obtain ⟨rfl, rfl⟩ := (Runs.compareSides_iff (hx.elim
        (fun hx => .inr (.inl ⟨ha.operand.trans (Operand.of_mem_names hx), right⟩))
        fun hx => .inr (.inr ⟨left, hb.operand.trans (Operand.of_mem_names hx)⟩))).1 h
      exact ⟨rfl, plain ▸ left_open hsides ha hb ((mem_names_of_sides? hsides).2 hx) plain⟩
    · obtain ⟨hxa, hxb⟩ := not_or.1 hx
      have final := complete.first hxa hxb
      obtain ⟨single, single'⟩ := Operand.single_of_areFinal final
      obtain ⟨hd, rfl⟩ := Runs.comparedSides_iff.1 h
      rw [Progress.compared_single (ha.operand ▸ single) (hb.operand ▸ single')]
      exact ⟨rfl, settled hp he hsides ha hb (fun hxe => hx ((mem_names_of_sides? hsides).1 hxe)) final hd⟩

end Staged

/-- Binding and comparing a body. -/
def optimize (e : Expr) : Expansion Expr := do compareByKeys (← bind e)

/-- What a run of the first body makes, a run of the second one makes, too, but for the numbers of the nodes that
are added. -/
def OptimizesAlike (M : Model) (q : Progress) (e d : Expr) : Prop :=
  ∀ e' q₁, Runs (optimize e) M q e' q₁ → ∃ d' q₂ R, Runs (optimize d) M q d' q₂ ∧ Twins q₁.forest q₂.forest R ∧
    (∀ n, n.index < q.forest.size → R n n) ∧ e'.Renumbered (SameRows R) d'

variable {e₁ : Expr} {p₁ : Progress} {r : RowRef}

/-- A body that has been bound before the row is put for the parameter is optimized like one that has not. -/
theorem optimize_substituted (hp : p.forest.Linked M.catalog) (range : ∀ r ∈ e.rowRefs, r.node.index < p.forest.size)
    (h : Runs (bind e) M p e₁ p₁) (hq : p₁.forest.Retains M.catalog q.forest) (hr : r.node.index < q.forest.size) :
    OptimizesAlike M q (e.substitute x (.rowRef r)) (e₁.substitute x (.rowRef r)) := by
  intro e' q₁ hrun
  obtain ⟨u, q₀, hbind, hcompare⟩ := Runs.bind_iff.1 hrun
  obtain ⟨v, q₀', hbind', here, -, -, same⟩ :=
    (bind_substituted hq.linked ⟨.refl hq.linked, .refl hq.linked⟩ hr h hp range hq).run hbind
  have twins := SamePlace.twins hq.linked here.1 here.2
  obtain ⟨d', q₂, hcompare', ⟨steady, steady'⟩, -, -, made⟩ :=
    (compareByKeys_renumbered twins ⟨.refl here.1.linked, .refl here.2.linked⟩ same).run hcompare
  exact ⟨d', q₂, _, Runs.bind_iff.2 ⟨v, q₀', hbind', hcompare'⟩, twins.steady steady steady', fun _ => .known, made⟩

/-- A body in which every equality is complete in one of the stages can be optimized before the row is put for the
parameter, too: optimizing it once more makes the same then, but for the numbers, as optimizing it once. And every
equality is guarded by all rows that it reads and that can be missing, apart from those of keys with nulls. -/
theorem optimize_staged (hp : p.forest.Linked M.catalog) (range : ∀ r ∈ e.rowRefs, r.node.index < p.forest.size)
    (hbind : Runs (bind e) M p e₁ p₁) (hs : e₁.Separable M p₁.forest x) (hcompare : Runs (compareByKeys e₁) M p₁ d p') :
    p' = p₁ ∧ ∀ q, p₁.forest.Retains M.catalog q.forest → ∀ r,
      (∀ d' q', Runs (optimize (d.substitute x (.rowRef r))) M q d' q' ↔
        Runs (optimize (e₁.substitute x (.rowRef r))) M q d' q') ∧
      (r.node.index < q.forest.size →
        OptimizesAlike M q (e.substitute x (.rowRef r)) (d.substitute x (.rowRef r)) ∧
        (e.Unguarded → ∀ d' q', Runs (optimize (d.substitute x (.rowRef r))) M q d' q' →
          d'.FullyGuarded M.settings q'.forest)) := by
  have linked := (bind_onward e hbind hp).1
  have bound := bind_bound hbind hp range
  obtain ⟨rfl, staged⟩ := Staged.of_compareByKeys hcompare linked bound hs
  refine ⟨rfl, fun q hq r => ?_⟩
  have same : ∀ d' q', Runs (optimize (d.substitute x (.rowRef r))) M q d' q' ↔
      Runs (optimize (e₁.substitute x (.rowRef r))) M q d' q' := by
    intro d' q'
    have ahead := staged.ahead.substitute r
    refine (Lockstep.runs_iff ((ahead.bind_lockstep hq.toSteady).bind fun hrun hahead => ?_)).symm
    exact hahead.compareByKeys_lockstep (hq.toSteady.trans (bind_steady hrun hq.linked))
  refine ⟨same, fun hr => ⟨fun e' q₁ hrun => ?_, fun unguarded d' q' hrun => ?_⟩⟩
  · obtain ⟨d', q₂, R, hrun', alike⟩ := optimize_substituted hp range hbind hq hr e' q₁ hrun
    exact ⟨d', q₂, R, (same d' q₂).2 hrun', alike⟩
  · obtain ⟨u, q₀, hbind', hcompare'⟩ := Runs.bind_iff.1 ((same d' q').1 hrun)
    have there : ∀ ref ∈ (e₁.substitute x (.rowRef r)).rowRefs, ref.node.index < q.forest.size :=
      forall_rowRefs_substitute hr fun ref href => Nat.lt_of_lt_of_le (bound.range ref href) hq.keeps.size
    exact (compareByKeys_fullyGuarded hcompare' (bind_steady hbind' hq.linked).linked
      (bind_bound hbind' hq.linked there).range (bind_unguarded hbind'
        (substitute_unguarded (bind_unguarded hbind unguarded) (unguarded_rowRef r)))).2

end Staging

/-- As the body of a lambda over orders `x`, within one over an order: whether both are of the same
customer, and Ann has referred that customer. -/
def Shop.sameBuyer (order : Expr) : Expr :=
  .binary .and
    (.eq (.member (.member (.member order "Buyer") "Referrer") "Name") (.string "Ann"))
    (.eq (.member (.param "x") "CustomerId") (.member order "CustomerId"))

/-- The first equality is guarded in the first stage, and the second one is left to the second stage, where the row
is that of another source. -/
theorem optimize_sameBuyer :
    let M : Model := ⟨Shop.catalog, {}⟩
    ∃ s p e p₁ d s' q r, Runs (rootStream "Order") M {} s p ∧ Runs (bind (Shop.sameBuyer s.selector)) M p e p₁ ∧
      Runs (compareByKeys e) M p₁ d p₁ ∧ Runs (rootStream "Order") M p₁ s' q ∧ s'.selector = .rowRef r ∧
      (∃ d' q', Runs (optimize ((Shop.sameBuyer s.selector).substitute "x" (.rowRef r))) M q d' q') ∧
      OptimizesAlike M q ((Shop.sameBuyer s.selector).substitute "x" (.rowRef r)) (d.substitute "x" (.rowRef r)) ∧
      ∀ d' q', Runs (optimize (d.substitute "x" (.rowRef r))) M q d' q' →
        d'.FullyGuarded M.settings q'.forest := by
  intro M
  have computed : (rootStream "Order" M {}).toOption.any (fun (s, p) =>
      decide ((∀ r ∈ (Shop.sameBuyer s.selector).rowRefs, r.node.index < p.forest.size) ∧
        (Shop.sameBuyer s.selector).Unguarded) &&
      (bind (Shop.sameBuyer s.selector) M p).toOption.any fun (e, p₁) =>
        (decide (e.Separable M p₁.forest "x") && (compareByKeys e M p₁).toOption.isSome) &&
        (rootStream "Order" M p₁).toOption.any fun (s', q) =>
          (s'.selector.isRef && decide (∀ r ∈ s'.selector.rowRefs, r.node.index < q.forest.size)) &&
            (optimize ((Shop.sameBuyer s.selector).substitute "x" s'.selector) M q).toOption.isSome) = true := by
    decide +kernel
  obtain ⟨⟨s, p⟩, hroot, computed⟩ := Except.exists_of_any computed
  obtain ⟨plain, computed⟩ := Bool.and_eq_true_iff.1 computed
  obtain ⟨range, unguarded⟩ := of_decide_eq_true plain
  obtain ⟨⟨e, p₁⟩, hbind, computed⟩ := Except.exists_of_any computed
  obtain ⟨first, computed⟩ := Bool.and_eq_true_iff.1 computed
  obtain ⟨separable, compared⟩ := Bool.and_eq_true_iff.1 first
  obtain ⟨⟨d, p'⟩, hcompare⟩ := Except.exists_of_isSome compared
  obtain ⟨⟨s', q⟩, hroot', computed⟩ := Except.exists_of_any computed
  obtain ⟨row, optimized⟩ := Bool.and_eq_true_iff.1 computed
  obtain ⟨isRef, there⟩ := Bool.and_eq_true_iff.1 row
  obtain ⟨r, selector⟩ := isRef_iff.1 isRef
  obtain ⟨⟨d₁, q₁⟩, optimized⟩ := Except.exists_of_isSome optimized
  have linked := (rootStream_onward "Order" hroot (empty_linked _)).1
  obtain ⟨rfl, staged⟩ := optimize_staged linked range hbind (of_decide_eq_true separable) hcompare
  have retains := rootStream_retains hroot' (bind_onward _ hbind linked).1
  rw [selector] at there optimized
  obtain ⟨alike, guarded⟩ := (staged q retains r).2 (of_decide_eq_true there r (List.mem_singleton_self r))
  exact ⟨s, p, e, p', d, s', q, r, hroot, hbind, hcompare, hroot', selector, ⟨d₁, q₁, optimized⟩, alike,
    guarded unguarded⟩

/-- As a body like `Shop.sameBuyer`: whether the customers of both orders have been referred by customers
of one name. -/
def Shop.sameReferrer (order : Expr) : Expr :=
  .eq (.member (.member (.member order "Buyer") "Referrer") "Name")
    (.member (.member (.member (.param "x") "Buyer") "Referrer") "Name")

/-- An equality that reads rows of both stages that can be missing is guarded by those of the first stage
only, unless there is one stage. -/
theorem optimize_sameReferrer :
    let M : Model := ⟨Shop.catalog, {}⟩
    let body : Expansion (Expr × Expr) := do
      let order ← rootStream "Order"
      let other ← rootStream "Order"
      return (← bind (Shop.sameReferrer order.selector), other.selector)
    ∃ e r p d p' d₁ q₁ d₂ q₂, Runs body M {} (e, r) p ∧ Runs (optimize e) M p d p' ∧
      Runs (optimize (d.substitute "x" r)) M p' d₁ q₁ ∧ Runs (optimize (e.substitute "x" r)) M p d₂ q₂ ∧
      d₁ ≠ d₂ := by
  intro M body
  have computed : (body M {}).toOption.any (fun ((e, r), p) => (optimize e M p).toOption.any fun (d, p') =>
      (optimize (d.substitute "x" r) M p').toOption.any fun (d₁, _) =>
        (optimize (e.substitute "x" r) M p).toOption.any fun (d₂, _) => d₁.render ≠ d₂.render) = true := by
    decide +kernel
  obtain ⟨⟨⟨e, r⟩, p⟩, hbody, computed⟩ := Except.exists_of_any computed
  obtain ⟨⟨d, p'⟩, hd, computed⟩ := Except.exists_of_any computed
  obtain ⟨⟨d₁, q₁⟩, hd₁, computed⟩ := Except.exists_of_any computed
  obtain ⟨⟨d₂, q₂⟩, hd₂, computed⟩ := Except.exists_of_any computed
  refine ⟨e, r, p, d, p', d₁, q₁, d₂, q₂, hbody, hd, hd₁, hd₂, ?_⟩
  rintro rfl
  exact absurd rfl (of_decide_eq_true computed)

namespace Shop

/-- A filter over what a projection makes of customers. -/
def filterProjected (f p : Expr) : Expr :=
  .call .filter [.call .select [.entitySet "Customer", .lambda ["c"] f] none, .lambda ["v"] p] none

/-- The same with the filter first. -/
def projectFiltered (f p : Expr) : Expr :=
  .call .select [.call .filter [.entitySet "Customer", .lambda ["c"] (p.substitute "v" f)] none,
    .lambda ["c"] f] none

def isUnreferred : Expr := .binary .equal (.member (.param "c") "Referrer") (.const .null)

end Shop

/-- With null-safe equality the projection is not transparent: when the filter is brought over it,
the comparison with null that it holds is prepared once more, and then fails for missing rows. -/
theorem evaluate_unreferred_differ : ∃ q q',
    expandQuery Shop.catalog {} (Shop.filterProjected Shop.isUnreferred (.param "v")) = .ok q ∧
    expandQuery Shop.catalog {} (Shop.projectFiltered Shop.isUnreferred (.param "v")) = .ok q' ∧
    q.query.evaluate Shop.tables = .ok (.list []) ∧
    q'.query.evaluate Shop.tables = .ok (.list [.bool true]) := by
  have filtered : ((expandQuery Shop.catalog {} (Shop.filterProjected Shop.isUnreferred
      (.param "v"))).toOption.map fun q => q.query.evaluate Shop.tables) =
      some (.ok (.list [])) := by cbv
  have projected : ((expandQuery Shop.catalog {} (Shop.projectFiltered Shop.isUnreferred
      (.param "v"))).toOption.map fun q => q.query.evaluate Shop.tables) =
      some (.ok (.list [.bool true])) := by cbv
  obtain ⟨q, h, heval⟩ := exists_evaluation filtered
  obtain ⟨q', h', heval'⟩ := exists_evaluation projected
  exact ⟨q, q', h, h', heval, heval'⟩

end EntityQuery
