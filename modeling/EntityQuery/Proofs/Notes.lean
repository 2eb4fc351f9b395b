import EntityQuery.Proofs.Inert

/-!
# What the notes of joins say

A join is noted for its kind, and one along a navigation for the columns that it compares
(`JoinNote.Describes`). An inner join is a call of `Join` with a pairing of the rows, a left outer one a
`GroupJoin` whose groups are flattened with a default (`Expr.AsNoted`).

While a query is expanded the notes stand in the rows of its streams, where `Expr.Noted` says of them the same,
and that the keys of navigations are inert. The invariant keeps apart what is expected of an expression at its
place: that it is any expression, the group join of a flattening, a key, or the filter that stands for a
collection with the two keys that it compares. These are the keys that a hoisted collection is joined by.
-/

namespace EntityQuery

open EntityQuery.Expr

variable {M : Model} {C : Catalog} {f g : Forest} {p p' : Progress} {l l' : Level} {Γ Δ : List String}
  {e e' d a b : Expr} {x y name : String}

/-- The note lists the columns that the components of the two keys read. -/
structure JoinNote.Describes (note : JoinNote) (outerKey innerKey : Expr) : Prop where
  length : note.outerKey.length = note.innerKey.length
  outer : outerKey.keyColumns = note.outerKey.map some
  inner : innerKey.keyColumns = note.innerKey.map some

/-- The operator of a join that is noted for its kind. -/
def JoinKind.operator : JoinKind → Operator
  | .inner => .join
  | .leftOuter => .groupJoin

/-- The elements of the group in a row, or null if there are none. -/
def defaultElements (row : String) : Expr :=
  .lambda [row] (.call .defaultIfEmpty [.member (.param row) innerField] none)

namespace Expr

/-- The call is noted as a join or as the flattening of one. -/
def isNotedJoin : Expr → Bool
  | .call _ _ (some (.join _)) | .call _ _ (some .leftJoinFlatten) => true
  | _ => false

/-- All joins in the expression are what they are noted for. -/
inductive AsNoted : Expr → Prop
  | node {e : Expr} (plain : e.isNotedJoin = false) (parts : ∀ c ∈ e.children, AsNoted c) : AsNoted e
  | inner {note : JoinNote} {outer inner outerKey innerKey : Expr} {x y : String} (kind : note.kind = .inner)
    (keys : note.navigation.isSome = true → note.Describes outerKey innerKey)
    (parts : ∀ c ∈ [outer, inner, outerKey, innerKey], AsNoted c) :
    AsNoted (.call .join [outer, inner, outerKey, innerKey, pairing x y] (some (.join note)))
  | leftOuter {note : JoinNote} {outer inner outerKey innerKey : Expr} {x group row y : String}
    (kind : note.kind = .leftOuter) (keys : note.navigation.isSome = true → note.Describes outerKey innerKey)
    (parts : ∀ c ∈ [outer, inner, outerKey, innerKey], AsNoted c) :
    AsNoted (.call .selectMany
      [.call .groupJoin [outer, inner, outerKey, innerKey, pairing x group] (some (.join note)),
        defaultElements row, pairing row y] (some .leftJoinFlatten))

/-- Under conversions, the expression is a column of the row. -/
inductive IsColumnOf (row : Expr) (name : String) : Expr → Prop
  | read : IsColumnOf row name (.member row name)
  | convert {e : Expr} (t : ScalarType) (nullable : Bool) (h : IsColumnOf row name e) :
    IsColumnOf row name (.convert e t nullable)

/-- The key of the elements in the filter of a collection, whose rows have the name `x`. -/
def ElementKey (C : Catalog) (x : String) (key : Expr) : Prop :=
  ∀ part ∈ key.tupleParts, ∃ name, C.IsColumn name ∧ IsColumnOf (.param x) name part

/-- The key of the owner in the filter of a collection. -/
def OwnerKey (C : Catalog) (f : Forest) (key : Expr) : Prop :=
  ∀ part ∈ key.tupleParts, ∃ r name, f.IsRow r.node ∧ C.IsColumn name ∧ IsColumnOf (.rowRef r) name part

/-- What is said of an expression of which nothing is expected, is said of its parts. -/
def isUnnoted : Level → Expr → Bool
  | _, .lambda .. | _, .stream .. => false
  | _, .call _ _ (some (.join _)) | _, .call _ _ (some .leftJoinFlatten) => false
  | l, .call _ _ (some (.collection ..)) => l.isSome
  | _, _ => true

end Expr

/-- What is expected of an expression. -/
inductive Place where
  /-- Nothing but what is said of its notes. -/
  | free (l : Level)
  /-- It is the group join of a flattening. -/
  | grouped (Γ : List String)
  /-- It is a key of a join. -/
  | key (Γ : List String)
  /-- It tells the elements of a collection from other rows. -/
  | membership
  /-- It is what tells them. -/
  | belongs (x : String)
  /-- It compares the key of the elements with that of their owner. -/
  | pair (x : String)

namespace Place

/-- What is expected at the second place is said of what is expected at the first one. -/
def Le : Place → Place → Prop
  | .free l, .free l' => l.Le l'
  | .grouped Γ, .grouped Δ | .key Γ, .key Δ => Γ ⊆ Δ
  | .membership, .membership | .membership, .free _ => True
  | .belongs x, .belongs y | .pair x, .pair y => x = y
  | .belongs _, .free _ | .pair _, .free _ => True
  | _, _ => False

/-- The place when `d` is put for `x`. What tells elements apart has names of its own. -/
def Puts (x : String) (d : Expr) : Place → Place → Prop
  | .free l, .free l' => Level.Puts x d l l'
  | .grouped Γ, .grouped Δ | .key Γ, .key Δ => Level.Puts x d (some Γ) (some Δ)
  | .membership, .membership => True
  | .belongs y, .belongs z | .pair y, .pair z => y = z ∧ x ∉ [y]
  | _, _ => False

/-- The place is in rows, in view of the parameter. -/
def Sees (x : String) : Place → Prop
  | .free (some Γ) | .grouped Γ | .key Γ => x ∈ Γ
  | _ => False

end Place

/-- Where a join of the kind stands. -/
def JoinKind.place : JoinKind → List String → Place
  | .inner, Γ => .free (some Γ)
  | .leftOuter, Γ => .grouped Γ

theorem JoinKind.place_le (kind : JoinKind) {P : Place} (h : (kind.place Γ).Le P) :
    ∃ Δ, Γ ⊆ Δ ∧ P = kind.place Δ := by
  cases kind with
  | inner =>
    cases P with
    | free l =>
      cases l with
      | none => cases h
      | some Δ => exact ⟨Δ, h, rfl⟩
    | _ => cases h
  | leftOuter =>
    cases P with
    | grouped Δ => exact ⟨Δ, h, rfl⟩
    | _ => cases h

theorem JoinKind.place_puts (kind : JoinKind) {P : Place} (h : Place.Puts x d (kind.place Γ) P) :
    ∃ Δ, Level.Puts x d (some Γ) (some Δ) ∧ P = kind.place Δ := by
  cases kind with
  | inner =>
    cases P with
    | free l =>
      cases l with
      | none => cases h
      | some Δ => exact ⟨Δ, h, rfl⟩
    | _ => cases h
  | leftOuter =>
    cases P with
    | grouped Δ => exact ⟨Δ, h, rfl⟩
    | _ => cases h

theorem JoinKind.sees_place {kind : JoinKind} : (kind.place Γ).Sees x ↔ x ∈ Γ := by
  cases kind <;> exact Iff.rfl

/-- The keys are inert, and the note describes them. -/
structure JoinNote.Fits (C : Catalog) (f : Forest) (Γ : List String) (note : JoinNote) (outerKey innerKey : Expr) :
    Prop extends note.Describes outerKey innerKey where
  outerInert : outerKey.Inert C f Γ
  innerInert : innerKey.Inert C f Γ

theorem JoinNote.Fits.mono {note : JoinNote} {outerKey innerKey : Expr} (h : note.Fits C f Γ outerKey innerKey)
    (hfg : f.Keeps g) (hle : Γ ⊆ Δ) : note.Fits C g Δ outerKey innerKey where
  toDescribes := h.toDescribes
  outerInert := h.outerInert.mono hfg hle
  innerInert := h.innerInert.mono hfg hle

theorem JoinNote.Fits.put {note : JoinNote} {outerKey innerKey : Expr} (h : note.Fits C f Γ outerKey innerKey)
    (hl : Level.Puts x d (some Γ) (some Δ)) :
    note.Fits C f Δ (outerKey.substitute x d) (innerKey.substitute x d) where
  length := h.length
  outer := keyColumns_substitute h.outer
  inner := keyColumns_substitute h.inner
  outerInert := h.outerInert.put hl
  innerInert := h.innerInert.put hl

/-- All joins in the rows of streams are what they are noted for, and outside of them the filters that stand for
collections compare keys. -/
inductive Expr.Noted (C : Catalog) (f : Forest) : Place → Expr → Prop
  | node {l : Level} {e : Expr} (plain : e.isUnnoted l = true) (parts : ∀ c ∈ e.children, Noted C f (.free l) c) :
    Noted C f (.free l) e
  | lambda {l : Level} {params : List String} {body : Expr} (h : Noted C f (.free (l.under params)) body) :
    Noted C f (.free l) (.lambda params body)
  | stream {l : Level} {rows selector : Expr} {frame : StreamFrame} (hrows : Noted C f (.free l.rows) rows)
    (hselector : Noted C f (.free none) selector) : Noted C f (.free l) (.stream rows selector frame)
  | join {P : Place} {Γ : List String} {note : JoinNote} {operator : Operator}
    {outer inner outerKey innerKey : Expr} {x y : String} (place : P = note.kind.place Γ)
    (kind : operator = note.kind.operator) (ho : Noted C f (.free (some Γ)) outer)
    (hi : Noted C f (.free (some Γ)) inner) (hk : Noted C f (.key Γ) outerKey) (hj : Noted C f (.key Γ) innerKey)
    (fits : note.navigation.isSome = true → note.Fits C f Γ outerKey innerKey) :
    Noted C f P (.call operator [outer, inner, outerKey, innerKey, pairing x y] (some (.join note)))
  | flatten {Γ : List String} {source : Expr} {row y : String} (h : Noted C f (.grouped Γ) source) :
    Noted C f (.free (some Γ))
      (.call .selectMany [source, defaultElements row, pairing row y] (some .leftJoinFlatten))
  | key {Γ : List String} {x : String} {body : Expr} (h : Noted C f (.free (some (x :: Γ))) body) :
    Noted C f (.key Γ) (.lambda [x] body)
  | collection {target owner navigation : String} {member : Expr} (h : Noted C f .membership member) :
    Noted C f (.free none) (.call .filter [.entitySet target, member] (some (.collection owner navigation)))
  | membership {x : String} {body : Expr} (h : Noted C f (.belongs x) body) :
    Noted C f .membership (.lambda [x] body)
  | belongs {x : String} {guard pair : Expr} (hguard : Noted C f (.free none) guard)
    (hpair : Noted C f (.pair x) pair) : Noted C f (.belongs x) (.binary .and guard pair)
  | equal {x : String} {a b : Expr} (ha : a.ElementKey C x) (hb : b.OwnerKey C f) :
    Noted C f (.pair x) (.binary .equal a b)
  | guarded {x : String} {guards : List Expr} {a b : Expr} (hguards : ∀ g ∈ guards, Noted C f (.free none) g)
    (ha : a.ElementKey C x) (hb : b.OwnerKey C f) : Noted C f (.pair x) (.nullSafeEqual guards a b)

namespace Expr

section Heads

variable {items : List Expr} {params : List String} {frame : StreamFrame}

theorem noted_iff (plain : e.isUnnoted l = true) :
    e.Noted C f (.free l) ↔ ∀ c ∈ e.children, c.Noted C f (.free l) := by
  refine ⟨fun h => ?_, .node plain⟩
  cases h with
  | node _ parts => exact parts
  | lambda | stream | flatten | join | collection => cases plain

@[simp] theorem noted_entitySet (entity : String) : (entitySet entity).Noted C f (.free l) := .node rfl nofun

@[simp] theorem noted_const (value : Literal) : (const value).Noted C f (.free l) := .node rfl nofun

@[simp] theorem noted_param (x : String) : (param x).Noted C f (.free l) := .node rfl nofun

@[simp] theorem noted_rowRef (r : RowRef) : (rowRef r).Noted C f (.free l) := .node rfl nofun

@[simp] theorem noted_member : (member a name).Noted C f (.free l) ↔ a.Noted C f (.free l) :=
  (noted_iff rfl).trans (by simp [children])

@[simp] theorem noted_binary {op : BinaryOp} :
    (binary op a b).Noted C f (.free l) ↔ a.Noted C f (.free l) ∧ b.Noted C f (.free l) :=
  (noted_iff rfl).trans (by simp [children])

@[simp] theorem noted_record {fields : List (String × Expr)} :
    (record fields).Noted C f (.free l) ↔ ∀ a ∈ fields.map (·.2), a.Noted C f (.free l) := noted_iff rfl

@[simp] theorem noted_tuple : (tuple items).Noted C f (.free l) ↔ ∀ a ∈ items, a.Noted C f (.free l) :=
  noted_iff rfl

@[simp] theorem noted_function : (function name items).Noted C f (.free l) ↔
    ∀ a ∈ items, a.Noted C f (.free l) := noted_iff rfl

@[simp] theorem noted_call {operator : Operator} : (call operator items none).Noted C f (.free l) ↔
    ∀ a ∈ items, a.Noted C f (.free l) := noted_iff rfl

@[simp] theorem noted_entityShape {entity : String} :
    (entityShape entity a).Noted C f (.free l) ↔ a.Noted C f (.free l) :=
  (noted_iff rfl).trans (by simp [children])

@[simp] theorem noted_lambda :
    (lambda params a).Noted C f (.free l) ↔ a.Noted C f (.free (l.under params)) := by
  refine ⟨fun h => ?_, .lambda⟩
  cases h with
  | node plain => cases plain
  | lambda h => exact h

@[simp] theorem noted_stream : (stream a b frame).Noted C f (.free l) ↔
    a.Noted C f (.free l.rows) ∧ b.Noted C f (.free none) := by
  refine ⟨fun h => ?_, fun h => .stream h.1 h.2⟩
  cases h with
  | node plain => cases plain
  | stream hrows hselector => exact ⟨hrows, hselector⟩

end Heads

section Keys

variable {key row : Expr}

theorem IsColumnOf.column? (h : IsColumnOf row name e) : e.column? = some name := by
  induction h with
  | read => rfl
  | convert _ _ _ ih => exact ih

theorem IsColumnOf.isRef (h : IsColumnOf row name e) : e.isRef = false := by
  cases h <;> rfl

theorem IsColumnOf.widenPair {row' : Expr} {y : String} (ha : IsColumnOf row x a)
    (hb : IsColumnOf row' y b) (t : ScalarType) (i j : Bool) :
    IsColumnOf row x (EntityQuery.widenPair t a i b j).1 ∧ IsColumnOf row' y (EntityQuery.widenPair t a i b j).2 := by
  unfold EntityQuery.widenPair
  split
  · exact ⟨ha.convert t true, hb⟩
  · exact ⟨ha, hb.convert t true⟩
  · exact ⟨ha, hb⟩

/-- What makes up a key is what it is taken apart into. -/
theorem forall_tupleParts_key {Q : Expr → Prop} {parts : List Expr} (single : ∀ d, Q d → d.tupleParts = [d])
    (h : ∀ d ∈ parts, Q d) : ∀ part ∈ (Expr.key parts).tupleParts, Q part := by
  unfold Expr.key
  split
  · next d =>
    rw [single d (h d (.head _))]
    exact h
  · exact h

theorem IsColumnOf.tupleParts (h : IsColumnOf row name e) : e.tupleParts = [e] := by
  cases h <;> rfl

/-- What rewriting leaves of a column is left of its conversions. -/
theorem IsColumnOf.inert (h : IsColumnOf row name e) (read : Inert C f Γ (.member row name)) : Inert C f Γ e := by
  induction h with
  | read => exact read
  | convert _ _ _ ih => exact .node rfl (List.forall_mem_singleton.2 ih)

/-- A key is its only part, or it is a tuple of its parts. -/
theorem inert_of_tupleParts (h : ∀ part ∈ key.tupleParts, Inert C f Γ part) : Inert C f Γ key := by
  unfold tupleParts at h
  split at h
  · exact .node rfl h
  · exact h _ (List.mem_singleton_self _)

theorem ElementKey.inert (h : key.ElementKey C x) : Inert C f [x] key := by
  refine inert_of_tupleParts fun part hpart => ?_
  obtain ⟨name, -, h⟩ := h part hpart
  exact h.inert (.node rfl (List.forall_mem_singleton.2 (.param (List.mem_singleton_self x))))

theorem OwnerKey.inert (h : key.OwnerKey C f) : Inert C f [] key := by
  refine inert_of_tupleParts fun part hpart => ?_
  obtain ⟨r, name, hrow, hname, h⟩ := h part hpart
  exact h.inert (.column hrow hname)

theorem OwnerKey.mono (h : key.OwnerKey C f) (hfg : f.Keeps g) : key.OwnerKey C g := by
  intro part hpart
  obtain ⟨r, name, hrow, hname, h⟩ := h part hpart
  exact ⟨r, name, hrow.keeps hfg, hname, h⟩

/-- No side of the comparison is a row. -/
theorem isRef_of_tupleParts (h : ∀ part ∈ key.tupleParts, part.isRef = false) : key.isRef = false := by
  unfold tupleParts at h
  split at h
  · rfl
  · exact h _ (List.mem_singleton_self _)

theorem Inert.noted (h : Inert C f Γ e) : e.Noted C f (.free l) := by
  induction h generalizing l with
  | @node _ e kind _ ih =>
    refine .node ?_ fun c hc => ih c hc
    cases e with
    | call operator arguments note =>
      obtain rfl := Option.isNone_iff_eq_none.1 kind
      rfl
    | lambda _ _ | stream _ _ _ => cases kind
    | _ => rfl
  | param => exact noted_param _
  | lambda _ ih => exact noted_lambda.2 ih
  | row => exact noted_rowRef _
  | column => exact noted_member.2 (noted_rowRef _)

end Keys

section Growth

/-- Of a call only the note is looked at. -/
theorem isUnnoted_call (operator operator' : Operator) (items items' : List Expr) (note : Option CallNote) :
    (call operator items note).isUnnoted l = (call operator' items' note).isUnnoted l := by
  cases note with
  | none => rfl
  | some note => cases note <;> rfl

theorem SameHead.isUnnoted {R : Expr → Expr → Prop} (h : SameHead R e e') : e'.isUnnoted l = e.isUnnoted l := by
  cases h with
  | call operator note _ => exact isUnnoted_call ..
  | _ => rfl

/-- Only filters of collections are treated differently at the two levels. -/
theorem isUnnoted_of_isSome (hle : l.isSome = true → l'.isSome = true) (h : e.isUnnoted l = true) :
    e.isUnnoted l' = true := by
  cases e with
  | call operator arguments note =>
    cases note with
    | none => rfl
    | some note =>
      cases note with
      | collection owner navigation => exact hle h
      | _ => cases h
  | lambda _ _ | stream _ _ _ => cases h
  | _ => rfl

theorem Noted.mono {P Q : Place} (h : e.Noted C f P) (hfg : f.Keeps g) (hle : P.Le Q) : e.Noted C g Q := by
  have free {l : Level} : Place.Le (.free l) (.free l) := Level.Le.refl l
  induction h generalizing Q with
  | node plain _ ih =>
    cases Q with
    | free l' => exact .node (isUnnoted_of_isSome hle.isSome plain) fun c hc => ih c hc hle
    | _ => cases hle
  | lambda _ ih =>
    cases Q with
    | free l' => exact .lambda (ih (Q := .free _) (Level.Le.under hle))
    | _ => cases hle
  | stream _ _ ihr ihs =>
    cases Q with
    | free l' => exact .stream (ihr (Q := .free _) (Level.Le.rows hle)) (ihs free)
    | _ => cases hle
  | @join _ _ note _ _ _ _ _ _ _ place kind _ _ _ _ fits iho ihi ihk ihj =>
    subst place
    obtain ⟨Δ, hsub, rfl⟩ := note.kind.place_le hle
    exact .join rfl kind (iho (Q := .free (some Δ)) hsub) (ihi (Q := .free (some Δ)) hsub) (ihk (Q := .key Δ) hsub)
      (ihj (Q := .key Δ) hsub) fun hnav => (fits hnav).mono hfg hsub
  | flatten _ ih =>
    obtain ⟨Δ, hsub, rfl⟩ := JoinKind.inner.place_le hle
    exact .flatten (ih (Q := .grouped Δ) hsub)
  | key _ ih =>
    cases Q with
    | key Δ => exact .key (ih (Q := .free _) (List.cons_subset_cons _ hle))
    | _ => cases hle
  | collection _ ih =>
    cases Q with
    | free l =>
      cases l with
      | none => exact .collection (ih (Q := .membership) trivial)
      | some Δ =>
        exact .node rfl (List.forall_mem_cons.2 ⟨noted_entitySet _,
          List.forall_mem_singleton.2 (ih (Q := .free (some Δ)) trivial)⟩)
    | _ => cases hle
  | membership _ ih =>
    cases Q with
    | free l => exact .lambda (ih (Q := .free _) trivial)
    | membership => exact .membership (ih (Q := .belongs _) rfl)
    | _ => cases hle
  | belongs _ _ ihg ihp =>
    cases Q with
    | free l => exact noted_binary.2 ⟨ihg (Q := .free l) trivial, ihp (Q := .free l) trivial⟩
    | belongs y =>
      obtain rfl := hle
      exact .belongs (ihg free) (ihp (Q := .pair _) rfl)
    | _ => cases hle
  | equal ha hb =>
    cases Q with
    | free l => exact noted_binary.2 ⟨ha.inert.noted, (hb.mono hfg).inert.noted⟩
    | pair y =>
      obtain rfl := hle
      exact .equal ha (hb.mono hfg)
    | _ => cases hle
  | guarded _ ha hb ih =>
    cases Q with
    | free l =>
      refine .node rfl fun c hc => ?_
      simp only [children, List.mem_append, List.mem_cons, List.not_mem_nil, or_false] at hc
      rcases hc with hc | rfl | rfl
      · exact ih c hc (Q := .free l) trivial
      · exact ha.inert.noted
      · exact (hb.mono hfg).inert.noted
    | pair y =>
      obtain rfl := hle
      exact .guarded (fun g hg => ih g hg free) ha (hb.mono hfg)
    | _ => cases hle

/-- What stands outside of rows may be put anywhere. -/
theorem Noted.anywhere (h : e.Noted C f (.free none)) : e.Noted C f (.free l) :=
  h.mono (.refl f) (Q := .free l) trivial

theorem Noted.keeps {P : Place} (h : e.Noted C f P) (hfg : f.Keeps g) : e.Noted C g P := by
  refine h.mono hfg ?_
  cases P with
  | free l => exact Level.Le.refl l
  | grouped Γ | key Γ => exact List.Subset.refl Γ
  | membership => trivial
  | belongs x | pair x => rfl

/-- Of a scalar expression only the operands are looked at. -/
theorem Over.noted {operand : Expr → Prop} (h : e.Over operand) (k : ∀ d, operand d → d.Noted C f (.free l)) :
    e.Noted C f (.free l) := by
  induction h with
  | operand h => exact k _ h
  | const value => exact noted_const value
  | member _ _ ih => exact noted_member.2 ih
  | binary _ _ _ iha ihb => exact noted_binary.2 ⟨iha, ihb⟩
  | cond _ _ _ iha ihb ihc => exact .node rfl (by simp [children, iha, ihb, ihc])
  | tuple _ ih => exact noted_tuple.2 ih
  | convert _ _ _ ih => exact .node rfl (by simpa [children] using ih)
  | nullSafeEqual _ _ _ _ ih iha ihb =>
    refine .node rfl fun c hc => ?_
    simp only [children, List.mem_append, List.mem_cons, List.not_mem_nil, or_false] at hc
    rcases hc with hc | rfl | rfl
    · exact ih c hc
    · exact iha
    · exact ihb

end Growth

section Substitution

theorem inert_defaultElements (row : String) : Inert C f Γ (defaultElements row) := by
  refine .lambda (.node rfl (List.forall_mem_singleton.2 (.node rfl (List.forall_mem_singleton.2 (.param ?_)))))
  exact List.mem_append_left _ (List.mem_singleton_self row)

/-- Wherever the expression is noted, it still is when `d` is put for `x`. -/
def NotedPut (C : Catalog) (f : Forest) (x : String) (d e : Expr) : Prop :=
  ∀ P Q : Place, e.Noted C f P → P.Puts x d Q → (e.substitute x d).Noted C f Q

namespace NotedPut

variable {Γ Δ : List String} {l' : Level} {y : String} {a b outer inner outerKey innerKey source : Expr}

theorem closed (h : Inert C f [] e) : e.substitute x d = e := h.substitute_of_not_mem List.not_mem_nil

theorem node (plain : e.isUnnoted l = true) (parts : ∀ c ∈ e.children, c.Noted C f (.free l))
    (hl : Level.Puts x d l l') (hd : d.Noted C f (.free none))
    (ih : ∀ c ∈ e.children, NotedPut C f x d c) : (e.substitute x d).Noted C f (.free l') := by
  cases hat : substituteAt x d e with
  | none =>
    rw [substitute_of_none hat]
    have head := SameHead.of_map (·.substitute x d) e
    refine .node (head.isUnnoted.trans (isUnnoted_of_isSome hl.isSome plain)) fun c' hc' => ?_
    obtain ⟨c, hc, -, rfl⟩ := head.of_mem_children hc'
    exact ih c hc (.free l) (.free l') (parts c hc) hl
  | some _ =>
    cases e with
    | param y =>
      rw [substitute_param]
      split
      · exact hd.anywhere
      · exact noted_param y
    | lambda _ _ => cases plain
    | _ => cases hat

theorem join {note : JoinNote} {operator : Operator} {z : String}
    (kind : operator = note.kind.operator) (hput : Level.Puts x d (some Γ) (some Δ))
    (ho : (outer.substitute x d).Noted C f (.free (some Δ)))
    (hi : (inner.substitute x d).Noted C f (.free (some Δ)))
    (hk : (outerKey.substitute x d).Noted C f (.key Δ)) (hj : (innerKey.substitute x d).Noted C f (.key Δ))
    (fits : note.navigation.isSome = true → note.Fits C f Γ outerKey innerKey) :
    ((Expr.call operator [outer, inner, outerKey, innerKey, pairing y z] (some (.join note))).substitute
      x d).Noted C f (note.kind.place Δ) := by
  rw [substitute_of_none rfl]
  have joined : Expr.Noted C f (note.kind.place Δ) (.call _ [outer.substitute x d, inner.substitute x d,
      outerKey.substitute x d, innerKey.substitute x d, pairing y z] (some (.join note))) :=
    .join rfl kind ho hi hk hj fun hnav => (fits hnav).put hput
  rw [← closed (C := C) (f := f) (inert_pairing y z)] at joined
  exact joined

theorem flatten {row : String} (h : (source.substitute x d).Noted C f (.grouped Δ)) :
    ((Expr.call .selectMany [source, defaultElements row, pairing row y] (some .leftJoinFlatten)).substitute
      x d).Noted C f (.free (some Δ)) := by
  rw [substitute_of_none rfl]
  have flat : Expr.Noted C f (.free (some Δ)) (.call .selectMany [source.substitute x d,
      defaultElements row, pairing row y] (some .leftJoinFlatten)) := .flatten h
  rw [← closed (C := C) (f := f) (inert_pairing row y),
    ← closed (C := C) (f := f) (inert_defaultElements row)] at flat
  exact flat

theorem key {body : Expr} (h : body.Noted C f (.free (some (y :: Γ)))) (ih : NotedPut C f x d body)
    (hl : Level.Puts x d (some Γ) (some Δ)) :
    ((Expr.lambda [y] body).substitute x d).Noted C f (.key Δ) := by
  rw [substitute_lambda]
  split
  · next hx =>
    have below : Level.Le (some (y :: Γ)) (some (y :: Δ)) := hl.under_of_mem hx
    exact .key (h.mono (.refl f) (Q := .free _) below)
  · next hx =>
    have below : Level.Puts x d (some (y :: Γ)) (some (y :: Δ)) := hl.under hx
    exact .key (ih _ (.free _) h below)

/-- The keys of a membership read no parameter but the element's. -/
theorem equal (hx : x ∉ [y]) (ha : a.ElementKey C y) (hb : b.OwnerKey C f) :
    ((Expr.binary .equal a b).substitute x d).Noted C f (.pair y) := by
  have same : Expr.Noted C f (.pair y) (.binary .equal a b) := .equal ha hb
  rw [← (ha.inert (f := f)).substitute_of_not_mem hx (d := d), ← closed hb.inert] at same
  exact same

theorem guarded {guards : List Expr} (hx : x ∉ [y])
    (hguards : ∀ g ∈ guards, (g.substitute x d).Noted C f (.free none)) (ha : a.ElementKey C y)
    (hb : b.OwnerKey C f) : ((nullSafeEqual guards a b).substitute x d).Noted C f (.pair y) := by
  obtain ⟨e', heq, head⟩ : ∃ e', (nullSafeEqual guards a b).substitute x d = e' ∧
      SameHead (fun c c' => c ∈ (nullSafeEqual guards a b).children ∧ c' = c.substitute x d)
        (nullSafeEqual guards a b) e' := ⟨_, substitute_of_none rfl, SameHead.of_map _ _⟩
  rw [heq]
  cases head with
  | nullSafeEqual hparts hleft hright =>
    obtain ⟨-, rfl⟩ := hleft
    obtain ⟨-, rfl⟩ := hright
    rw [(ha.inert (f := f)).substitute_of_not_mem hx, closed hb.inert]
    refine .guarded (fun g' hg' => ?_) ha hb
    obtain ⟨g, hg, -, rfl⟩ := exists_of_mem_right hparts hg'
    exact hguards g hg

end NotedPut

/-- Notes stay true when something is put for a parameter: what has no joins, or, where keys read it, a
parameter. -/
theorem Noted.put {P Q : Place} (h : e.Noted C f P) (hl : P.Puts x d Q) (hd : d.Noted C f (.free none)) :
    (e.substitute x d).Noted C f Q := by
  have free : Place.Puts x d (.free none) (.free none) := trivial
  induction e using children_induction generalizing P Q with
  | step e ih =>
    have ih : ∀ c ∈ e.children, NotedPut C f x d c := fun c hc _ _ h hl => ih c hc h hl
    cases h with
    | node plain parts =>
      cases Q with
      | free l' => exact NotedPut.node plain parts hl hd ih
      | _ => cases hl
    | lambda h =>
      cases Q with
      | free l' =>
        rw [substitute_lambda]
        split
        · next hx => exact .lambda (h.mono (.refl f) (Q := .free _) (hl.under_of_mem hx))
        · next hx => exact .lambda (ih _ (.head _) _ (.free _) h (hl.under hx))
      | _ => cases hl
    | stream hrows hselector =>
      cases Q with
      | free l' =>
        rw [substitute_of_none rfl]
        exact .stream (ih _ (.head _) _ (.free _) hrows hl.rows)
          (ih _ (.tail _ (.head _)) _ _ hselector free)
      | _ => cases hl
    | @join _ Γ note _ outer inner outerKey innerKey a b place kind ho hi hk hj fits =>
      subst place
      obtain ⟨Δ, hput, rfl⟩ := note.kind.place_puts hl
      exact NotedPut.join kind hput (ih _ (by simp [children]) _ (.free (some Δ)) ho hput)
        (ih _ (by simp [children]) _ (.free (some Δ)) hi hput)
        (ih _ (by simp [children]) _ (.key Δ) hk hput) (ih _ (by simp [children]) _ (.key Δ) hj hput) fits
    | flatten h =>
      obtain ⟨Δ, hput, rfl⟩ := JoinKind.inner.place_puts hl
      exact NotedPut.flatten (ih _ (.head _) _ (.grouped Δ) h hput)
    | key h =>
      cases Q with
      | key Δ => exact NotedPut.key h (ih _ (.head _)) hl
      | _ => cases hl
    | collection h =>
      cases Q with
      | free l =>
        cases l with
        | none =>
          rw [substitute_of_none rfl]
          exact .collection (ih _ (.tail _ (.head _)) _ .membership h trivial)
        | some Δ => exact hl.elim
      | _ => cases hl
    | @membership y body h =>
      cases Q with
      | membership =>
        rw [substitute_lambda]
        split
        · exact .membership h
        · next hx => exact .membership (ih _ (.head _) _ (.belongs y) h ⟨rfl, hx⟩)
      | _ => cases hl
    | belongs hguard hpair =>
      cases Q with
      | belongs z =>
        obtain ⟨rfl, hx⟩ := hl
        rw [substitute_of_none rfl]
        exact .belongs (ih _ (.head _) _ _ hguard free)
          (ih _ (.tail _ (.head _)) _ (.pair _) hpair ⟨rfl, hx⟩)
      | _ => cases hl
    | equal ha hb =>
      cases Q with
      | pair z =>
        obtain ⟨rfl, hx⟩ := hl
        exact NotedPut.equal hx ha hb
      | _ => cases hl
    | guarded hguards ha hb =>
      cases Q with
      | pair z =>
        obtain ⟨rfl, hx⟩ := hl
        exact NotedPut.guarded hx
          (fun g hg => ih g (by simp [children, hg]) _ _ (hguards g hg) free) ha hb
      | _ => cases hl

end Substitution

/-- What is made of the first expression: it is noted at every place at which the first one is, and it is the
same if that is inert. -/
structure KeepsNotes (C : Catalog) (f g : Forest) (e e' : Expr) : Prop where
  keeps : f.Keeps g
  noted {P : Place} : e.Noted C f P → e'.Noted C g P
  same {Γ : List String} : e.Inert C f Γ → e' = e

namespace KeepsNotes

theorem passing (C : Catalog) : Passing (KeepsNotes C) where
  refl keeps _ := ⟨keeps, fun h => h.keeps keeps, fun _ => rfl⟩
  trans first second := by
    refine ⟨first.keeps.trans second.keeps, fun h => second.noted (first.noted h), fun h => ?_⟩
    obtain rfl := first.same h
    exact second.same (h.mono first.keeps (List.Subset.refl _))

/-- Parts that keep their notes make a node that keeps its notes. -/
theorem of_sameHead (keeps : f.Keeps g) (head : SameHead (KeepsNotes C f g) e e') : KeepsNotes C f g e e' := by
  refine ⟨keeps, fun {P} h => ?_, head.inert fun h => h.same⟩
  cases h with
  | node plain parts =>
    refine .node (head.isUnnoted.trans plain) fun c' hc' => ?_
    obtain ⟨c, hc, h⟩ := head.of_mem_children hc'
    exact h.noted (parts c hc)
  | lambda h =>
    cases head with
    | lambda _ hbody => exact .lambda (hbody.noted h)
  | stream hrows hselector =>
    cases head with
    | stream _ hr hs => exact .stream (hr.noted hrows) (hs.noted hselector)
  | @join _ Γ note _ _ _ _ _ x y place kind ho hi hk hj fits =>
    cases head with
    | call _ _ parts =>
      simp only [List.forall₂_cons_left_iff, List.forall₂_nil_left_iff] at parts
      obtain ⟨_, _, houter, ⟨_, _, hinner, ⟨_, _, hkey, ⟨_, _, hother, ⟨_, _, hpair, rfl, rfl⟩, rfl⟩, rfl⟩, rfl⟩,
        rfl⟩ := parts
      obtain rfl := hpair.same (Γ := []) (inert_pairing x y)
      refine .join place kind (houter.noted ho) (hinner.noted hi) (hkey.noted hk) (hother.noted hj) fun hnav => ?_
      obtain rfl := hkey.same (fits hnav).outerInert
      obtain rfl := hother.same (fits hnav).innerInert
      exact (fits hnav).mono keeps (List.Subset.refl _)
  | @flatten _ _ row y h =>
    cases head with
    | call _ _ parts =>
      simp only [List.forall₂_cons_left_iff, List.forall₂_nil_left_iff] at parts
      obtain ⟨_, _, hsource, ⟨_, _, hdefault, ⟨_, _, hpair, rfl, rfl⟩, rfl⟩, rfl⟩ := parts
      obtain rfl := hdefault.same (Γ := []) (inert_defaultElements row)
      obtain rfl := hpair.same (Γ := []) (inert_pairing row y)
      exact .flatten (hsource.noted h)
  | key h =>
    cases head with
    | lambda _ hbody => exact .key (hbody.noted h)
  | @collection target _ _ _ h =>
    cases head with
    | call _ _ parts =>
      simp only [List.forall₂_cons_left_iff, List.forall₂_nil_left_iff] at parts
      obtain ⟨_, _, hroot, ⟨_, _, hmember, rfl, rfl⟩, rfl⟩ := parts
      obtain rfl := hroot.same (Γ := []) (.node rfl nofun)
      exact .collection (hmember.noted h)
  | membership h =>
    cases head with
    | lambda _ hbody => exact .membership (hbody.noted h)
  | belongs hguard hpair =>
    cases head with
    | binary _ hl hr => exact .belongs (hl.noted hguard) (hr.noted hpair)
  | equal ha hb =>
    cases head with
    | binary _ hl hr =>
      rw [hl.same (ha.inert (f := f)), hr.same hb.inert]
      exact .equal ha (hb.mono keeps)
  | guarded hguards ha hb =>
    cases head with
    | nullSafeEqual hparts hl hr =>
      rw [hl.same (ha.inert (f := f)), hr.same hb.inert]
      refine .guarded (fun g' hg' => ?_) ha (hb.mono keeps)
      obtain ⟨g, hg, h⟩ := exists_of_mem_right hparts hg'
      exact h.noted (hguards g hg)

end KeepsNotes

end Expr

section Rewriting

variable {r : RowRef}

theorem bind_rewrite (e : Expr) : bind e = e.rewrite bindNode := by
  rw [EntityQuery.bind]
  congr 1

theorem bindNode_onward (e : Expr) : KeepsLinks M (bindNode e) := by
  intro p e' p' h
  unfold bindNode at h
  split at h
  · exact bindMember_onward _ _ h
  · exact .of_eq (congrArg Progress.forest (Runs.pure_iff.1 h).2).symm

theorem compareNode_onward (e : Expr) : KeepsLinks M (compareNode e) := by
  intro p e' p' h
  unfold compareNode at h
  split at h
  · exact compareSides_onward _ _ _ h
  · exact .of_eq (congrArg Progress.forest (Runs.pure_iff.1 h).2).symm

theorem bindNode_keepsNotes (apart : M.catalog.NamesApart) (hp : p.forest.Linked M.catalog)
    (h : Runs (bindNode e) M p e' p') : KeepsNotes M.catalog p.forest p'.forest e e' := by
  have keeps := (bindNode_onward e h hp).2
  refine ⟨keeps, fun {P} he => ?_, bindNode_inert apart hp h⟩
  unfold bindNode at h
  split at h
  · next t name =>
    cases he with
    | node plain parts =>
      have ht := parts t (.head _)
      unfold bindMember at h
      split at h
      · next fields =>
        obtain ⟨rfl, rfl⟩ := Runs.pure_iff.1 h
        cases hl : fields.lookup name with
        | none => exact noted_member.2 ht
        | some value =>
          obtain ⟨before, after, rfl, -⟩ := List.lookup_eq_some_iff.1 hl
          exact noted_record.1 ht value (by simp)
      · rcases Runs.bindRowMember_cases h with ⟨rfl, -⟩ | ⟨c, -, rfl, -⟩ |
          ⟨_, _, _, _, _, -, -, -, -, -, rfl⟩
        · exact noted_member.2 (noted_rowRef _)
        · exact noted_rowRef _
        · exact noted_rowRef _
      · obtain ⟨rfl, rfl⟩ := Runs.pure_iff.1 h
        exact noted_member.2 ht
  · obtain ⟨rfl, rfl⟩ := Runs.pure_iff.1 h
    exact he

/-- An equality of two keys stays one, guarded or not. -/
theorem compareNode_keepsNotes (hp : p.forest.Linked M.catalog) (h : Runs (compareNode e) M p e' p') :
    KeepsNotes M.catalog p.forest p'.forest e e' := by
  have keeps := (compareNode_onward e h hp).2
  refine ⟨keeps, fun {P} he => ?_, compareNode_inert h⟩
  unfold compareNode at h
  split at h
  · next op a b hsides =>
    cases he with
    | @node l _ _ parts =>
      rw [children_of_sides? hsides] at parts
      have built : e'.Over (Noted M.catalog p'.forest (.free l) ·) :=
        (compareSides_over h (.operand ((parts a (.head _)).keeps keeps))
          (.operand ((parts b (.tail _ (.head _))).keeps keeps)) (fun _ _ r _ => noted_rowRef r)
          fun _ _ => noted_rowRef _).1
      exact built.noted fun _ h => h
    | @equal x a' b' ha hb =>
      cases hsides
      have left : a.isRef = false := isRef_of_tupleParts fun part hpart =>
        have ⟨_, _, column⟩ := ha part hpart
        column.isRef
      have right : b.isRef = false := isRef_of_tupleParts fun part hpart =>
        have ⟨_, _, _, _, column⟩ := hb part hpart
        column.isRef
      obtain ⟨rfl, rfl⟩ := (Runs.compareSides_iff
        (.inl ⟨Operand.isPlain_of_not_ref left, Operand.isPlain_of_not_ref right⟩)).1 h
      rcases plainEquality_cases M.settings p.forest .equal a b with heq | ⟨guards, heq, -⟩ <;> rw [heq]
      · exact .equal ha hb
      · refine .guarded (fun g hg => ?_) ha hb
        obtain ⟨r, -, rfl⟩ := List.mem_map.1 hg
        exact noted_rowRef r
    | _ => cases hsides
  · obtain ⟨rfl, rfl⟩ := Runs.pure_iff.1 h
    exact he

/-- The predicate of a collection compares the key of the elements with that of their owner. -/
theorem membership_noted {owner : NodeId} {element : String} {ownerKey elementKey : List Property}
    (row : f.IsRow owner) (hown : ∀ q ∈ ownerKey, C.IsColumn q.name)
    (helement : ∀ q ∈ elementKey, C.IsColumn q.name) :
    (membership (f.ref owner) element ownerKey elementKey).Noted C f (.belongs element) := by
  have built : (membership (f.ref owner) element ownerKey elementKey).Over (Noted C f (.free none) ·) :=
    membership_over (.operand (noted_rowRef _)) (noted_param element)
  have pair (o e : Property) :
      let sides := widenPair o.dataType (.member (.param element) e.name) e.nullable
        (.member (f.ref owner) o.name) o.nullable
      IsColumnOf (.param element) e.name sides.1 ∧ IsColumnOf (f.ref owner) o.name sides.2 :=
    IsColumnOf.widenPair .read .read _ _ _
  refine .belongs (noted_binary.1 (built.noted fun _ h => h)).1
    (.equal (forall_tupleParts_key ?_ fun part hpart => ?_) (forall_tupleParts_key ?_ fun part hpart => ?_))
  · rintro part ⟨name, -, column⟩
    exact column.tupleParts
  · obtain ⟨_, hw, rfl⟩ := List.mem_map.1 hpart
    obtain ⟨⟨o, e⟩, hz, rfl⟩ := List.mem_map.1 hw
    exact ⟨e.name, helement e (List.of_mem_zip hz).2, (pair o e).1⟩
  · rintro part ⟨r, name, -, -, column⟩
    exact column.tupleParts
  · obtain ⟨_, hw, rfl⟩ := List.mem_map.1 hpart
    obtain ⟨⟨o, e⟩, hz, rfl⟩ := List.mem_map.1 hw
    exact ⟨_, o.name, row, hown o (List.of_mem_zip hz).1, (pair o e).2⟩

/-- The filter of a collection. -/
theorem collectionFilter_noted (hp : p.forest.Linked M.catalog)
    (many : (p.forest.node r.node).isCollection = true) (h : Runs (collectionFilter r) M p e p') :
    e.Noted M.catalog p'.forest (.free l) := by
  have keeps := (collectionFilter_onward r h hp).2
  obtain ⟨edge, owner, element, ownerKey, elementKey, hedge, howner, rfl, -, ⟨t, ht, hown⟩, t', ht', helement⟩ :=
    Runs.collectionFilter_eq h
  obtain ⟨entity, hentity, -⟩ := hp.declared hedge howner
  have row : p.forest.IsRow owner := ⟨⟨entity, hentity⟩, (hp.single_owner many howner).single⟩
  refine Noted.anywhere (Noted.keeps (P := .free none) (.collection (.membership ?_)) keeps)
  exact membership_noted row (Catalog.isColumn_of_propertiesNamed ht hown)
    (Catalog.isColumn_of_propertiesNamed ht' helement)

theorem filterCollections_keepsNotes (hp : p.forest.Linked M.catalog)
    (h : Runs (filterCollections e) M p e' p') : KeepsNotes M.catalog p.forest p'.forest e e' := by
  rw [Runs.filterCollections_iff] at h
  refine (KeepsNotes.passing _).descend (fun _ _ hat => collectionAt_onward hat)
    (fun {e x q e' q'} hat hq keeps h => ?_) (fun _ => .of_sameHead) hp (.refl _) h
  refine ⟨(collectionAt_onward hat h hq).2, fun {P} he => ?_, fun he => ?_⟩
  · obtain ⟨r, many, ⟨rfl, hfilter⟩ | ⟨name, filter, rfl, hfilter, rfl⟩⟩ := Runs.collectionAt hat h
    · cases he with
      | node => exact collectionFilter_noted hq (keeps.isCollection many) hfilter
    · cases he with
      | node =>
        exact noted_call.2 (List.forall_mem_singleton.2 (collectionFilter_noted hq (keeps.isCollection many) hfilter))
  · rw [collectionAt_inert keeps he] at hat
    cases hat

/-- Rewriting keeps what is said of the notes: neither do columns lead anywhere, nor are keys rows. -/
theorem rewriteBody_keepsNotes (apart : M.catalog.NamesApart) (hp : p.forest.Linked M.catalog)
    (h : Runs (rewriteBody e) M p e' p') : KeepsNotes M.catalog p.forest p'.forest e e' := by
  obtain ⟨_, _, _, _, hbind, hq, hcompare, hq', hfilter⟩ := Runs.rewriteBody h hp
  rw [bind_rewrite] at hbind
  rw [compareByKeys_rewrite] at hcompare
  have passing := KeepsNotes.passing M.catalog
  exact passing.trans
    (passing.rewrite bindNode_onward .of_sameHead (bindNode_keepsNotes apart) hp hbind)
    (passing.trans (passing.rewrite compareNode_onward .of_sameHead compareNode_keepsNotes hq hcompare)
      (filterCollections_keepsNotes hq' hfilter))

end Rewriting

end EntityQuery
