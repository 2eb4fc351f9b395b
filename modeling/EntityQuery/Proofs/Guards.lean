import EntityQuery.Proofs.Levels

/-!
# What guards an equality

A guard is made as a reference to a row that can be absent. On the way to the result a reference to a
row becomes the path at which the row is read, and a reference to a collection the query for its rows.
`Expr.Guarded` says that the guards in an expression are of these forms. It keeps apart two levels. Inside
the rows of a stream, lambdas stand over rows already, and a path starts at a parameter that is bound there.
Outside of them, a parameter may still have anything put for it, and no guard is a path yet.
-/

namespace EntityQuery

open EntityQuery.Expr

/-- The parameters that are bound around an expression in the rows of a stream; `none` is the level of what
is still to be brought over rows. -/
abbrev Level := Option (List String)

namespace Level

/-- The second level allows what the first one allows. -/
def Le : Level → Level → Prop
  | none, _ => True
  | some Γ, some Δ => Γ ⊆ Δ
  | some _, none => False

/-- The level of the body of a lambda. -/
def under (params : List String) (l : Level) : Level := l.map (params ++ ·)

/-- The level of the rows of a stream. -/
def rows (l : Level) : Level := some (l.getD [])

variable {l l' : Level} {params Γ : List String}

theorem Le.refl (l : Level) : l.Le l := by
  cases l
  · trivial
  · exact List.Subset.refl _

theorem Le.under (h : l.Le l') : (l.under params).Le (l'.under params) := by
  cases l <;> cases l' <;> try trivial
  exact List.append_subset.2 ⟨List.subset_append_left _ _, List.subset_append_of_subset_right _ h⟩

theorem Le.rows (h : l.Le l') : l.rows.Le l'.rows := by
  cases l <;> cases l'
  · exact List.Subset.refl _
  · exact List.nil_subset _
  · cases h
  · exact h

theorem Le.isSome (h : l.Le l') (hl : l.isSome = true) : l'.isSome = true := by
  cases l <;> cases l' <;> first | rfl | exact h.elim | cases hl

/-- The parameters of the first level are in view of the second one, but for `x`, for which `d` is put. It is
a parameter if paths may start at `x`. -/
def Puts (x : String) (d : Expr) : Level → Level → Prop
  | none, none => True
  | some Γ, some Δ => (∀ y ∈ Γ, y ≠ x → y ∈ Δ) ∧ (x ∈ Γ → ∃ y ∈ Δ, d = .param y)
  | _, _ => False

namespace Puts

variable {x : String} {d : Expr}

theorem under (h : Puts x d l l') (hx : x ∉ params) : Puts x d (l.under params) (l'.under params) := by
  cases l <;> cases l' <;> try cases h
  · trivial
  · next keeps new =>
    refine ⟨fun y hy hne => ?_, fun hmem => ?_⟩
    · exact (List.mem_append.1 hy).elim (List.mem_append_left _) fun hy => List.mem_append_right _ (keeps y hy hne)
    · obtain ⟨y, hy, rfl⟩ := new ((List.mem_append.1 hmem).resolve_left hx)
      exact ⟨y, List.mem_append_right _ hy, rfl⟩

/-- Under a binder of `x` nothing is put for it. -/
theorem under_of_mem (h : Puts x d l l') (hx : x ∈ params) : (l.under params).Le (l'.under params) := by
  cases l <;> cases l' <;> try cases h
  · trivial
  · next keeps new =>
    refine List.append_subset.2 ⟨List.subset_append_left _ _, fun y hy => ?_⟩
    by_cases hyx : y = x
    · exact List.mem_append_left _ (hyx ▸ hx)
    · exact List.mem_append_right _ (keeps y hy hyx)

theorem rows (h : Puts x d l l') : Puts x d l.rows l'.rows := by
  cases l <;> cases l' <;> try cases h
  · exact ⟨nofun, nofun⟩
  · next keeps new => exact ⟨keeps, new⟩

theorem isSome (h : Puts x d l l') (hl : l.isSome = true) : l'.isSome = true := by
  cases l <;> cases l' <;> first | rfl | exact h.elim | cases hl

/-- A parameter of a lambda gets another name. -/
theorem rename (hx : x ∈ params) (body : Expr) (name : String) :
    Puts x (.param name) (some (params ++ Γ)) (some ((Lambda.rename ⟨params, body⟩ x name).params ++ Γ)) := by
  refine ⟨fun y hy hne => ?_, fun _ => ⟨name, ?_, rfl⟩⟩
  · rcases List.mem_append.1 hy with hy | hy
    · exact List.mem_append_left _ (List.mem_map.2 ⟨y, hy, if_neg hne⟩)
    · exact List.mem_append_right _ hy
  · exact List.mem_append_left _ (List.mem_map.2 ⟨x, hx, if_pos rfl⟩)

end Puts

end Level

/-- The catalog declares the navigation, and it leads to a collection. -/
def Catalog.declaresCollection (C : Catalog) (owner navigation : String) : Bool :=
  (C.navigation? owner navigation).any (·.isCollection)

namespace Expr

variable {C : Catalog} {l l' : Level} {Γ Δ : List String} {e e' c : Expr} {x y : String}

/-- The parameter at which a member chain starts. -/
def pathRoot? : Expr → Option String
  | .param x => some x
  | .member t _ => t.pathRoot?
  | _ => none

/-- A parameter with any number of members after it. -/
def isRowPath (e : Expr) : Bool := e.pathRoot?.isSome

/-- A chain of operators over the filter that stands for a declared collection. -/
def isCollectionQuery (C : Catalog) (e : Expr) : Bool :=
  e.navigationFilter?.any fun (filter, _) => C.declaresCollection filter.owner filter.navigation

/-- A call that does not stand for a collection itself is such a query if its source is one. -/
theorem isCollectionQuery_call {operator : Operator} {source : Expr} {rest : List Expr}
    {note : Option CallNote} (other : ∀ owner navigation, note ≠ some (.collection owner navigation)) :
    (call operator (source :: rest) note).isCollectionQuery C = source.isCollectionQuery C := by
  rw [isCollectionQuery, navigationFilter?.eq_def]
  split
  · next heq =>
    cases heq
    exact absurd rfl (other _ _)
  · next heq =>
    cases heq
    rw [Option.any_map]
    rfl
  · next none => exact (none _ _ _ _ rfl).elim

/-- The query over the rows of a stream is one if these are. -/
theorem isCollectionQuery_query (frame : StreamFrame) (rows : Expr) (selector? : Option Expr) :
    (frame.query rows selector?).isCollectionQuery C = rows.isCollectionQuery C := by
  have on {operator : Operator} {source : Expr} {rest : List Expr} :
      (call operator (source :: rest) none).isCollectionQuery C = source.isCollectionQuery C :=
    isCollectionQuery_call nofun
  unfold StreamFrame.query
  cases selector? <;> cases frame.cardinality <;> simp [on]

theorem pathRoot?_readPath (x : String) (path : List String) : (readPath x path).pathRoot? = some x := by
  suffices ∀ e : Expr, e.pathRoot? = some x → (path.foldl Expr.member e).pathRoot? = some x from
    this _ rfl
  induction path with
  | nil => exact fun _ h => h
  | cons name path ih => exact fun e h => ih _ h

/-- The forms that a guard may have at a level. -/
inductive IsGuard (C : Catalog) : Level → Expr → Prop
  | ref {l : Level} (r : RowRef) : IsGuard C l (.rowRef r)
  | collection {arguments : List Expr} {owner navigation : String}
    (declared : C.declaresCollection owner navigation = true) :
    IsGuard C none (.call .filter arguments (some (.collection owner navigation)))
  | stream {l : Level} {rows selector : Expr} {frame : StreamFrame} (h : rows.isCollectionQuery C = true) :
    IsGuard C l (.stream rows selector frame)
  | path {Γ : List String} {x : String} {e : Expr} (h : e.pathRoot? = some x) (hx : x ∈ Γ) :
    IsGuard C (some Γ) e
  | query {Γ : List String} {e : Expr} (h : e.isCollectionQuery C = true) : IsGuard C (some Γ) e

/-- The node can be a guard at some level. -/
def canGuard : Expr → Bool
  | .rowRef _ | .stream .. | .call .. => true
  | e => e.isRowPath

theorem canGuard_of_isRowPath (h : e.isRowPath = true) : e.canGuard = true := by
  cases e <;> first | exact h | cases h

theorem canGuard_of_isCollectionQuery (h : e.isCollectionQuery C = true) : e.canGuard = true := by
  cases e <;> first | rfl | cases h

theorem IsGuard.canGuard (h : IsGuard C l e) : e.canGuard = true := by
  cases h with
  | ref | collection | stream => rfl
  | path h => exact canGuard_of_isRowPath (Option.isSome_iff_exists.2 ⟨_, h⟩)
  | query h => exact canGuard_of_isCollectionQuery h

theorem IsGuard.mono (h : IsGuard C l e) (hle : l.Le l') : IsGuard C l' e := by
  cases h with
  | ref r => exact .ref r
  | collection declared =>
    cases l' with
    | none => exact .collection declared
    | some Γ => exact .query declared
  | stream h => exact .stream h
  | path h hx =>
    cases l' with
    | none => cases hle
    | some Δ => exact .path h (hle hx)
  | query h =>
    cases l' with
    | none => cases hle
    | some Δ => exact .query h

/-- All guards are of a form that their level allows. -/
inductive Guarded (C : Catalog) : Level → Expr → Prop
  | node {l : Level} {e : Expr} (even : e.isEven = true) (parts : ∀ c ∈ e.children, Guarded C l c) :
    Guarded C l e
  | lambda {l : Level} {params : List String} {body : Expr} (h : Guarded C (l.under params) body) :
    Guarded C l (.lambda params body)
  | stream {l : Level} {rows selector : Expr} {frame : StreamFrame} (hrows : Guarded C l.rows rows)
    (hselector : Guarded C none selector) : Guarded C l (.stream rows selector frame)
  | nullSafeEqual {l : Level} {guards : List Expr} {a b : Expr} (forms : ∀ g ∈ guards, IsGuard C l g)
    (parts : ∀ g ∈ guards, Guarded C l g) (ha : Guarded C l a) (hb : Guarded C l b) :
    Guarded C l (.nullSafeEqual guards a b)

theorem guarded_iff (even : e.isEven = true) : e.Guarded C l ↔ ∀ c ∈ e.children, c.Guarded C l := by
  refine ⟨fun h => ?_, .node even⟩
  cases h with
  | node _ parts => exact parts
  | _ => cases even

section Heads

variable {a b : Expr} {items : List Expr} {params : List String}

@[simp] theorem guarded_entitySet (entity : String) : (entitySet entity).Guarded C l := .node rfl nofun

@[simp] theorem guarded_const (value : Literal) : (const value).Guarded C l := .node rfl nofun

@[simp] theorem guarded_param (x : String) : (param x).Guarded C l := .node rfl nofun

@[simp] theorem guarded_rowRef (r : RowRef) : (rowRef r).Guarded C l := .node rfl nofun

@[simp] theorem guarded_member {name : String} : (member a name).Guarded C l ↔ a.Guarded C l :=
  (guarded_iff rfl).trans (by simp [children])

@[simp] theorem guarded_binary {op : BinaryOp} :
    (binary op a b).Guarded C l ↔ a.Guarded C l ∧ b.Guarded C l :=
  (guarded_iff rfl).trans (by simp [children])

@[simp] theorem guarded_record {fields : List (String × Expr)} :
    (record fields).Guarded C l ↔ ∀ a ∈ fields.map (·.2), a.Guarded C l := guarded_iff rfl

@[simp] theorem guarded_tuple : (tuple items).Guarded C l ↔ ∀ a ∈ items, a.Guarded C l := guarded_iff rfl

@[simp] theorem guarded_function {name : String} :
    (function name items).Guarded C l ↔ ∀ a ∈ items, a.Guarded C l := guarded_iff rfl

@[simp] theorem guarded_call {operator : Operator} {note : Option CallNote} :
    (call operator items note).Guarded C l ↔ ∀ a ∈ items, a.Guarded C l := guarded_iff rfl

@[simp] theorem guarded_entityShape {entity : String} : (entityShape entity a).Guarded C l ↔ a.Guarded C l :=
  (guarded_iff rfl).trans (by simp [children])

@[simp] theorem guarded_lambda : (lambda params a).Guarded C l ↔ a.Guarded C (l.under params) := by
  refine ⟨fun h => ?_, .lambda⟩
  cases h with
  | node even => cases even
  | lambda h => exact h

@[simp] theorem guarded_stream {frame : StreamFrame} :
    (stream a b frame).Guarded C l ↔ a.Guarded C l.rows ∧ b.Guarded C none := by
  refine ⟨fun h => ?_, fun h => .stream h.1 h.2⟩
  cases h with
  | node even => cases even
  | stream ha hb => exact ⟨ha, hb⟩

@[simp] theorem guarded_nullSafeEqual {guards : List Expr} : (nullSafeEqual guards a b).Guarded C l ↔
    (∀ g ∈ guards, IsGuard C l g ∧ g.Guarded C l) ∧ a.Guarded C l ∧ b.Guarded C l := by
  refine ⟨fun h => ?_, fun h => .nullSafeEqual (fun g hg => (h.1 g hg).1) (fun g hg => (h.1 g hg).2)
    h.2.1 h.2.2⟩
  cases h with
  | node even => cases even
  | nullSafeEqual forms parts ha hb => exact ⟨fun g hg => ⟨forms g hg, parts g hg⟩, ha, hb⟩

end Heads

theorem Guarded.mono (h : e.Guarded C l) (hle : l.Le l') : e.Guarded C l' := by
  induction h generalizing l' with
  | node even _ ih => exact .node even fun c hc => ih c hc hle
  | lambda _ ih => exact .lambda (ih hle.under)
  | stream _ _ ihr ihs => exact .stream (ihr hle.rows) (ihs (.refl _))
  | nullSafeEqual forms _ _ _ ih iha ihb =>
    exact .nullSafeEqual (fun g hg => (forms g hg).mono hle) (fun g hg => ih g hg hle) (iha hle) (ihb hle)

/-- What stands outside of rows may be put anywhere. -/
theorem Guarded.anywhere (h : e.Guarded C none) : e.Guarded C l := h.mono trivial

/-- A scalar expression has no guards besides those of its operands but references. -/
theorem Over.guarded {operand : Expr → Prop} (h : e.Over operand) (k : ∀ d, operand d → d.Guarded C l) :
    e.Guarded C l := by
  induction h with
  | operand h => exact k _ h
  | nullSafeEqual refs _ _ _ ih iha ihb =>
    refine .nullSafeEqual (fun g hg => ?_) ih iha ihb
    obtain ⟨r, rfl⟩ := refs g hg
    exact .ref r
  | cond _ _ _ iha ihb ihc => exact .node rfl (by simp [children, iha, ihb, ihc])
  | tuple _ ih => exact guarded_tuple.2 ih
  | convert _ _ _ ih => exact .node rfl (by simpa [children] using ih)
  | _ => simp_all

theorem guarded_readPath (x : String) (path : List String) : (readPath x path).Guarded C l :=
  have built : (readPath x path).Over (· = .param x) := .readPath x path rfl
  built.guarded fun _ hd => hd ▸ guarded_param x

section SameHead

variable {R : Expr → Expr → Prop}

theorem SameHead.isEven (h : SameHead R e e') : e'.isEven = e.isEven := by
  cases h <;> rfl

/-- If paths are left as they are among the parts, a path is. -/
theorem SameHead.pathRoot? (h : SameHead R e e') (paths : ∀ {c c'}, R c c' → c.isRowPath = true → c' = c)
    (he : e.isRowPath = true) : e' = e := by
  cases h with
  | param x => rfl
  | member name h => rw [paths h he]
  | _ => cases he

/-- If collection queries stay collection queries among the parts, a query does. -/
theorem SameHead.isCollectionQuery (h : SameHead R e e')
    (queries : ∀ {c c'}, R c c' → c.isCollectionQuery C = true → c'.isCollectionQuery C = true)
    (he : e.isCollectionQuery C = true) : e'.isCollectionQuery C = true := by
  cases h with
  | call operator note h =>
    by_cases noted : ∃ owner navigation, note = some (.collection owner navigation)
    · obtain ⟨owner, navigation, rfl⟩ := noted
      exact he
    · cases h with
      | nil => exact he
      | cons h _ =>
        have other : ∀ owner navigation, note ≠ some (.collection owner navigation) :=
          fun owner navigation heq => noted ⟨owner, navigation, heq⟩
        rw [isCollectionQuery_call other] at he ⊢
        exact queries h he
  | _ => cases he

/-- A guard with parts that stay what they are is a guard. -/
theorem SameHead.isGuard (h : SameHead R e e') (paths : ∀ {c c'}, R c c' → c.isRowPath = true → c' = c)
    (queries : ∀ {c c'}, R c c' → c.isCollectionQuery C = true → c'.isCollectionQuery C = true)
    (he : IsGuard C l e) : IsGuard C l e' := by
  cases he with
  | ref r =>
    cases h
    exact .ref r
  | collection declared =>
    cases h
    exact .collection declared
  | stream hrows =>
    cases h with
    | stream frame hr _ => exact .stream (queries hr hrows)
  | path hroot hx =>
    rw [h.pathRoot? paths (by rw [isRowPath, hroot]; rfl)]
    exact .path hroot hx
  | query hquery => exact .query (h.isCollectionQuery queries hquery)

/-- Parts that keep their guards make a node that keeps its guards. Where parts stand at a level of their
own, they are looked at for themselves. -/
theorem Guarded.of_sameHead (h : e.Guarded C l) (head : SameHead R e e')
    (forms : ∀ {c c'}, R c c' → IsGuard C l c → IsGuard C l' c')
    (parts : ∀ {c c'}, R c c' → c.Guarded C l → c'.Guarded C l')
    (lambdas : ∀ {params body body'}, e = .lambda params body → R body body' →
      body.Guarded C (l.under params) → body'.Guarded C (l'.under params))
    (streams : ∀ {rows selector rows' selector' frame}, e = .stream rows selector frame →
      R rows rows' → R selector selector' → rows.Guarded C l.rows → selector.Guarded C none →
      rows'.Guarded C l'.rows ∧ selector'.Guarded C none) : e'.Guarded C l' := by
  cases h with
  | node even each =>
    refine .node (head.isEven.trans even) fun c' hc' => ?_
    obtain ⟨c, hc, hR⟩ := head.of_mem_children hc'
    exact parts hR (each c hc)
  | lambda h =>
    cases head with
    | lambda params hR => exact .lambda (lambdas rfl hR h)
  | stream hrows hselector =>
    cases head with
    | stream frame hr hs => exact guarded_stream.2 (streams rfl hr hs hrows hselector)
  | nullSafeEqual hforms hguards ha hb =>
    cases head with
    | nullSafeEqual h hRa hRb =>
      refine .nullSafeEqual (fun g' hg' => ?_) (fun g' hg' => ?_) (parts hRa ha) (parts hRb hb)
      all_goals obtain ⟨g, hg, hR⟩ := exists_of_mem_right h hg'
      · exact forms hR (hforms g hg)
      · exact parts hR (hguards g hg)

end SameHead

section Substitution

variable {d : Expr}

theorem substitute_path (h : e.pathRoot? = some y) (hy : y ≠ x) : e.substitute x d = e := by
  induction e using children_induction with
  | step e ih =>
    cases e with
    | param z =>
      cases h
      rw [substitute_param, if_neg hy]
    | member t name =>
      rw [substitute_of_none rfl]
      exact congrArg (Expr.member · name) (ih t (.head _) h)
    | _ => cases h

theorem pathRoot?_substitute (h : e.pathRoot? = some x) :
    (e.substitute x (.param y)).pathRoot? = some y := by
  induction e using children_induction with
  | step e ih =>
    cases e with
    | param z =>
      cases h
      rw [substitute_param, if_pos rfl]
      rfl
    | member t name =>
      rw [substitute_of_none rfl]
      exact ih t (.head _) h
    | _ => cases h

theorem isCollectionQuery_substitute (h : e.isCollectionQuery C = true) :
    (e.substitute x d).isCollectionQuery C = true := by
  induction e using children_induction with
  | step e ih =>
    cases e with
    | call operator arguments note =>
      rw [substitute_of_none rfl]
      refine (SameHead.of_map _ _).isCollectionQuery ?_ h
      rintro c _ ⟨hc, rfl⟩
      exact ih c hc
    | _ => cases h

theorem IsGuard.substitute (h : IsGuard C l e) (hl : Level.Puts x d l l') : IsGuard C l' (e.substitute x d) := by
  cases h with
  | ref r => exact .ref r
  | collection declared =>
    rw [substitute_of_none rfl]
    cases l' with
    | none => exact .collection declared
    | some Γ => exact .query declared
  | stream h =>
    rw [substitute_of_none rfl]
    exact .stream (isCollectionQuery_substitute h)
  | @path Γ z _ h hz =>
    cases l' with
    | none => cases hl
    | some Δ =>
      by_cases hzx : z = x
      · subst hzx
        obtain ⟨y, hy, rfl⟩ := hl.2 hz
        exact .path (pathRoot?_substitute h) hy
      · rw [substitute_path h hzx]
        exact .path h (hl.1 z hz hzx)
  | query h =>
    cases l' with
    | none => cases hl
    | some Δ => exact .query (isCollectionQuery_substitute h)

/-- An expression stays guarded when something is put for a parameter: what has no paths for guards, or, where
paths start at the parameter, a parameter. -/
theorem Guarded.put (h : e.Guarded C l) (hl : Level.Puts x d l l') (hd : d.Guarded C none) :
    (e.substitute x d).Guarded C l' := by
  induction e using children_induction generalizing l l' with
  | step e ih =>
    cases e with
    | param y =>
      rw [substitute_param]
      split
      · exact hd.anywhere
      · exact guarded_param y
    | lambda params body =>
      rw [substitute_lambda]
      have hbody := guarded_lambda.1 h
      split
      · next hx => exact guarded_lambda.2 (hbody.mono (hl.under_of_mem hx))
      · next hx => exact guarded_lambda.2 (ih body (.head _) hbody (hl.under hx))
    | _ =>
      rw [substitute_of_none rfl]
      refine h.of_sameHead (SameHead.of_map _ _) ?_ ?_ nofun ?_
      · rintro c _ ⟨-, rfl⟩ hform
        exact hform.substitute hl
      · rintro c _ ⟨hc, rfl⟩ hguarded
        exact ih c hc hguarded hl
      · rintro rows selector _ _ frame - ⟨hr, rfl⟩ ⟨hs, rfl⟩ hrows hselector
        exact ⟨ih rows hr hrows hl.rows, ih selector hs hselector trivial⟩

theorem Guarded.substitute (h : e.Guarded C none) (hd : d.Guarded C none) : (e.substitute x d).Guarded C none :=
  h.put trivial hd

end Substitution

/-- What is made of the first expression: its guards are of the same forms, and it can guard what the first
expression can. -/
structure KeepsGuards (C : Catalog) (e e' : Expr) : Prop where
  guarded {l : Level} : e.Guarded C l → e'.Guarded C l
  form {l : Level} : IsGuard C l e → IsGuard C l e'
  path : e.isRowPath = true → e' = e
  query : e.isCollectionQuery C = true → e'.isCollectionQuery C = true

namespace KeepsGuards

theorem refl (e : Expr) : KeepsGuards C e e := ⟨id, id, fun _ => rfl, id⟩

theorem trans {e'' : Expr} (h : KeepsGuards C e e') (k : KeepsGuards C e' e'') : KeepsGuards C e e'' where
  guarded he := k.guarded (h.guarded he)
  form he := k.form (h.form he)
  path he := by
    have heq := h.path he
    rw [heq] at k
    exact (k.path he).trans rfl
  query he := k.query (h.query he)

theorem of_sameHead (h : SameHead (KeepsGuards C) e e') : KeepsGuards C e e' where
  guarded he := he.of_sameHead h (fun hc => hc.form) (fun hc => hc.guarded) (fun _ hbody => hbody.guarded)
    fun _ hr hs hrows hselector => ⟨hr.guarded hrows, hs.guarded hselector⟩
  form he := h.isGuard (fun hc => hc.path) (fun hc => hc.query) he
  path := h.pathRoot? fun hc => hc.path
  query := h.isCollectionQuery fun hc => hc.query

/-- Of a node that can be no guard itself only the guards in it are looked at. -/
theorem of_guarded (h : ∀ {l : Level}, e.Guarded C l → e'.Guarded C l) (none : e.canGuard = false) :
    KeepsGuards C e e' where
  guarded := h
  form hform := by
    rw [hform.canGuard] at none
    cases none
  path hpath := by
    rw [canGuard_of_isRowPath hpath] at none
    cases none
  query hquery := by
    rw [canGuard_of_isCollectionQuery hquery] at none
    cases none

end KeepsGuards

end Expr

variable {M : Model} {C : Catalog} {p p' : Progress} {l : Level} {e e' : Expr}

section Walks

theorem rewrite_keepsGuards {act : Expr → Expansion Expr}
    (hact : ∀ {e p e' p'}, Runs (act e) M p e' p' → KeepsGuards C e e')
    (h : Runs (e.rewrite act) M p e' p') : KeepsGuards C e e' := by
  induction e using children_induction generalizing p e' p' with
  | step e ih =>
    rw [rewrite_eq, Runs.bind_iff] at h
    obtain ⟨e₁, q, hparts, h⟩ := h
    refine (KeepsGuards.of_sameHead ((Runs.mapChildren_sameHead hparts).mono ?_)).trans (hact h)
    rintro c c' ⟨hc, q, q', hrun⟩
    exact ih c hc hrun

end Walks

section Rewriting

variable {r : RowRef} {name : String}

theorem guarded_ref (f : Forest) (n : NodeId) : (f.ref n).Guarded C l := guarded_rowRef _

theorem bind_keepsGuards (h : Runs (bind e) M p e' p') : KeepsGuards C e e' := by
  refine rewrite_keepsGuards (fun {e p e' p'} h => ?_) h
  split at h
  · next t name =>
    unfold bindMember at h
    split at h
    · next fields =>
      obtain ⟨rfl, rfl⟩ := Runs.pure_iff.1 h
      refine .of_guarded (fun he => ?_) rfl
      cases hl : fields.lookup name with
      | none => exact he
      | some value =>
        obtain ⟨before, after, rfl, -⟩ := List.lookup_eq_some_iff.1 hl
        exact guarded_record.1 (guarded_member.1 he) value (by simp)
    · refine .of_guarded (fun he => ?_) rfl
      rcases Runs.bindRowMember_cases h with ⟨rfl, -⟩ | ⟨c, -, rfl, -⟩ |
        ⟨_, _, _, _, _, -, -, -, -, -, rfl⟩
      · exact he
      · exact guarded_ref _ _
      · exact guarded_ref _ _
    · obtain ⟨rfl, rfl⟩ := Runs.pure_iff.1 h
      exact .refl _
  · obtain ⟨rfl, rfl⟩ := Runs.pure_iff.1 h
    exact .refl _

theorem compareByKeys_keepsGuards (h : Runs (compareByKeys e) M p e' p') : KeepsGuards C e e' := by
  refine rewrite_keepsGuards (fun {e p e' p'} h => ?_) h
  have sides {op a b} {l : Level} (h : Runs (compareSides op a b) M p e' p') (ha : a.Guarded C l)
      (hb : b.Guarded C l) : e'.Guarded C l := by
    have built : e'.Over (Guarded C l ·) := (compareSides_over h (.operand ha) (.operand hb)
      (fun _ _ r _ => guarded_rowRef r) fun _ _ => guarded_rowRef _).1
    exact built.guarded fun _ h => h
  split at h
  · split at h
    · refine .of_guarded (fun he => ?_) rfl
      obtain ⟨ha, hb⟩ := guarded_binary.1 he
      exact sides h ha hb
    · obtain ⟨rfl, rfl⟩ := Runs.pure_iff.1 h
      exact .refl _
  · refine .of_guarded (fun he => ?_) rfl
    have parts := guarded_function.1 he
    exact sides h (parts _ (.head _)) (parts _ (.tail _ (.head _)))
  · obtain ⟨rfl, rfl⟩ := Runs.pure_iff.1 h
    exact .refl _

/-- The filter of a collection can be a guard, and there is none in it. -/
theorem collectionFilter_guarded (hp : p.forest.Linked M.catalog)
    (many : (p.forest.node r.node).isCollection = true) (h : Runs (collectionFilter r) M p e p') :
    e.Guarded M.catalog l ∧ IsGuard M.catalog l e := by
  obtain ⟨edge, owner, element, ownerKey, elementKey, hedge, howner, rfl, -⟩ := Runs.collectionFilter_eq h
  obtain ⟨entity, hentity, hnavigation⟩ := hp.declared hedge howner
  constructor
  · have built : (membership (p.forest.ref owner) element ownerKey elementKey).Over
        (Guarded M.catalog (l.under [element]) ·) :=
      membership_over (.operand (guarded_ref _ _)) (guarded_param _)
    simpa using built.guarded fun _ h => h
  · refine (IsGuard.collection ?_).mono (l := none) trivial
    rw [Node.isCollection, hedge] at many
    rw [Catalog.declaresCollection, hentity, Option.getD_some, hnavigation]
    exact many

theorem filterCollections_keepsGuards (hp : p.forest.Linked M.catalog)
    (h : Runs (filterCollections e) M p e' p') : KeepsGuards M.catalog e e' := by
  rw [Runs.filterCollections_iff] at h
  refine Runs.descend_linked (fun _ _ hat => collectionAt_onward hat) (fun {e x q e' q'} hat hq keeps h => ?_)
    (fun _ head => .of_sameHead head) hp (.refl _) h
  obtain ⟨r, many, ⟨rfl, hfilter⟩ | ⟨name, filter, rfl, hfilter, rfl⟩⟩ := Runs.collectionAt hat h
  · have made {l} := collectionFilter_guarded (l := l) hq (keeps.isCollection many) hfilter
    exact ⟨fun _ => made.1, fun _ => made.2, by rintro ⟨⟩, by rintro ⟨⟩⟩
  · exact .of_guarded (fun _ => by
      simpa using (collectionFilter_guarded hq (keeps.isCollection many) hfilter).1) rfl

theorem rewriteBody_keepsGuards (hp : p.forest.Linked M.catalog) (h : Runs (rewriteBody e) M p e' p') :
    KeepsGuards M.catalog e e' := by
  obtain ⟨_, _, _, _, hbind, hq, hcompare, hq', hfilter⟩ := Runs.rewriteBody h hp
  exact (bind_keepsGuards hbind).trans
    ((compareByKeys_keepsGuards hcompare).trans (filterCollections_keepsGuards hq' hfilter))

end Rewriting

section Resolving

variable {s : RowScope} {f : Forest}

theorem isEven_of_isResolvedByParts (h : e.isResolvedByParts = true) : e.isEven = true := by
  cases e <;> first | rfl | cases h

/-- What an expression is resolved to over the rows of a stream. It is a guard if the expression is one, unless
it is a reference of the stream, which can be read as an entity. -/
structure ResolvesGuards (C : Catalog) (s : RowScope) (e e' : Expr) : Prop where
  guarded {Γ : List String} (hs : s.parameter ∈ Γ) : e.Guarded C (some Γ) → e'.Guarded C (some Γ)
  form {Γ : List String} (hs : s.parameter ∈ Γ) (other : ∀ r, e = .rowRef r → s.owns r = false) :
    IsGuard C (some Γ) e → IsGuard C (some Γ) e'
  path : e.isRowPath = true → e' = e
  query : e.isCollectionQuery C = true → e'.isCollectionQuery C = true

namespace ResolvesGuards

theorem refl (e : Expr) : ResolvesGuards C s e e := ⟨fun _ => id, fun _ _ => id, fun _ => rfl, id⟩

/-- Of a node that can be no guard itself only the guards in it are looked at. -/
theorem of_guarded (h : ∀ {Γ}, s.parameter ∈ Γ → e.Guarded C (some Γ) → e'.Guarded C (some Γ))
    (none : e.canGuard = false) : ResolvesGuards C s e e' where
  guarded := h
  form _ _ hform := by
    rw [hform.canGuard] at none
    cases none
  path hpath := by
    rw [canGuard_of_isRowPath hpath] at none
    cases none
  query hquery := by
    rw [canGuard_of_isCollectionQuery hquery] at none
    cases none

theorem of_sameHead (head : SameHead (ResolvesGuards C s) e e')
    (guarded : ∀ {Γ}, s.parameter ∈ Γ → e.Guarded C (some Γ) → e'.Guarded C (some Γ)) : ResolvesGuards C s e e' where
  guarded := guarded
  form _ _ := head.isGuard (fun h => h.path) (fun h => h.query)
  path := head.pathRoot? fun h => h.path
  query := head.isCollectionQuery fun h => h.query

/-- The rows of a stream in a query for them, with a selector or without one. -/
theorem stream {rows rows' selector : Expr} {frame : StreamFrame} {selector? : Option Expr}
    (hrows : ResolvesGuards C s rows rows')
    (hselector : ∀ d, selector? = some d → selector.Guarded C none →
      ∀ {Γ}, s.parameter ∈ Γ → d.Guarded C (some Γ)) :
    ResolvesGuards C s (.stream rows selector frame) (frame.query rows' selector?) where
  guarded hs he := by
    obtain ⟨hr, hsel⟩ := guarded_stream.1 he
    have hr := hrows.guarded hs hr
    unfold StreamFrame.query
    cases selector? with
    | none => dsimp only; split <;> simp [hr]
    | some d => dsimp only; split <;> simp [hr, hselector d rfl hsel hs]
  form _ _ he := by
    cases he with
    | stream h => exact .query ((isCollectionQuery_query ..).trans (hrows.query h))
    | path h => cases h
    | query h => cases h
  path := nofun
  query := nofun

end ResolvesGuards

theorem resolution_guarded (f : Forest) : Resolution f (ResolvesGuards C) where
  parts kind head := by
    have head := head.mono fun _ _ h => h.2
    have even := isEven_of_isResolvedByParts kind
    refine .of_sameHead head fun hs he => (guarded_iff (head.isEven.trans even)).2 fun c' hc' => ?_
    obtain ⟨c, hc, h⟩ := head.of_mem_children hc'
    exact h.guarded hs ((guarded_iff even).1 he c hc)
  kept _ := .refl _
  keptMember _ := .refl _
  row owns _ :=
    { guarded := fun _ _ => guarded_readPath _ _
      form := fun _ other => by
        rw [other _ rfl] at owns
        cases owns
      path := nofun
      query := nofun }
  entity owns _ :=
    { guarded := fun _ _ => guarded_entityShape.2 (guarded_readPath _ _)
      form := fun _ other => by
        rw [other _ rfl] at owns
        cases owns
      path := nofun
      query := nofun }
  property _ _ := .of_guarded (fun _ _ => guarded_member.2 (guarded_readPath _ _)) rfl
  guarded hguards hleft hright := by
    refine .of_guarded (fun {Γ} hs he => ?_) rfl
    obtain ⟨hg, ha, hb⟩ := guarded_nullSafeEqual.1 he
    refine guarded_nullSafeEqual.2 ⟨fun g' hg' => ?_, hleft.guarded hs ha, hright.guarded hs hb⟩
    obtain ⟨g, hmem, ⟨h, other⟩ | ⟨r, path, -, -, -, rfl⟩⟩ := exists_of_mem_right hguards hg'
    · exact ⟨h.form hs other (hg g hmem).1, h.guarded hs (hg g hmem).2⟩
    · exact ⟨.path (pathRoot?_readPath _ _) hs, guarded_readPath _ _⟩
  lambda _ hbody := .of_guarded (fun hs he =>
    guarded_lambda.2 (hbody.guarded (List.mem_append_right _ hs) (guarded_lambda.1 he))) rfl
  renamed := by
    intro s params body body' name captured hbody
    simp only [RowScope.capturedBy, Bool.and_eq_true, List.contains_iff_mem] at captured
    refine .of_guarded (fun {Γ} hs he => ?_) rfl
    refine guarded_lambda.2 (hbody.guarded (List.mem_append_right _ hs) ?_)
    exact (guarded_lambda.1 he).put (.rename captured.1 body name) (guarded_param name)
  projected := by
    intro s rows rows' selector body selector' frame hselector _ hrows again
    refine .stream hrows ?_
    rintro _ ⟨⟩ hsel Γ hs
    exact again.guarded hs (guarded_lambda.2 (hselector.guarded (.head _) hsel.anywhere))
  unprojected _ hrows := .stream hrows nofun

/-- Reducing is resolving over the scope that has no rows. -/
theorem reduction_guarded (f : Forest) : Reduction f (ResolvesGuards C) (ResolvesGuards C .outside) where
  parts kind head := by
    have head := head.mono fun _ _ h => h.2
    refine .of_sameHead head fun hs he => he.of_sameHead head (fun h => h.form hs fun _ _ => rfl)
      (fun h => h.guarded hs) (fun _ h => h.guarded (List.mem_append_right _ hs)) ?_
    rintro rows selector _ _ frame rfl
    cases kind
  projected hselector _ _ hrows := .stream hrows <| by
    rintro _ ⟨⟩ hsel Γ hs
    exact guarded_lambda.2 (hselector.guarded (.head _) hsel.anywhere)
  unprojected hrows := .stream hrows nofun

end Resolving

end EntityQuery
