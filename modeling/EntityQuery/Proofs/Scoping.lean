import EntityQuery.Proofs.Resolution
import EntityQuery.Proofs.Scalars
import EntityQuery.Proofs.Steps

/-!
# Parameters in view

`Expr.Scoped Γ e` says that every parameter that occurs free in `e` is one of `Γ`. An expression that
is scoped in this sense stays so when a part is replaced by a scoped one, and the value of an
expression whose parameters are all bound is never an unbound parameter.
-/

namespace EntityQuery.Expr

variable {e e' c : Expr} {Γ Δ : List String} {x : String}

/-- Every parameter that occurs free is in view. -/
def Scoped (Γ : List String) (e : Expr) : Prop := ∀ x ∈ e.freeParams, x ∈ Γ

@[simp] theorem scoped_param : (param x).Scoped Γ ↔ x ∈ Γ := by
  simp [Scoped, freeParams]

theorem scoped_iff (h : ∀ x, e ≠ .param x) :
    e.Scoped Γ ↔ ∀ c ∈ e.children, c.Scoped (e.binders ++ Γ) := by
  simp only [Scoped, freeParams_eq h, List.mem_filter, List.mem_flatMap, List.mem_append]
  constructor
  · intro h c hc x hx
    by_cases hb : x ∈ e.binders
    · exact .inl hb
    · exact .inr (h x ⟨⟨c, hc, hx⟩, by simpa using hb⟩)
  · rintro h x ⟨⟨c, hc, hx⟩, hb⟩
    exact (h c hc x hx).resolve_left (by simpa using hb)

section Heads

variable {a b : Expr} {items : List Expr} {params : List String}

@[simp] theorem scoped_entitySet (entity : String) : (entitySet entity).Scoped Γ := nofun

@[simp] theorem scoped_const (value : Literal) : (const value).Scoped Γ := nofun

@[simp] theorem scoped_rowRef (r : RowRef) : (rowRef r).Scoped Γ := nofun

@[simp] theorem scoped_member {name : String} : (member a name).Scoped Γ ↔ a.Scoped Γ := by
  simp [scoped_iff, children, binders]

@[simp] theorem scoped_binary {op : BinaryOp} :
    (binary op a b).Scoped Γ ↔ a.Scoped Γ ∧ b.Scoped Γ := by
  simp [scoped_iff, children, binders]

@[simp] theorem scoped_cond : (cond c a b).Scoped Γ ↔ c.Scoped Γ ∧ a.Scoped Γ ∧ b.Scoped Γ := by
  simp [scoped_iff, children, binders]

@[simp] theorem scoped_convert {t : ScalarType} {nullable : Bool} :
    (convert a t nullable).Scoped Γ ↔ a.Scoped Γ := by
  simp [scoped_iff, children, binders]

@[simp] theorem scoped_record {fields : List (String × Expr)} :
    (record fields).Scoped Γ ↔ ∀ a ∈ fields.map (·.2), a.Scoped Γ := by
  simp [scoped_iff, children, binders]

@[simp] theorem scoped_tuple : (tuple items).Scoped Γ ↔ ∀ a ∈ items, a.Scoped Γ := by
  simp [scoped_iff, children, binders]

@[simp] theorem scoped_function {name : String} :
    (function name items).Scoped Γ ↔ ∀ a ∈ items, a.Scoped Γ := by
  simp [scoped_iff, children, binders]

@[simp] theorem scoped_call {operator : Operator} {note : Option CallNote} :
    (call operator items note).Scoped Γ ↔ ∀ a ∈ items, a.Scoped Γ := by
  simp [scoped_iff, children, binders]

@[simp] theorem scoped_lambda : (lambda params a).Scoped Γ ↔ a.Scoped (params ++ Γ) := by
  simp [scoped_iff, children, binders]

@[simp] theorem scoped_stream {frame : StreamFrame} :
    (stream a b frame).Scoped Γ ↔ a.Scoped Γ ∧ b.Scoped Γ := by
  simp [scoped_iff, children, binders]

@[simp] theorem scoped_nullSafeEqual {guards : List Expr} :
    (nullSafeEqual guards a b).Scoped Γ ↔
      (∀ g ∈ guards, g.Scoped Γ) ∧ a.Scoped Γ ∧ b.Scoped Γ := by
  simp [scoped_iff, children, binders, or_imp, forall_and]

@[simp] theorem scoped_entityShape {entity : String} :
    (entityShape entity a).Scoped Γ ↔ a.Scoped Γ := by
  simp [scoped_iff, children, binders]

end Heads

theorem Over.scoped {operand : Expr → Prop} (h : e.Over operand) (k : ∀ d, operand d → d.Scoped Γ) :
    e.Scoped Γ := by
  induction h with
  | operand h => exact k _ h
  | nullSafeEqual _ _ _ _ ih iha ihb => exact scoped_nullSafeEqual.2 ⟨ih, iha, ihb⟩
  | _ => simp_all

theorem scoped_readPath {path : List String} (h : x ∈ Γ) : (readPath x path).Scoped Γ :=
  have built : (readPath x path).Over (· = .param x) := .readPath x path rfl
  built.scoped fun _ hd => hd ▸ scoped_param.2 h

namespace Scoped

theorem mono (h : e.Scoped Γ) (hsub : Γ ⊆ Δ) : e.Scoped Δ := fun x hx => hsub (h x hx)

/-- A node with replaced parts is scoped if they are, below whatever binders. -/
theorem of_sameHead {R : Expr → Expr → Prop} (h : e.Scoped Γ) (head : SameHead R e e')
    (own : ∀ x, e = .param x → x ∈ Δ)
    (step : ∀ {c c'} bound, R c c' → c.Scoped (bound ++ Γ) → c'.Scoped (bound ++ Δ)) :
    e'.Scoped Δ := by
  have hbinders : e'.binders = e.binders := by cases head <;> rfl
  by_cases he : ∃ x, e = .param x
  · obtain ⟨x, rfl⟩ := he
    cases head
    exact scoped_param.2 (own x rfl)
  · have he' : ∀ x, e' ≠ .param x := by
      rintro x rfl
      cases head
      exact he ⟨x, rfl⟩
    rw [scoped_iff fun x hx => he ⟨x, hx⟩] at h
    rw [scoped_iff he', hbinders]
    intro c' hc'
    obtain ⟨c, hc, hR⟩ := head.of_mem_children hc'
    exact step _ hR (h c hc)

/-- A parameter is no longer free once something is put for it. -/
theorem substitute {replacement : Expr} (h : e.Scoped (x :: Γ)) (hr : replacement.Scoped Γ) :
    (e.substitute x replacement).Scoped Γ := by
  induction e using children_induction generalizing Γ with
  | step e ih =>
    cases e with
    | param y =>
      rw [substitute_param]
      split
      · exact hr
      · next hy => exact scoped_param.2 ((List.mem_cons.1 (scoped_param.1 h)).resolve_left hy)
    | lambda params body =>
      rw [scoped_lambda] at h
      rw [substitute_lambda]
      split
      · next hx =>
        refine scoped_lambda.2 (h.mono fun y hy => ?_)
        rcases List.mem_append.1 hy with hy | hy
        · exact List.mem_append_left _ hy
        · rcases List.mem_cons.1 hy with rfl | hy
          · exact List.mem_append_left _ hx
          · exact List.mem_append_right _ hy
      · refine scoped_lambda.2 (ih body (.head _) (h.mono ?_) (hr.mono (List.subset_append_right _ _)))
        exact List.perm_middle.subset
    | _ =>
      rw [substitute_of_none rfl]
      refine h.of_sameHead (SameHead.of_map _ _) (by simp) ?_
      rintro c _ bound ⟨hc, rfl⟩ hscoped
      exact ih c hc (hscoped.mono List.perm_middle.subset) (hr.mono (List.subset_append_right _ _))

end Scoped

end EntityQuery.Expr

namespace EntityQuery

open EntityQuery.Expr

variable {M : Model} {p p' : Progress} {Γ : List String} {e e' : Expr}

/-- What a step makes of an expression reads only parameters in view of that expression. -/
def KeepsScope (M : Model) (f : Expr → Expansion Expr) : Prop :=
  ∀ {Γ e p e' p'}, Runs (f e) M p e' p' → e.Scoped Γ → e'.Scoped Γ

theorem Runs.mapChildren_scoped {f : Expr → Expansion Expr}
    (step : ∀ {c c' q q'} bound, c ∈ e.children → Runs (f c) M q c' q' →
      c.Scoped (bound ++ Γ) → c'.Scoped (bound ++ Γ))
    (h : Runs (e.mapChildren f) M p e' p') (he : e.Scoped Γ) : e'.Scoped Γ := by
  refine he.of_sameHead (Runs.mapChildren_sameHead h) (fun x hx => scoped_param.1 (hx ▸ he)) ?_
  rintro c c' bound ⟨hc, q, q', hrun⟩ hscoped
  exact step bound hc hrun hscoped

section Walks

theorem KeepsScope.rewrite {act : Expr → Expansion Expr} (hact : KeepsScope M act) :
    KeepsScope M (Expr.rewrite act) := by
  intro Γ e p e' p' h he
  induction e using children_induction generalizing Γ p e' p' with
  | step e ih =>
    rw [rewrite_eq, Runs.bind_iff] at h
    obtain ⟨e₁, q, hparts, h⟩ := h
    exact hact h (Runs.mapChildren_scoped (fun _ hc hrun hs => ih _ hc hrun hs) hparts he)

theorem KeepsScope.descend {act? : Expr → Option (Expansion Expr)}
    (hact : ∀ {e x Γ p e' p'}, act? e = some x → Runs x M p e' p' → e.Scoped Γ → e'.Scoped Γ) :
    KeepsScope M (Expr.descend act?) := by
  intro Γ e p e' p' h he
  induction e using children_induction generalizing Γ p e' p' with
  | step e ih =>
    rw [descend_eq] at h
    cases hat : act? e with
    | some x =>
      rw [hat] at h
      exact hact hat h he
    | none =>
      rw [hat] at h
      exact Runs.mapChildren_scoped (fun _ hc hrun hs => ih _ hc hrun hs) h he

end Walks

section Rewriting

variable {r : RowRef} {name : String}

theorem scoped_ref (f : Forest) (n : NodeId) : (f.ref n).Scoped Γ := scoped_rowRef _

theorem bindMember_scoped (h : Runs (bindMember e name) M p e' p') (he : e.Scoped Γ) : e'.Scoped Γ := by
  unfold bindMember at h
  split at h
  · next fields =>
    obtain ⟨rfl, rfl⟩ := Runs.pure_iff.1 h
    cases hl : fields.lookup name with
    | none => exact scoped_member.2 he
    | some value =>
      obtain ⟨before, after, rfl, -⟩ := List.lookup_eq_some_iff.1 hl
      exact scoped_record.1 he value (by simp)
  · rcases Runs.bindRowMember_cases h with ⟨rfl, -⟩ | ⟨c, -, rfl, -⟩ |
      ⟨_, _, _, _, _, -, -, -, -, -, rfl⟩
    · exact scoped_member.2 he
    · exact scoped_ref _ _
    · exact scoped_ref _ _
  · obtain ⟨rfl, rfl⟩ := Runs.pure_iff.1 h
    exact scoped_member.2 he

theorem bind_scoped : KeepsScope M bind := by
  refine KeepsScope.rewrite fun h he => ?_
  split at h
  · exact bindMember_scoped h (scoped_member.1 he)
  · obtain ⟨rfl, rfl⟩ := Runs.pure_iff.1 h
    exact he

theorem compareByKeys_scoped : KeepsScope M compareByKeys := by
  refine KeepsScope.rewrite fun {Γ} e p e' p' h he => ?_
  have sides {op a b} (h : Runs (compareSides op a b) M p e' p') (ha : a.Scoped Γ)
      (hb : b.Scoped Γ) : e'.Scoped Γ := by
    have built : e'.Over (Scoped Γ ·) := (compareSides_over h (.operand ha) (.operand hb)
      (fun _ _ r _ => scoped_rowRef r) fun _ _ => scoped_rowRef _).1
    exact built.scoped fun _ h => h
  split at h
  · obtain ⟨ha, hb⟩ := scoped_binary.1 he
    split at h
    · exact sides h ha hb
    · obtain ⟨rfl, rfl⟩ := Runs.pure_iff.1 h
      exact he
  · have parts := scoped_function.1 he
    exact sides h (parts _ (.head _)) (parts _ (.tail _ (.head _)))
  · obtain ⟨rfl, rfl⟩ := Runs.pure_iff.1 h
    exact he

theorem collectionFilter_scoped (h : Runs (collectionFilter r) M p e p') : e.Scoped Γ := by
  obtain ⟨edge, owner, element, ownerKey, elementKey, -, -, rfl, -⟩ :=
    Runs.collectionFilter_eq h
  have built : (membership (p.forest.ref owner) element ownerKey elementKey).Over
      (Scoped ([element] ++ Γ) ·) :=
    membership_over (.operand (scoped_ref _ _)) (scoped_param.2 (by simp))
  simpa using built.scoped fun _ h => h

theorem filterCollections_scoped : KeepsScope M filterCollections := by
  intro Γ e p e' p' h he
  rw [Runs.filterCollections_iff] at h
  refine KeepsScope.descend (fun hat h he => ?_) h he
  obtain ⟨r, -, ⟨-, hfilter⟩ | ⟨_, _, -, hfilter, rfl⟩⟩ := Runs.collectionAt hat h
  · exact collectionFilter_scoped hfilter
  · simpa using collectionFilter_scoped hfilter

theorem rewriteBody_scoped : KeepsScope M rewriteBody := by
  intro Γ e p e' p' h he
  simp only [rewriteBody, Runs.bind_iff] at h
  obtain ⟨e₁, q, hbind, e₂, q', hcompare, hfilter⟩ := h
  exact filterCollections_scoped hfilter (compareByKeys_scoped hcompare (bind_scoped hbind he))

end Rewriting

section Resolving

/-- A lambda may be renamed before the row's parameter is put into it. -/
theorem Lambda.rename_scoped {l : Lambda} {old : String} (new : String) (hmem : old ∈ l.params)
    (h : l.toExpr.Scoped Γ) : (l.rename old new).toExpr.Scoped Γ := by
  refine scoped_lambda.2 (Scoped.substitute ((scoped_lambda.1 h).mono fun x hx => ?_)
    (scoped_param.2 (List.mem_append_left _ (List.mem_map.2 ⟨old, hmem, if_pos rfl⟩))))
  rcases List.mem_append.1 hx with hx | hx
  · by_cases hold : x = old
    · exact hold ▸ .head _
    · exact .tail _ (List.mem_append_left _ (List.mem_map.2 ⟨x, hx, if_neg hold⟩))
  · exact .tail _ (List.mem_append_right _ hx)

theorem scoped_query {frame : StreamFrame} {rows : Expr} {selector? : Option Expr}
    (hrows : rows.Scoped Γ) (hselector : ∀ selector, selector? = some selector → selector.Scoped Γ) :
    (frame.query rows selector?).Scoped Γ := by
  unfold StreamFrame.query
  cases selector? with
  | none => dsimp only; split <;> simp [hrows]
  | some selector => dsimp only; split <;> simp [hrows, hselector]

/-- Resolving adds no parameter but the one that stands for the row. -/
theorem resolution_scoped (f : Forest) : Resolution f fun s e e' =>
    ∀ Γ, s.parameter ∈ Γ → e.Scoped Γ → e'.Scoped Γ where
  parts _ head Γ hs he := he.of_sameHead head (fun x hx => scoped_param.1 (hx ▸ he))
    fun _ ⟨_, h⟩ hc => h _ (List.mem_append_right _ hs) hc
  kept _ Γ _ he := he
  keptMember _ Γ _ he := he
  row _ _ Γ hs _ := scoped_readPath hs
  entity _ _ Γ hs _ := scoped_entityShape.2 (scoped_readPath hs)
  property _ _ Γ hs _ := scoped_member.2 (scoped_readPath hs)
  guarded hguards hleft hright Γ hs he := by
    obtain ⟨hg, ha, hb⟩ := scoped_nullSafeEqual.1 he
    refine scoped_nullSafeEqual.2 ⟨fun g' hg' => ?_, hleft Γ hs ha, hright Γ hs hb⟩
    obtain ⟨g, hmem, ⟨h, -⟩ | ⟨r, path, -, -, -, rfl⟩⟩ := exists_of_mem_right hguards hg'
    · exact h Γ hs (hg g hmem)
    · exact scoped_readPath hs
  lambda _ hbody Γ hs he := scoped_lambda.2 (hbody _ (List.mem_append_right _ hs) (scoped_lambda.1 he))
  renamed hcaptured hbody Γ hs he := by
    simp only [RowScope.capturedBy, Bool.and_eq_true, List.contains_iff_mem] at hcaptured
    refine scoped_lambda.2 (hbody _ (List.mem_append_right _ hs) (scoped_lambda.1 ?_))
    exact Lambda.rename_scoped _ hcaptured.1 he
  projected := by
    intro s rows rows' selector body selector' frame hselector _ hrows again Γ hs he
    obtain ⟨hr, hsel⟩ := scoped_stream.1 he
    refine scoped_query (hrows Γ hs hr) ?_
    rintro _ ⟨⟩
    refine again Γ hs (scoped_lambda.2 ?_)
    exact hselector _ (.head _) (hsel.mono (List.subset_append_right _ _))
  unprojected _ hrows Γ hs he := scoped_query (hrows Γ hs (scoped_stream.1 he).1) nofun

end Resolving

end EntityQuery
