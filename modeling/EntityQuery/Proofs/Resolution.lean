import EntityQuery.Proofs.Resolving

/-!
# Induction over resolving

Resolving changes an expression in a few places: at references, at the guards of equalities, at
lambdas that would capture the row, and at streams, of which it leaves none. `Resolution f P` lists what has
to be shown there for `P` to hold between every expression and what it is resolved to over the forest `f`,
and `Resolution.resolve` is the induction.
-/

namespace EntityQuery

open EntityQuery.Expr

variable {M : Model} {p p' : Progress} {s : RowScope} {e e' : Expr}

/-- What makes `P` a property of resolving over a forest. -/
structure Resolution (f : Forest) (P : RowScope → Expr → Expr → Prop) : Prop where
  /-- The parts are resolved one by one. -/
  parts {s : RowScope} {e e' : Expr} (kind : e.isResolvedByParts = true)
    (head : SameHead (fun c c' => c ∈ e.children ∧ P s c c') e e') : P s e e'
  /-- The reference belongs to an enclosing query. -/
  kept {s : RowScope} {r : RowRef} (owns : s.owns r = false) : P s (.rowRef r) (.rowRef r)
  keptMember {s : RowScope} {r : RowRef} {name : String} (owns : s.owns r = false) :
    P s (.member (.rowRef r) name) (.member (.rowRef r) name)
  row {s : RowScope} {r : RowRef} {path : List String} (owns : s.owns r = true)
    (present : f.rowPath? r.node = some path) : P s (.rowRef r) (.readPath s.parameter path)
  entity {s : RowScope} {r : RowRef} {path : List String} {entity : String}
    (owns : s.owns r = true) (present : f.rowPath? r.node = some path) :
    P s (.rowRef r) (.entityShape entity (.readPath s.parameter path))
  property {s : RowScope} {r : RowRef} {path : List String} {name : String}
    (owns : s.owns r = true) (present : f.rowPath? r.node = some path) :
    P s (.member (.rowRef r) name) (.member (.readPath s.parameter path) name)
  /-- A guard is resolved like any expression, except that it is never read as an entity. -/
  guarded {s : RowScope} {guards guards' : List Expr} {a a' b b' : Expr}
    (hguards : List.Forall₂ (fun g g' => P s g g' ∧ (∀ r, g = .rowRef r → s.owns r = false) ∨
      ∃ r path, g = .rowRef r ∧ s.owns r = true ∧ f.rowPath? r.node = some path ∧
        g' = .readPath s.parameter path) guards guards')
    (hleft : P s a a') (hright : P s b b') :
    P s (.nullSafeEqual guards a b) (.nullSafeEqual guards' a' b')
  lambda {s : RowScope} {params : List String} {body body' : Expr}
    (free : s.capturedBy params body = false) (hbody : P s body body') :
    P s (.lambda params body) (.lambda params body')
  /-- A lambda that would capture the row is renamed first. -/
  renamed {s : RowScope} {params : List String} {body body' : Expr} {name : String}
    (captured : s.capturedBy params body = true)
    (hbody : P s (Lambda.rename ⟨params, body⟩ s.parameter name).body body') :
    P s (.lambda params body) (.lambda (Lambda.rename ⟨params, body⟩ s.parameter name).params body')
  /-- The selector of a stream is resolved over the stream, which leaves no stream in it, and then over the
  row around it. -/
  projected {s : RowScope} {rows rows' selector body selector' : Expr} {frame : StreamFrame}
    (hselector : P frame.scope selector body) (plain : body.hasStream = false) (hrows : P s rows rows')
    (again : P s (.lambda [frame.parameter] body) selector') :
    P s (.stream rows selector frame) (frame.query rows' (some selector'))
  /-- The selector returns the rows as they are. -/
  unprojected {s : RowScope} {rows rows' selector : Expr} {frame : StreamFrame}
    (returns : frame.returnsRow f selector = true) (hrows : P s rows rows') :
    P s (.stream rows selector frame) (frame.query rows' none)

namespace Resolution

variable {f : Forest} {P : RowScope → Expr → Expr → Prop}

/-- Every run over the forest that resolves the expression keeps the forest, leaves no stream, and relates
the two expressions. -/
def Relates (f : Forest) (P : RowScope → Expr → Expr → Prop) (again : RowScope → Expr → Expansion Expr)
    (M : Model) (e : Expr) : Prop :=
  ∀ s p e' p', p.forest = f → Runs (EntityQuery.resolveWith again s e) M p e' p' →
    p'.forest = f ∧ e'.hasStream = false ∧ P s e e'

variable {again : RowScope → Expr → Expansion Expr}

theorem of_parts (h : Resolution f P) (each : ∀ c ∈ e.children, Relates f P again M c)
    (hp : e.isResolvedByParts = true) : Relates f P again M e := by
  intro s p e' p' hf hrun
  rw [resolveWith_parts hp] at hrun
  obtain ⟨hle, head⟩ := Runs.mapChildren_within (fun p q => p.forest = f → q.forest = f)
    (fun _ h => h) (fun h k hp => k (h hp))
    (fun c hc q c' q' _ hrun hq => (each c hc _ _ _ _ hq hrun).1) hrun
  have resolved : SameHead (fun c c' => c ∈ e.children ∧ c'.hasStream = false ∧ P s c c') e e' := by
    refine head.mono ?_
    rintro c c' ⟨hc, q, q', hq, -, hrun⟩
    exact ⟨hc, (each c hc _ _ _ _ (hq hf) hrun).2⟩
  exact ⟨hle hf, (resolved.mono fun _ _ h => h.2.1).plain hp,
    h.parts hp (resolved.mono fun _ _ h => ⟨h.1, h.2.2⟩)⟩

theorem of_rowRef (h : Resolution f P) (r : RowRef) : Relates f P again M (.rowRef r) := by
  intro s p e' p' hf hrun
  rw [EntityQuery.resolveWith] at hrun
  split at hrun
  · next ho =>
    obtain ⟨path, hp, rfl, rfl | ⟨entity, rfl⟩⟩ := Runs.readRow hrun
    · exact ⟨hf, hasStream_readPath, h.row ho (hf ▸ hp)⟩
    · exact ⟨hf, hasStream_entityShape hasStream_readPath, h.entity ho (hf ▸ hp)⟩
  · next ho =>
    obtain ⟨rfl, rfl⟩ := Runs.pure_iff.1 hrun
    exact ⟨hf, rfl, h.kept (Bool.of_not_eq_true ho)⟩

theorem of_property (h : Resolution f P) (r : RowRef) (name : String) :
    Relates f P again M (.member (.rowRef r) name) := by
  intro s p e' p' hf hrun
  rw [EntityQuery.resolveWith] at hrun
  split at hrun
  · next ho =>
    obtain ⟨path, hp, rfl, rfl⟩ := Runs.readProperty hrun
    exact ⟨hf, hasStream_member hasStream_readPath, h.property ho (hf ▸ hp)⟩
  · next ho =>
    obtain ⟨rfl, rfl⟩ := Runs.pure_iff.1 hrun
    exact ⟨hf, rfl, h.keptMember (Bool.of_not_eq_true ho)⟩

theorem of_lambda (h : Resolution f P) {params : List String} {body : Expr}
    (hbody : Relates f P again M body)
    (renamed : ∀ old new, Relates f P again M (Lambda.rename ⟨params, body⟩ old new).body) :
    Relates f P again M (.lambda params body) := by
  intro s p e' p' hf hrun
  rw [EntityQuery.resolveWith] at hrun
  split at hrun
  · next hc =>
    simp only [Runs.bind_iff, Runs.freshName_iff, Runs.pure_iff] at hrun
    obtain ⟨name, _, ⟨-, rfl⟩, body', q, hbody, rfl, rfl⟩ := hrun
    obtain ⟨hq, plain, hP⟩ := renamed _ _ _ { p with names := p.names + 1 } _ _ hf hbody
    exact ⟨hq, hasStream_lambda plain, h.renamed hc hP⟩
  · next hc =>
    simp only [Runs.bind_iff, Runs.pure_iff] at hrun
    obtain ⟨body', q, hrun, rfl, rfl⟩ := hrun
    obtain ⟨hq, plain, hP⟩ := hbody _ _ _ _ hf hrun
    exact ⟨hq, hasStream_lambda plain, h.lambda (Bool.of_not_eq_true hc) hP⟩

theorem of_stream (h : Resolution f P) {rows selector : Expr} {frame : StreamFrame}
    (hrows : Relates f P again M rows) (hselector : Relates f P again M selector)
    (hagain : ∀ {s d p d' p'}, d.hasStream = false → p.forest = f →
      Runs (again s d) M p d' p' → p'.forest = f ∧ d'.hasStream = false ∧ P s d d') :
    Relates f P again M (.stream rows selector frame) := by
  intro s p e' p' hf hrun
  rw [EntityQuery.resolveWith] at hrun
  simp only [Runs.bind_iff, Runs.forest_iff] at hrun
  obtain ⟨_, _, ⟨rfl, rfl⟩, hrun⟩ := hrun
  split at hrun
  · simp only [Runs.bind_iff, Runs.pure_iff] at hrun
    obtain ⟨body, q₁, hbody, rows', q₂, hrun, selector', q₃, hlambda, rfl, rfl⟩ := hrun
    obtain ⟨h₁, plainBody, hbody⟩ := hselector _ _ _ _ hf hbody
    obtain ⟨h₂, plainRows, hrows⟩ := hrows _ _ _ _ h₁ hrun
    obtain ⟨h₃, plain, hlambda⟩ := hagain (hasStream_lambda plainBody) h₂ hlambda
    refine ⟨h₃, Resolved.query_plain _ plainRows ?_, h.projected hbody plainBody hrows hlambda⟩
    rintro _ ⟨⟩
    exact plain
  · next hproject =>
    simp only [Runs.bind_iff, Runs.pure_iff] at hrun
    obtain ⟨rows', q, hrun, rfl, rfl⟩ := hrun
    obtain ⟨hq, plain, hrows⟩ := hrows _ _ _ _ hf hrun
    simp only [StreamFrame.mustProject, Bool.or_eq_true, Bool.not_eq_true', not_or,
      Bool.not_eq_false, hf] at hproject
    exact ⟨hq, Resolved.query_plain _ plain (by rintro _ ⟨⟩), h.unprojected hproject.2 hrows⟩

/-- A guard that is a row of the scope is read where it is; any other one is resolved. -/
theorem Relates.guard {g g' : Expr} (hg : Relates f P again M g) (hf : p.forest = f)
    (hrun : Runs ((s.readGuard? g).getD (EntityQuery.resolveWith again s g)) M p g' p') :
    p'.forest = f ∧ g'.hasStream = false ∧ (P s g g' ∧ (∀ r, g = .rowRef r → s.owns r = false) ∨
      ∃ r path, g = .rowRef r ∧ s.owns r = true ∧ f.rowPath? r.node = some path ∧
        g' = .readPath s.parameter path) := by
  cases g with
  | rowRef r =>
    by_cases ho : s.owns r = true
    · simp only [RowScope.readGuard?, ho, if_true, Option.getD_some, Runs.path_iff] at hrun
      obtain ⟨path, hp, rfl, rfl⟩ := hrun
      exact ⟨hf, hasStream_readPath, .inr ⟨r, path, rfl, ho, hf ▸ hp, rfl⟩⟩
    · simp only [RowScope.readGuard?, ho] at hrun
      refine (hg _ _ _ _ hf hrun).imp_right fun h => ⟨h.1, .inl ⟨h.2, ?_⟩⟩
      rintro _ ⟨⟩
      exact Bool.of_not_eq_true ho
  | _ => exact (hg _ _ _ _ hf hrun).imp_right fun h => ⟨h.1, .inl ⟨h.2, by rintro _ ⟨⟩⟩⟩

theorem of_nullSafeEqual (h : Resolution f P) {guards : List Expr} {a b : Expr}
    (hguards : ∀ g ∈ guards, Relates f P again M g) (ha : Relates f P again M a)
    (hb : Relates f P again M b) : Relates f P again M (.nullSafeEqual guards a b) := by
  intro s p e' p' hf hrun
  rw [EntityQuery.resolveWith] at hrun
  simp only [Runs.bind_iff, mapItemsIn_eq, Runs.pure_iff] at hrun
  obtain ⟨guards', q₁, hg, a', q₂, hra, b', q₃, hrb, rfl, rfl⟩ := hrun
  obtain ⟨h₁, all⟩ := Runs.mapItems_within (fun p q => p.forest = f → q.forest = f)
    (fun _ h => h) (fun h k hp => k (h hp))
    (fun g hg q g' q' _ hrun hq => ((hguards g hg).guard hq hrun).1) hg
  obtain ⟨h₂, plainLeft, ha⟩ := ha _ _ _ _ (h₁ hf) hra
  obtain ⟨h₃, plainRight, hb⟩ := hb _ _ _ _ h₂ hrb
  have resolved : List.Forall₂ (fun g g' => g'.hasStream = false ∧
      (P s g g' ∧ (∀ r, g = .rowRef r → s.owns r = false) ∨
        ∃ r path, g = .rowRef r ∧ s.owns r = true ∧ f.rowPath? r.node = some path ∧
          g' = .readPath s.parameter path)) guards guards' := by
    refine all.imp ?_
    rintro g g' ⟨hg, q, q', hq, -, hrun⟩
    exact ((hguards g hg).guard (hq hf) hrun).2
  refine ⟨h₃, hasStream_nullSafeEqual (fun g' hg' => ?_) plainLeft plainRight,
    h.guarded (resolved.imp fun _ _ h => h.2) ha hb⟩
  obtain ⟨g, -, plain, -⟩ := exists_of_mem_right resolved hg'
  exact plain

/-- The induction. An expression without streams is resolved only once. -/
theorem resolveWith (h : Resolution f P) (n : Nat) (hsize : e.size ≤ n)
    (hagain : e.hasStream = true → ∀ {s d p d' p'}, d.hasStream = false → p.forest = f →
      Runs (again s d) M p d' p' → p'.forest = f ∧ d'.hasStream = false ∧ P s d d') :
    Relates f P again M e := by
  induction n generalizing e with
  | zero => cases e <;> simp [size] at hsize
  | succ n ih =>
    have part {c} (hc : c ∈ e.children) : Relates f P again M c := by
      refine ih ?_ fun hs => hagain (hasStream_of_child hc hs)
      have := size_lt_of_mem_children hc
      omega
    cases e with
    | rowRef r => exact h.of_rowRef r
    | member t name =>
      cases t with
      | rowRef r => exact h.of_property r name
      | _ => exact h.of_parts (fun c hc => part hc) rfl
    | lambda params body =>
      refine h.of_lambda (part (.head _)) fun old new => ih ?_ fun hs => hagain ?_
      · rw [Lambda.size_body_rename]
        exact Nat.le_of_succ_le_succ hsize
      · refine hasStream_of_child (.head _) (Bool.of_not_eq_false fun plain => ?_)
        rw [Lambda.rename, hasStream_substitute plain] at hs
        cases hs
    | stream rows selector frame =>
      exact h.of_stream (part (.head _)) (part (.tail _ (.head _)))
        (hagain (hasStream_iff.2 (.inl ⟨_, _, _, rfl⟩)))
    | nullSafeEqual guards a b =>
      exact h.of_nullSafeEqual (fun g hg => part (by simp [children, hg])) (part (by simp [children]))
        (part (by simp [children]))
    | _ => exact h.of_parts (fun c hc => part hc) rfl

/-- A run of resolving keeps the forest, leaves no stream, and relates the two expressions. -/
theorem resolve (h : Resolution f P) (hf : p.forest = f) (hrun : Runs (EntityQuery.resolve s e) M p e' p') :
    p'.forest = f ∧ e'.hasStream = false ∧ P s e e' := by
  refine h.resolveWith e.size (Nat.le_refl _) (fun _ _ d _ _ _ plain hf hrun => ?_) _ _ _ _ hf hrun
  refine h.resolveWith d.size (Nat.le_refl _) (fun stream => ?_) _ _ _ _ hf hrun
  rw [plain] at stream
  cases stream

/-- Several expressions are resolved one after the other. -/
theorem mapM_resolve (h : Resolution f P) {F : Expr → Expr} {es es' : List Expr} (hf : p.forest = f)
    (hrun : Runs (es.mapM fun e => EntityQuery.resolve s (F e)) M p es' p') :
    p'.forest = f ∧ List.Forall₂ (fun e e' => P s (F e) e') es es' := by
  induction es generalizing p es' with
  | nil =>
    obtain ⟨rfl, rfl⟩ := Runs.pure_iff.1 hrun
    exact ⟨hf, .nil⟩
  | cons e es ih =>
    simp only [List.mapM_cons, Runs.bind_iff, Runs.pure_iff] at hrun
    obtain ⟨e', q, he, es', q', hes, rfl, rfl⟩ := hrun
    obtain ⟨hq, -, first⟩ := h.resolve hf he
    obtain ⟨hq', rest⟩ := ih hq hes
    exact ⟨hq', .cons first rest⟩

end Resolution

/-- What makes `P` a property of reducing a query over a forest; `Q` is one of resolving. -/
structure Reduction (f : Forest) (Q : RowScope → Expr → Expr → Prop) (P : Expr → Expr → Prop) : Prop where
  parts {e e' : Expr} (kind : e.isReducedByParts = true)
    (head : SameHead (fun c c' => c ∈ e.children ∧ P c c') e e') : P e e'
  projected {rows rows' selector body : Expr} {frame : StreamFrame}
    (hselector : Q frame.scope selector body) (plain : body.hasStream = false) (closed : body.rowRefs = [])
    (hrows : P rows rows') :
    P (.stream rows selector frame) (frame.query rows' (some (.lambda [frame.parameter] body)))
  unprojected {rows rows' selector : Expr} {frame : StreamFrame} (hrows : P rows rows') :
    P (.stream rows selector frame) (frame.query rows' none)

/-- A run of reducing keeps the forest and relates the two expressions. -/
theorem Reduction.reduce {f : Forest} {Q : RowScope → Expr → Expr → Prop} {P : Expr → Expr → Prop}
    (h : Reduction f Q P) (hQ : Resolution f Q) (hf : p.forest = f)
    (hrun : Runs (EntityQuery.reduce e) M p e' p') : p'.forest = f ∧ P e e' := by
  induction e using children_induction generalizing p p' e' with
  | step e ih =>
    have byParts (hp : e.isReducedByParts = true) : p'.forest = f ∧ P e e' := by
      rw [reduce_parts hp] at hrun
      obtain ⟨hle, head⟩ := Runs.mapChildren_within (fun p q => p.forest = f → q.forest = f)
        (fun _ h => h) (fun h k hp => k (h hp))
        (fun c hc q c' q' _ hrun hq => (ih c hc hq hrun).1) hrun
      refine ⟨hle hf, h.parts hp (head.mono ?_)⟩
      rintro c c' ⟨hc, q, q', hq, -, hrun⟩
      exact ⟨hc, (ih c hc (hq hf) hrun).2⟩
    cases e with
    | rowRef r =>
      rw [EntityQuery.reduce] at hrun
      exact (Runs.throw_iff.1 hrun).elim
    | stream rows selector frame =>
      rw [EntityQuery.reduce] at hrun
      simp only [Runs.bind_iff, Runs.forest_iff] at hrun
      obtain ⟨_, _, ⟨rfl, rfl⟩, hrun⟩ := hrun
      split at hrun
      · simp only [Runs.bind_iff, Runs.pure_iff] at hrun
        obtain ⟨body, q₁, hbody, rows', q₂, hrows, _, _, hrefs, rfl, rfl⟩ := hrun
        obtain ⟨h₁, plain, hbody⟩ := hQ.resolve hf hbody
        obtain ⟨h₂, hrows⟩ := ih rows (.head _) h₁ hrows
        obtain ⟨hclosed, rfl⟩ := Runs.refuseRefs hrefs
        exact ⟨h₂, h.projected hbody plain hclosed hrows⟩
      · simp only [Runs.bind_iff, Runs.pure_iff] at hrun
        obtain ⟨rows', q, hrows, rfl, rfl⟩ := hrun
        obtain ⟨h₁, hrows⟩ := ih rows (.head _) hf hrows
        exact ⟨h₁, h.unprojected hrows⟩
    | _ => exact byParts rfl

/-- Nothing happens to a query that holds no streams. -/
theorem reduce_plain (hplain : e.hasStream = false) (h : Runs (reduce e) M p e' p') :
    e' = e ∧ p = p' := by
  induction e using children_induction generalizing p p' e' with
  | step e ih =>
    have hparts : e.isReducedByParts = true := by
      cases e with
      | rowRef r =>
        rw [reduce] at h
        exact (Runs.throw_iff.1 h).elim
      | stream rows selector frame =>
        exact absurd rfl ((hasStream_eq_false_iff.1 hplain).1 rows selector frame)
      | _ => rfl
    rw [reduce_parts hparts] at h
    have part {c : Expr} (hc : c ∈ e.children) {q q' : Progress} {c' : Expr}
        (h : Runs (reduce c) M q c' q') : c' = c ∧ q = q' :=
      ih c hc ((hasStream_eq_false_iff.1 hplain).2 c hc) h
    obtain ⟨rfl, head⟩ := Runs.mapChildren_within Eq (fun _ => rfl) Eq.trans
      (fun c hc q c' q' _ hrun => (part hc hrun).2) h
    refine ⟨(SameHead.eq (head.mono ?_)).symm, rfl⟩
    rintro c c' ⟨hc, q, q', -, -, hrun⟩
    exact (part hc hrun).1.symm

end EntityQuery
