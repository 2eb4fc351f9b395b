import EntityQuery.Expansion.Pipeline
import EntityQuery.Proofs.Bodies

/-!
# Queries in bodies

Once a body is bound and its collections are filters, every query in it is a chain of filters over a
set, or the total of one. Expanding them where they stand gives the whole body a meaning, if each of
them keeps its own (`ExpandsQueries`).
-/

namespace EntityQuery

open EntityQuery.Expr

/-- A ready query that has rows is a set or a filter. -/
theorem HasShape.rows_cases {S : Setting} {n : Bool} {e : Expr} {t : Shape}
    (h : HasShape S .ready n [] e (.rows t)) :
    (∃ entity type, e = .entitySet entity ∧ t = .entity entity ∧ S.catalog.type? entity = some type) ∨
      ∃ source x body note, e = .call .filter [source, .lambda [x] body] note ∧
        HasShape S .ready true [] source (.rows t) ∧ HasShape S .raw true [(x, t)] body .scalar ∧
        S.names x := by
  generalize hs : Shape.rows t = s at h
  cases h with
  | param h _ => cases h
  | ref _ _ _ hready =>
    have := hready rfl
    rw [← hs] at this
    cases this
  | set h =>
    cases hs
    exact .inl ⟨_, _, rfl, rfl, h⟩
  | navigation he _ _ hform =>
    have := (he.canonical (by simp)).1 _ rfl
    rw [hform (by simp)] at this
    cases this
  | field he _ hform =>
    have := (he.canonical (by simp)).2 _ rfl
    rw [hform (by simp)] at this
    cases this
  | filter note hsource hb hx =>
    cases hs
    exact .inr ⟨_, _, _, _, rfl, hsource, hb, hx⟩
  | _ => cases hs

/-- At the bottom of a ready query that has rows there is a set. -/
theorem HasShape.chainRoot_rows {S : Setting} {n : Bool} {e : Expr} {t : Shape}
    (h : HasShape S .ready n [] e (.rows t)) : ∃ entity, e.chainRoot = .entitySet entity := by
  induction e using children_induction generalizing n with
  | step e ih =>
    rcases h.rows_cases with ⟨entity, _, rfl, -⟩ | ⟨source, x, body, note, rfl, hsource, -⟩
    · exact ⟨entity, rfl⟩
    · exact ih source (.head _) hsource

section Expansion

variable {M : Model} {tables : Tables} {p p' : Progress} {opens : List SourceId} {first : Nat}
  {e e' : Expr} {value : OpenRows → Outcome Value} {recur : Recur}

/-- The expression is a stream over a new source whose rows are those of a query. -/
def Streams (c : Catalog) (tables : Tables) (first : Nat) (p : Progress) (opens : List SourceId)
    (e : Expr) (element : Shape) (value : OpenRows → Outcome Value) : Prop :=
  ∃ s m entity, e = s.toExpr ∧ first ≤ m.index ∧ s.selector = p.forest.ref (p.forest.root m) ∧
    Flows c tables p opens m entity s element value

theorem Streams.meaning {c : Catalog} {element : Shape} (hp : p.forest.Sound c)
    (h : Streams c tables first p opens e element value) :
    Meaning c tables first p opens e value := by
  obtain ⟨s, m, entity, rfl, hfirst, hsel, hflow⟩ := h
  refine hflow.meaning hfirst (fun r hr hm => ?_) hp
  rw [hsel, Forest.ref] at hr
  rcases mem_rowRefs_iff.1 hr with heq | ⟨_, hc, -⟩
  · obtain rfl := (Expr.rowRef.inj heq).symm
    exact hp.rowPath?_root hflow.range
  · cases hc

/-- The step expands ready queries over open rows: those with rows become streams over new sources,
and those that answer a scalar keep their meaning. -/
structure ExpandsQueries (M : Model) (tables : Tables) (recur : Recur) : Prop where
  rows : ∀ {p opens e element e' p'}, p.forest.Sound M.catalog →
    (∀ k ∈ opens, k.index < p.forest.sources.length) →
    HasShape (p.setting M.catalog opens) .ready true [] e (.rows element) →
    Runs (recur e) M p e' p' → Extends M.catalog p p' ∧
      Streams M.catalog tables p.forest.sources.length p' opens e' element
        fun o => e.denote M.catalog tables o [] []
  total : ∀ {p opens operator arguments note e' p'}, p.forest.Sound M.catalog →
    (∀ k ∈ opens, k.index < p.forest.sources.length) →
    HasShape (p.setting M.catalog opens) .ready true [] (.call operator arguments note) .scalar →
    Runs (recur (.call operator arguments note)) M p e' p' → Extends M.catalog p p' ∧
      Meaning M.catalog tables p.forest.sources.length p' opens e'
        fun o => (Expr.call operator arguments note).denote M.catalog tables o [] []

theorem Runs.expandSubqueries_call {operator : Operator} {arguments : List Expr}
    {note : Option CallNote} {entity : String}
    (hroot : (Expr.call operator arguments note).chainRoot = .entitySet entity)
    (h : Runs (expandSubqueries recur (.call operator arguments note)) M p e' p') :
    Runs (recur (.call operator arguments note)) M p e' p' := by
  rw [expandSubqueries, descend_eq, subqueryAt, hroot] at h
  exact h

/-- A state in which the rows of a setting are open. The sources from `first` on are those that the
expansion makes. -/
structure Opens (M : Model) (opens : List SourceId) (first : Nat) (S : Setting) (p : Progress) : Prop
    extends Holding M opens S p where
  range : ∀ k ∈ opens, k.index < p.forest.sources.length
  first : first ≤ p.forest.sources.length

/-- From every such state, expanding the queries of the expression gives it a meaning. -/
def Expands (M : Model) (tables : Tables) (opens : List SourceId) (first : Nat) (recur : Recur)
    (S : Setting) (e : Expr) : Prop :=
  ∀ p e' p', Opens M opens first S p → Runs (expandSubqueries recur e) M p e' p' →
    Extends M.catalog p p' ∧
      Meaning M.catalog tables first p' opens e' fun o => e.denote M.catalog tables o [] []

section Expands

variable {S : Setting} {n : Bool} {a b d : Expr} {s : Shape}

theorem Opens.extend (h : Opens M opens first S p) (ext : Extends M.catalog p p') :
    Opens M opens first S p' where
  toHolding := h.toHolding.extend ext
  range k hk := Nat.lt_of_lt_of_le (h.range k hk) ext.grows.sources
  first := Nat.le_trans h.first ext.grows.sources

namespace Expands

theorem const (value : Literal) : Expands M tables opens first recur S (.const value) := by
  intro p e' p' hp h
  obtain ⟨rfl, rfl⟩ := Runs.pure_iff.1 (Runs.descend_none rfl h)
  refine ⟨.refl hp.sound, .of_parts (by simp) (by simp) (by simp [ownNames]) (by simp [children]) ?_⟩
  exact fun _ _ _ _ _ _ => rfl

theorem set (entity : String) : Expands M tables opens first recur S (.entitySet entity) := by
  intro p e' p' hp h
  obtain ⟨rfl, rfl⟩ := Runs.pure_iff.1 (Runs.descend_none rfl h)
  refine ⟨.refl hp.sound, .of_parts (by simp) (by simp) (by simp [ownNames]) (by simp [children]) ?_⟩
  exact fun _ _ _ _ _ _ => rfl

theorem ref {r : RowRef} (hr : S.shapeOf r = some s) (href : S.refs r) (hs : s.isRows = false) :
    Expands M tables opens first recur S (.rowRef r) := by
  intro p e' p' hp h
  obtain ⟨rfl, rfl⟩ := Runs.pure_iff.1 (Runs.descend_none rfl h)
  have hr := hp.le.shapeOf hr
  have href := hp.le.refs href
  exact ⟨.refl hp.sound, .ref fun _ => ⟨href, Progress.not_collection hp.sound href hr hs⟩⟩

theorem property {entity name : String} {t : EntityType}
    (ht : HasShape S .ready n [] a (.entity entity)) (ha : Expands M tables opens first recur S a)
    (htype : S.catalog.type? entity = some t) (hnav : t.navigation? name = none) :
    Expands M tables opens first recur S (.member a name) := by
  intro p e' p' hp h
  have hcat : M.catalog = S.catalog := hp.le.catalog
  obtain ⟨a', hra, rfl⟩ := Runs.descend_member rfl h
  obtain ⟨ext, hm⟩ := ha p a' p' hp hra
  refine ⟨ext, .of_parts (by simp) (by simp) (by simp [ownNames]) ?_ ?_⟩
  · simpa [children] using ⟨_, hm⟩
  · intro f o scope hgrows hpaths ho
    have hs := ht.shape?_eq (ho.anti (hp.extend ext).le).entity
    rw [← hcat] at hs htype
    rw [denote_member, hs, Shape.read_property htype hnav, evalIn, hm.eval f o scope hgrows hpaths ho]

theorem binary (op : BinaryOp) (ha : Expands M tables opens first recur S a)
    (hb : Expands M tables opens first recur S b) :
    Expands M tables opens first recur S (.binary op a b) := by
  intro p e' p' hp h
  have h := Runs.descend_none rfl h
  simp only [mapChildren, Runs.bind_iff, Runs.pure_iff] at h
  obtain ⟨a', q, hra, b', q', hrb, rfl, rfl⟩ := h
  obtain ⟨ext, hma⟩ := ha p a' q hp hra
  obtain ⟨ext', hmb⟩ := hb q b' q' (hp.extend ext) hrb
  have hma := hma.mono ext.sound ext'
  refine ⟨ext.trans ext', .of_parts (by simp) (by simp) (by simp [ownNames]) ?_ ?_⟩
  · simpa [children] using ⟨⟨_, hma⟩, _, hmb⟩
  · intro f o scope hgrows hpaths ho
    simp only [evalIn, Expr.denote, hma.eval f o scope hgrows hpaths ho,
      hmb.eval f o scope hgrows hpaths ho]

theorem not (ha : Expands M tables opens first recur S a) :
    Expands M tables opens first recur S (.not a) := by
  intro p e' p' hp h
  have h := Runs.descend_none rfl h
  simp only [mapChildren, Runs.bind_iff, Runs.pure_iff] at h
  obtain ⟨a', q, hra, rfl, rfl⟩ := h
  obtain ⟨ext, hm⟩ := ha p a' q hp hra
  refine ⟨ext, .of_parts (by simp) (by simp) (by simp [ownNames]) ?_ ?_⟩
  · simpa [children] using ⟨_, hm⟩
  · intro f o scope hgrows hpaths ho
    simp only [evalIn, Expr.denote, hm.eval f o scope hgrows hpaths ho]

theorem convert (t : ScalarType) (nullable : Bool) (ha : Expands M tables opens first recur S a) :
    Expands M tables opens first recur S (.convert a t nullable) := by
  intro p e' p' hp h
  have h := Runs.descend_none rfl h
  simp only [mapChildren, Runs.bind_iff, Runs.pure_iff] at h
  obtain ⟨a', q, hra, rfl, rfl⟩ := h
  obtain ⟨ext, hm⟩ := ha p a' q hp hra
  refine ⟨ext, .of_parts (by simp) (by simp) (by simp [ownNames]) ?_ ?_⟩
  · simpa [children] using ⟨_, hm⟩
  · intro f o scope hgrows hpaths ho
    simp only [evalIn, Expr.denote, hm.eval f o scope hgrows hpaths ho]

theorem cond (ha : Expands M tables opens first recur S a) (hb : Expands M tables opens first recur S b)
    (hd : Expands M tables opens first recur S d) :
    Expands M tables opens first recur S (.cond a b d) := by
  intro p e' p' hp h
  have h := Runs.descend_none rfl h
  simp only [mapChildren, Runs.bind_iff, Runs.pure_iff] at h
  obtain ⟨a', q₁, hra, b', q₂, hrb, d', q₃, hrd, rfl, rfl⟩ := h
  obtain ⟨ext₁, hma⟩ := ha p a' q₁ hp hra
  obtain ⟨ext₂, hmb⟩ := hb q₁ b' q₂ (hp.extend ext₁) hrb
  have ext₁₂ := ext₁.trans ext₂
  obtain ⟨ext₃, hmd⟩ := hd q₂ d' q₃ (hp.extend ext₁₂) hrd
  have hma := hma.mono ext₁.sound (ext₂.trans ext₃)
  have hmb := hmb.mono ext₂.sound ext₃
  refine ⟨ext₁₂.trans ext₃, .of_parts (by simp) (by simp) (by simp [ownNames]) ?_ ?_⟩
  · simpa [children] using ⟨⟨_, hma⟩, ⟨_, hmb⟩, _, hmd⟩
  · intro f o scope hgrows hpaths ho
    simp only [evalIn, Expr.denote, hma.eval f o scope hgrows hpaths ho,
      hmb.eval f o scope hgrows hpaths ho, hmd.eval f o scope hgrows hpaths ho]

theorem nil : Expands M tables opens first recur S (.record []) := by
  intro p e' p' hp h
  have h := Runs.descend_none rfl h
  simp only [mapChildren, mapFields, Runs.bind_iff, Runs.pure_iff] at h
  obtain ⟨_, _, ⟨rfl, rfl⟩, rfl, rfl⟩ := h
  refine ⟨.refl hp.sound, .of_parts (by simp) (by simp) (by simp [ownNames]) (by simp [children]) ?_⟩
  exact fun _ _ _ _ _ _ => rfl

theorem cons {name : String} {fields : List (String × Expr)}
    (ha : Expands M tables opens first recur S a)
    (hfields : Expands M tables opens first recur S (.record fields)) :
    Expands M tables opens first recur S (.record ((name, a) :: fields)) := by
  intro p e' p' hp h
  have h := Runs.descend_none rfl h
  simp only [mapChildren, mapFields, Runs.bind_iff, Runs.pure_iff] at h
  obtain ⟨_, _, ⟨a', q, hra, fields', q', hrf, rfl, rfl⟩, rfl, rfl⟩ := h
  obtain ⟨ext, hma⟩ := ha p a' q hp hra
  obtain ⟨ext', hmf⟩ := hfields q _ q' (hp.extend ext) (Runs.descend_record_of rfl hrf)
  exact ⟨ext.trans ext', (hma.mono ext.sound ext').cons hmf⟩

end Expands

/-- Expanding the queries in a ready body gives the body a meaning. -/
theorem expandSubqueries_run (ht : HasShape S .ready n [] e s)
    (hrec : n = true → ExpandsQueries M tables recur) : Expands M tables opens first recur S e := by
  generalize hf : Form.ready = f at ht
  generalize hΓ : ([] : Shapes) = Γ at ht
  induction ht with
  | param h _ =>
    subst hΓ
    cases h
  | const value => exact .const value
  | ref hr href _ hready =>
    subst hf
    exact .ref hr href (hready rfl)
  | set _ => exact .set _
  | property he htype hnav _ ih =>
    subst hf hΓ
    exact .property he (ih hrec rfl rfl) htype hnav
  | refSize _ _ hform => exact absurd hf.symm hform
  -- A ready body has no navigation and no field left: what they would be read from is a row or a record.
  | navigation he _ _ hform _ | size he _ _ hform _ =>
    subst hf hΓ
    have := (he.canonical (by simp)).1 _ rfl
    rw [hform (by simp)] at this
    cases this
  | field he _ hform _ =>
    subst hf hΓ
    have := (he.canonical (by simp)).2 _ rfl
    rw [hform (by simp)] at this
    cases this
  | binary op _ _ _ iha ihb => exact .binary op (iha hrec hf hΓ) (ihb hrec hf hΓ)
  | not _ ih => exact .not (ih hrec hf hΓ)
  | cond _ _ _ iha ihb ihd => exact .cond (iha hrec hf hΓ) (ihb hrec hf hΓ) (ihd hrec hf hΓ)
  | nil => exact .nil
  | cons _ _ ihe ihf => exact .cons (ihe hrec hf hΓ) (ihf hrec hf hΓ)
  | convert t nullable _ ih => exact .convert t nullable (ih hrec hf hΓ)
  | filter note hs hb hx _ _ =>
    subst hf hΓ
    intro p e' p' hp h
    obtain ⟨entity, hroot⟩ := hs.chainRoot_rows
    obtain ⟨ext, hstreams⟩ := (hrec rfl).rows hp.sound hp.range
      ((HasShape.filter note hs hb hx).mono hp.le) (Runs.expandSubqueries_call hroot h)
    exact ⟨ext, (hstreams.meaning ext.sound).widen hp.first⟩
  | total note ho hs _ =>
    subst hf hΓ
    intro p e' p' hp h
    obtain ⟨entity, hroot⟩ := hs.chainRoot_rows
    obtain ⟨ext, hm⟩ := (hrec rfl).total hp.sound hp.range ((HasShape.total note ho hs).mono hp.le)
      (Runs.expandSubqueries_call hroot h)
    exact ⟨ext, hm.widen hp.first⟩
  | totalWhere note ho hs hb hx _ _ =>
    subst hf hΓ
    intro p e' p' hp h
    obtain ⟨entity, hroot⟩ := hs.chainRoot_rows
    obtain ⟨ext, hm⟩ := (hrec rfl).total hp.sound hp.range
      ((HasShape.totalWhere note ho hs hb hx).mono hp.le) (Runs.expandSubqueries_call hroot h)
    exact ⟨ext, hm.widen hp.first⟩

end Expands

theorem Runs.descend_unchanged {act? : Expr → Option (Expansion Expr)}
    (hact : ∀ d ∈ e.nodes, act? d = none) (h : Runs (descend act? e) M p e' p') : e' = e ∧ p = p' := by
  induction e using children_induction generalizing p p' e' with
  | step e ih =>
    have part {c : Expr} (hc : c ∈ e.children) {q q' : Progress} {c' : Expr}
        (h : Runs (descend act? c) M q c' q') : c' = c ∧ q = q' :=
      ih c hc (fun d hd => hact d (mem_nodes_of_child hc hd)) h
    obtain ⟨rfl, head⟩ := Runs.mapChildren_within Eq (fun _ => rfl) Eq.trans
      (fun c hc q c' q' _ hrun => (part hc hrun).2)
      (Runs.descend_none (hact e (self_mem_nodes e)) h)
    refine ⟨(SameHead.eq (head.mono ?_)).symm, rfl⟩
    rintro c c' ⟨hc, q, q', -, -, hrun⟩
    exact (part hc hrun).1.symm

/-- A body without queries has none to expand. -/
theorem expandSubqueries_plain {S : Setting} {f : Form} {Γ : Shapes} {s : Shape}
    (ht : HasShape S f false Γ e s) (h : Runs (expandSubqueries recur e) M p e' p') :
    e' = e ∧ p = p' := by
  refine Runs.descend_unchanged (fun d hd => ?_) h
  rcases ht.part.of_node d hd with ⟨_, _, _, hd, -⟩ | ⟨hn, -⟩
  · cases hd <;> rfl
  · cases hn

/-- A rewritten body stands for the one that was written. -/
theorem rewriteBody_run {n : Bool} {s : Shape} (hset : M.settings.nullSafeEquality = false)
    (hplain : n = true → M.catalog.PlainCollections) (hp : p.forest.Sound M.catalog)
    (ht : HasShape (p.setting M.catalog opens) .raw n [] e s)
    (h : Runs (rewriteBody e) M p e' p') : Extends M.catalog p p' ∧
      Stands (p'.setting M.catalog opens) tables .ready n [] e e' s := by
  simp only [rewriteBody, Runs.bind_iff] at h
  obtain ⟨bound, q, hbind, _, _, hcompare, hfilter⟩ := h
  obtain ⟨ext, hbound⟩ := bind_run ht _ _ _ ⟨hp, .refl _⟩ hbind
  obtain ⟨rfl, rfl⟩ := compareByKeys_run hset ext.sound (.refl _) hbound.typed hcompare
  obtain ⟨ext', hfiltered⟩ := filterCollections_run ext.sound hbound.typed hplain hfilter
  exact ⟨ext.trans ext', (hbound.mono (ext'.le ext.sound opens)).trans hfiltered⟩

/-- What becomes of a body before anything is joined for it. -/
theorem prepareBody_run {n : Bool} {s : Shape} (hset : M.settings.nullSafeEquality = false)
    (hplain : n = true → M.catalog.PlainCollections)
    (hrec : n = true → ExpandsQueries M tables recur) (hp : p.forest.Sound M.catalog)
    (hopens : ∀ k ∈ opens, k.index < p.forest.sources.length)
    (ht : HasShape (p.setting M.catalog opens) .raw n [] e s)
    (h : Runs (prepareBody recur e) M p e' p') : Extends M.catalog p p' ∧
      (Meaning M.catalog tables p.forest.sources.length p' opens e'
        fun o => e.denote M.catalog tables o [] []) ∧
      (n = false → Stands (p'.setting M.catalog opens) tables .ready false [] e e' s) := by
  simp only [prepareBody, Runs.bind_iff] at h
  obtain ⟨d, q, hrewrite, hexpand⟩ := h
  obtain ⟨ext, hstands⟩ := rewriteBody_run hset hplain hp ht hrewrite
  have hopen : Opens M opens p.forest.sources.length (q.setting M.catalog opens) q :=
    ⟨⟨ext.sound, .refl _⟩, fun k hk => Nat.lt_of_lt_of_le (hopens k hk) ext.grows.sources,
      ext.grows.sources⟩
  obtain ⟨ext', hmeaning⟩ := expandSubqueries_run hstands.typed hrec q e' p' hopen hexpand
  refine ⟨ext.trans ext', { hmeaning with eval := fun f o scope hgrows hpaths ho => ?_ }, ?_⟩
  · have same := hstands.same o [] (ho.anti (ext'.le ext.sound opens)) (.nil tables [])
    exact (hmeaning.eval f o scope hgrows hpaths ho).trans same
  · rintro rfl
    obtain ⟨rfl, rfl⟩ := expandSubqueries_plain hstands.typed hexpand
    exact hstands

end Expansion
end EntityQuery
