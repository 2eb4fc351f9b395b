import EntityQuery.Proofs.Joins

/-!
# The values of streams and bodies

Where the rows that its selector refers to are present, a stream evaluates to the rows of the query
that it stands for, and so it has a meaning as a part of a body. The other parts of a body have one
if what they are made of has.
-/

namespace EntityQuery

open EntityQuery.Expr

section Ready

/-- A property of an entity is a member of its rows. -/
theorem Shape.read_property {c : Catalog} {tables : Tables} {entity name : String} {t : EntityType}
    (ht : c.type? entity = some t) (hn : t.navigation? name = none) :
    Shape.read c tables (some (.entity entity)) name = evalMember name := by
  funext v
  simp only [Shape.read, Catalog.navigation?, ht, Option.bind_some, hn]

/-- Members and references that are left in a ready expression are evaluated as they are meant. -/
theorem HasShape.evalIn_ready {S : Setting} {tables : Tables} {e : Expr} {s : Shape}
    (h : HasShape S .ready false [] e s) {o : OpenRows} (ho : S.Within o) {v : RowView}
    (hv : ∀ r ∈ e.rowRefs, v.row r = o.read S.catalog tables r) (scope : Scope) :
    e.evalIn tables v scope = e.denote S.catalog tables o [] [] := by
  have canonical {e : Expr} {s : Shape} (h : HasShape S .ready false [] e s) := h.canonical (by simp)
  have part {c e : Expr} (hv : ∀ r ∈ e.rowRefs, v.row r = o.read S.catalog tables r)
      (hc : c ∈ e.children) : ∀ r ∈ c.rowRefs, v.row r = o.read S.catalog tables r :=
    fun r hr => hv r (mem_rowRefs_of_child hc hr)
  generalize hf : Form.ready = f at h
  generalize hn : false = n at h
  generalize hΓ : ([] : Shapes) = Γ at h
  induction h with
  | param h _ =>
    subst hΓ
    cases h
  | const value => rfl
  | ref _ _ _ _ => exact hv _ (mem_rowRefs_iff.2 (.inl rfl))
  | set _ | size _ _ _ _ _ | refSize _ _ _ | filter _ _ _ _ _ _ | total _ _ _ _
  | totalWhere _ _ _ _ _ _ _ => cases hn
  | @property f n Γ e entity name t q he ht hnav hq ih =>
    subst hf hn hΓ
    rw [denote_member, he.shape?_eq ho, Shape.read_property ht hnav, evalIn, ih (part hv (.head _)) rfl rfl rfl]
  | navigation he _ _ hform _ =>
    subst hf hn hΓ
    have := (canonical he).1 _ rfl
    rw [hform (by simp)] at this
    cases this
  | field he _ hform _ =>
    subst hf hn hΓ
    have := (canonical he).2 _ rfl
    rw [hform (by simp)] at this
    cases this
  | binary op _ _ _ iha ihb =>
    simp only [evalIn, Expr.denote, iha (part hv (.head _)) hf hn hΓ,
      ihb (part hv (.tail _ (.head _))) hf hn hΓ]
  | not _ ih => simp only [evalIn, Expr.denote, ih (part hv (.head _)) hf hn hΓ]
  | cond _ _ _ iha ihb ihd =>
    simp only [evalIn, Expr.denote, iha (part hv (.head _)) hf hn hΓ,
      ihb (part hv (.tail _ (.head _))) hf hn hΓ, ihd (part hv (.tail _ (.tail _ (.head _)))) hf hn hΓ]
  | nil => rfl
  | @cons f n Γ name e s fields shapes _ _ ihe ihf =>
    have ihe := ihe (part hv (.head _)) hf hn hΓ
    have ihf := ihf (fun r hr => hv r ?_) hf hn hΓ
    · simp only [evalIn, evalFieldsIn, Expr.denote, Expr.denoteFields] at ihf ⊢
      rw [ihe, Outcome.fields_of_record ihf]
    · rcases mem_rowRefs_iff.1 hr with h | ⟨c, hc, hr⟩
      · cases h
      · exact mem_rowRefs_of_child (.tail _ hc) hr
  | convert _ _ _ ih => simp only [evalIn, Expr.denote, ih (part hv (.head _)) hf hn hΓ]

end Ready

section Streams

variable {c : Catalog} {tables : Tables} {p : Progress} {opens : List SourceId} {m : SourceId}
  {entity : String} {s : Stream} {element : Shape} {value : OpenRows → Outcome Value}

/-- The selector of a stream names no parameters, and it refers to its own rows or to open ones. -/
theorem Flows.selector_closed (h : Flows c tables p opens m entity s element value) :
    s.selector.names = [] ∧ s.selector.hasStream = false ∧ ∀ r ∈ s.selector.rowRefs,
      (p.setting c (m :: opens)).refs r ∧ r.source ∈ m :: opens ∧
        ∃ t, (p.setting c (m :: opens)).shapeOf r = some t ∧ t.isRows = false := by
  refine ⟨List.eq_nil_iff_forall_not_mem.2 fun x hx => ?_, h.selector.hasStream_eq_false, ?_⟩
  · obtain ⟨t, ht⟩ := h.selector.names_in_view x hx
    cases ht
  · intro r hr
    obtain ⟨hrefs, t, ht, hrows⟩ := h.selector.refs_single r hr
    exact ⟨hrefs, Progress.open_of_shapeOf ht, t, ht, hrows⟩

/-- What a stream evaluates to where all rows that its selector refers to are present. -/
theorem Flows.evalIn_toExpr (h : Flows c tables p opens m entity s element value) {f : Forest}
    (hgrows : p.forest.Grows f) (hpaths : p.forest.SamePaths (· = m) f)
    (hpresent : ∀ r ∈ s.selector.rowRefs, r.source = m →
      ∃ path, p.forest.rowPath? r.node = some path)
    {o : OpenRows} (ho : Grounded (p.setting c opens) tables o) (scope : Scope) :
    s.toExpr.evalIn tables (o.view c tables f) scope = value o := by
  obtain ⟨entries, hrows, hfits, hvalue⟩ := h.rows o ho
  -- In each row of the stream the selector reads what the forest says of it.
  have hselector : ∀ e ∈ entries, s.selector.evalIn tables
      ((o.view c tables f).enter s.sources e.row) scope = .ok e.value := by
    intro e he
    obtain ⟨⟨rows, hl, hmem⟩, hholds, hv⟩ := hfits e he
    have hset : Grounded (p.setting c (m :: opens)) tables (o.set m entity e.origin) :=
      ho.set h.rowsOf hl hmem
    rw [← hv]
    refine h.selector.evalIn_ready hset.entity (fun r hr => ?_) scope
    obtain ⟨hrefs, -, -⟩ := h.selector_closed.2.2 r hr
    simp only [RowView.enter, h.sources, List.contains_iff_mem, List.mem_singleton]
    split
    · next hm =>
      obtain ⟨path, hpath⟩ := hpresent r hr hm
      obtain ⟨hsource, hmember⟩ := Progress.source_of_refs hrefs
      have hnode : (f.node r.node).source = m := (hgrows.node hrefs.1).source.trans (hsource.trans hm)
      simp only [OpenRows.view, hpaths r.node hnode, hpath]
      rw [hholds r.node path (hsource.trans hm) hpath, OpenRows.read_set_self _ _ _ _ _ _ hm, hmember]
      rfl
    · next hm => exact (OpenRows.read_set_ne _ _ _ _ _ _ hm).symm
  rw [Stream.toExpr, evalIn, StreamFrame.answer, h.cardinality]
  simp only [Argument.rows, hrows (o.view c tables f) scope rfl]
  change Value.list <$> (entries.map (·.row)).mapM (fun w =>
    s.selector.evalIn tables ((o.view c tables f).enter s.sources w) scope) = value o
  rw [List.mapM_map]
  refine (congrArg (Value.list <$> ·) (mapM_ok hselector)).trans ?_
  rw [hvalue]
  rfl


/-- The root of a source is always present. -/
theorem Forest.Sound.rowPath?_root {f : Forest} (hf : f.Sound c) (hm : m.index < f.sources.length) :
    ∃ path, f.rowPath? (f.root m) = some path := by
  have root := hf.root hm
  have kept : (f.node (f.root m)).isRemoved = false := by
    refine Bool.eq_false_iff.2 fun hr => ?_
    have hc := hf.removed hr
    rw [Node.isCollection, (hf.top root.range root.parent).1] at hc
    cases hc
  simp only [Forest.rowPath?, root.isPresent, kept, Bool.not_false, Bool.and_self, if_true]
  exact ⟨_, rfl⟩

/-- A reference that does not stand for rows is to no collection. -/
theorem Progress.not_collection {r : RowRef} {t : Shape} (hp : p.forest.Sound c)
    (hr : (p.setting c opens).refs r) (hs : (p.setting c opens).shapeOf r = some t)
    (ht : t.isRows = false) : (p.forest.node r.node).isCollection = false := by
  refine Bool.eq_false_iff.2 fun hc => ?_
  obtain ⟨edge, he, -⟩ := (Option.any_eq_true _ _).1 hc
  rw [Progress.shapeOf_eq hp hr hs, Forest.shapeAt_collection he hc] at ht
  cases ht

/-- A stream has a meaning where all rows that its selector refers to are present. -/
theorem Flows.meaning {first : Nat} (h : Flows c tables p opens m entity s element value)
    (hfirst : first ≤ m.index)
    (hpresent : ∀ r ∈ s.selector.rowRefs, r.source = m →
      ∃ path, p.forest.rowPath? r.node = some path) (hp : p.forest.Sound c) :
    Meaning c tables first p opens s.toExpr value where
  fits := by
    intro rows selector frame hmem
    obtain ⟨hnames, hplain, -⟩ := h.selector_closed
    rcases mem_nodes_iff.1 hmem with heq | ⟨d, hd, hmem⟩
    · cases heq
      have closed : s.selector.freeParams = [] := List.eq_nil_iff_forall_not_mem.2 fun x hx => by
        simpa [hnames] using mem_names_of_mem_freeParams hx
      exact ⟨h.sequence, closed⟩
    · have part : d.hasStream = true := List.any_eq_true.2 ⟨_, hmem, rfl⟩
      simp only [Stream.toExpr, children, List.mem_cons, List.not_mem_nil, or_false] at hd
      rcases hd with rfl | rfl
      · rw [h.settled.plain] at part
        cases part
      · rw [hplain] at part
        cases part
  names := by
    refine .of_parts (fun x hx => ?_) fun d hd => ?_
    · obtain rfl := List.mem_singleton.1 hx
      exact h.parameter
    · simp only [Stream.toExpr, children, List.mem_cons, List.not_mem_nil, or_false] at hd
      rcases hd with rfl | rfl
      · exact h.settled.names
      · intro x hx
        rw [h.selector_closed.1] at hx
        cases hx
  refs := by
    intro r hr
    rcases mem_rowRefs_iff.1 hr with heq | ⟨d, hd, hr⟩
    · cases heq
    · simp only [Stream.toExpr, children, List.mem_cons, List.not_mem_nil, or_false] at hd
      rcases hd with rfl | rfl
      · exact h.settled.refs r hr
      · obtain ⟨hrefs, -, t, ht, hrows⟩ := h.selector_closed.2.2 r hr
        exact fun _ => ⟨hrefs, Progress.not_collection hp hrefs ht hrows⟩
  eval f o scope hgrows hpaths ho := by
    refine h.evalIn_toExpr hgrows (hpaths.mono ?_) hpresent ho scope
    rintro _ rfl
    exact ⟨hfirst, h.range⟩

end Streams

section Parts

variable {c : Catalog} {tables : Tables} {p : Progress} {opens : List SourceId} {first : Nat}
  {e e' : Expr} {value : OpenRows → Outcome Value}

/-- An expression has a meaning if its parts do. -/
theorem Meaning.of_parts (hr : ∀ r, e ≠ .rowRef r)
    (hs : ∀ rows selector frame, e ≠ .stream rows selector frame)
    (own : ∀ x ∈ e.ownNames, OldName p.names x)
    (parts : ∀ d ∈ e.children, ∃ u, Meaning c tables first p opens d u)
    (eval : ∀ f o scope, p.forest.Grows f →
      p.forest.SamePaths (fun m => first ≤ m.index ∧ m.index < p.forest.sources.length) f →
      Grounded (p.setting c opens) tables o → e.evalIn tables (o.view c tables f) scope = value o) :
    Meaning c tables first p opens e value where
  fits rows selector frame hmem := by
    rcases mem_nodes_iff.1 hmem with heq | ⟨d, hd, hmem⟩
    · exact absurd heq.symm (hs rows selector frame)
    · obtain ⟨_, h⟩ := parts d hd
      exact h.fits rows selector frame hmem
  names := .of_parts own fun d hd => by
    obtain ⟨_, h⟩ := parts d hd
    exact h.names
  refs r hmem := by
    rcases mem_rowRefs_iff.1 hmem with rfl | ⟨d, hd, hmem⟩
    · exact absurd rfl (hr r)
    · obtain ⟨_, h⟩ := parts d hd
      exact h.refs r hmem
  eval := eval

theorem Meaning.ref {r : RowRef} (hr : p.Allows c opens r) :
    Meaning c tables first p opens (.rowRef r) fun o => o.read c tables r where
  fits rows selector frame hmem := by
    rcases mem_nodes_iff.1 hmem with heq | ⟨_, hd, -⟩
    · cases heq
    · cases hd
  names x hx := by
    rcases mem_names_iff.1 hx with hx | ⟨_, hd, -⟩
    · cases hx
    · cases hd
  refs r' hmem := by
    rcases mem_rowRefs_iff.1 hmem with heq | ⟨_, hd, -⟩
    · cases heq
      exact hr
    · cases hd
  eval f o scope _ _ _ := rfl

/-- One more field of a record. -/
theorem Meaning.cons {name : String} {fields fields' : List (String × Expr)}
    (he : Meaning c tables first p opens e' fun o => e.denote c tables o [] [])
    (hf : Meaning c tables first p opens (.record fields') fun o =>
      (Expr.record fields).denote c tables o [] []) :
    Meaning c tables first p opens (.record ((name, e') :: fields')) fun o =>
      (Expr.record ((name, e) :: fields)).denote c tables o [] [] where
  fits rows selector frame h := by
    rcases mem_nodes_iff.1 h with heq | ⟨d, hd, hmem⟩
    · cases heq
    · rcases List.mem_cons.1 hd with rfl | hd
      · exact he.fits rows selector frame hmem
      · exact hf.fits rows selector frame (mem_nodes_of_child hd hmem)
  names := .of_parts (fun _ hx => nomatch hx) fun d hd => by
    rcases List.mem_cons.1 hd with rfl | hd
    · exact he.names
    · exact hf.names.child hd
  refs r h := by
    rcases mem_rowRefs_iff.1 h with heq | ⟨d, hd, hr⟩
    · cases heq
    · rcases List.mem_cons.1 hd with rfl | hd
      · exact he.refs r hr
      · exact hf.refs r (mem_rowRefs_of_child hd hr)
  eval f o scope hgrows hpaths ho := by
    have hv := he.eval f o scope hgrows hpaths ho
    have hvs := hf.eval f o scope hgrows hpaths ho
    simp only [evalIn, evalFieldsIn, Expr.denote, Expr.denoteFields] at hvs ⊢
    rw [hv, Outcome.fields_of_record hvs]

end Parts

end EntityQuery
