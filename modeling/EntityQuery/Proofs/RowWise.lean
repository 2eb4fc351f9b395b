import EntityQuery.Expansion.RowWise
import EntityQuery.Proofs.Subqueries

/-!
# Row-wise operators over streams

A lambda over the rows of a query is brought over the rows of the stream that stands for the query:
the selector is put for its parameter, and what it refers to is joined. The value of the lambda in a
row of the stream is then that of the body that was written, in the row of the query.
-/

namespace EntityQuery

open EntityQuery.Expr

variable {M : Model} {tables : Tables} {p p' : Progress} {opens : List SourceId} {m : SourceId}
  {entity : String} {s : Stream} {element : Shape} {value : OpenRows → Outcome Value} {recur : Recur}
  {n : Bool} {x : String} {body : Expr} {t : Shape} {b : JoinedBody}

theorem Stream.toExpr_inj {s s' : Stream} (h : s.toExpr = s'.toExpr) : s = s' := by
  cases s
  cases s'
  cases h
  rfl

theorem Runs.expandSource {e : Expr} (h : Runs (expandSource recur e) M p s p') :
    Runs (recur e) M p s.toExpr p' ∧ s.cardinality = none := by
  simp only [EntityQuery.expandSource, Runs.bind_iff] at h
  obtain ⟨d, q, hrec, h⟩ := h
  split at h
  · split at h
    · next hnone =>
      obtain ⟨rfl, rfl⟩ := Runs.pure_iff.1 h
      exact ⟨hrec, hnone⟩
    · exact (Runs.throw_iff.1 h).elim
  · exact (Runs.throw_iff.1 h).elim

section Inversion

variable {source : Expr} {note : Option CallNote} {operator : Operator}

theorem Runs.expandFilter
    (h : Runs (expandFilter recur source (.lambda [x] body) note) M p s p') : ∃ s₀ q b,
      Runs (recur source) M p s₀.toExpr q ∧ Runs (resolvedBody recur s₀ x body) M q b p' ∧
      s = { b.stream with
        rows := .call .filter [b.stream.rows, b.toLambda] note, ordered := false } := by
  simp only [EntityQuery.expandFilter, expectUnary, Runs.bind_iff, Runs.pure_iff] at h
  obtain ⟨_, _, ⟨rfl, rfl⟩, s₀, q, hsource, b, _, hbody, rfl, rfl⟩ := h
  exact ⟨s₀, q, b, (Runs.expandSource hsource).1, hbody, rfl⟩

theorem Runs.expandOrderBy
    (h : Runs (expandOrderBy recur operator source (.lambda [x] body)) M p s p') : ∃ s₀ q b,
      Runs (recur source) M p s₀.toExpr q ∧ Runs (resolvedBody recur s₀ x body) M q b p' ∧
      s = { b.stream with
        rows := .call operator [b.stream.rows, b.toLambda] none, ordered := true } := by
  simp only [EntityQuery.expandOrderBy, expectUnary, Runs.bind_iff, Runs.pure_iff] at h
  obtain ⟨_, _, ⟨rfl, rfl⟩, s₀, q, hsource, b, _, hbody, rfl, rfl⟩ := h
  exact ⟨s₀, q, b, (Runs.expandSource hsource).1, hbody, rfl⟩

theorem Runs.expandSelect
    (h : Runs (expandSelect recur source (.lambda [x] body)) M p s p') : ∃ s₀ q b q',
      Runs (recur source) M p s₀.toExpr q ∧ Runs (joinBody recur s₀ x body) M q b q' ∧
      Runs (aliasFields b.body) M q' () p' ∧ s.sources = b.stream.sources ∧
      s.rows = b.stream.rows ∧ s.cardinality = b.stream.cardinality ∧
      s.parameter = b.stream.parameter ∧ s.selector = b.body := by
  simp only [EntityQuery.expandSelect, expectUnary, Runs.bind_iff, Runs.pure_iff,
    Runs.forest_iff] at h
  obtain ⟨_, _, ⟨rfl, rfl⟩, s₀, q, hsource, b, q', hbody, _, _, halias, _, _, ⟨rfl, rfl⟩, rfl, rfl⟩ := h
  exact ⟨s₀, q, b, q', (Runs.expandSource hsource).1, hbody, halias, rfl, rfl, rfl, rfl, rfl⟩

end Inversion

section Bodies

/-- A body with the selector for its parameter has, in the row that an entry comes from, the value
that it has in the entry's value. -/
theorem Flows.denote_body {c : Catalog} {o : OpenRows} {f : Forest} {e : Entry}
    (h : Flows c tables p opens m entity s element value)
    (hb : HasShape (p.setting c opens) .raw n [(x, element)] body t)
    (ho : Grounded (p.setting c opens) tables o) (he : e.Fits c tables f m entity s.selector o) :
    ∃ u, body.denote c tables o [(x, element)] [(x, e.value)] = .ok u ∧
      (body.substitute x s.selector).denote c tables (o.set m entity e.origin) [] [] = .ok u := by
  obtain ⟨⟨rows, hl, hmem⟩, -, hv⟩ := he
  have hset : Grounded (p.setting c (m :: opens)) tables (o.set m entity e.origin) :=
    ho.set h.rowsOf hl hmem
  have hle : (p.setting c opens).Le (p.setting c (m :: opens)) :=
    p.setting_le_of_subset c fun _ => .tail _
  obtain ⟨w, hw, hfits⟩ := h.selector.denotes hset (.nil tables [])
  obtain rfl : e.value = w := Except.ok.inj (hv.symm.trans hw)
  obtain ⟨u, hu, -⟩ := hb.denotes ho (ScopeFits.cons (.nil tables []) hfits x)
  have substituted : (body.substitute x s.selector).denote c tables (o.set m entity e.origin) [] [] =
      body.denote c tables (o.set m entity e.origin) [(x, element)] [(x, e.value)] := by
    refine (hb.mono hle).denote_substitute rfl h.selector (fun _ => rfl) (.nil _) (.single x element)
      hset.entity hv (fun _ _ h => nomatch h) List.lookup_cons_self fun y t hy hlookup => ?_
    simp only [List.lookup_cons, beq_false_of_ne hy] at hlookup
    cases hlookup
  -- The row that is open besides is none that the body refers to.
  have weakened : body.denote c tables (o.set m entity e.origin) [(x, element)] [(x, e.value)] =
      body.denote c tables o [(x, element)] [(x, e.value)] := by
    refine hb.denote_weaken ho.entity (hset.anti hle).entity (fun {k _} hk => ?_) (.refl _)
      fun _ _ _ => rfl
    have hopen : k ∈ opens := by
      by_contra hk'
      simp only [Progress.setting, if_neg hk'] at hk
      cases hk
    exact if_neg fun (heq : k = m) => h.own (heq ▸ hopen)
  exact ⟨u, hu, (substituted.trans weakened).trans hu⟩

/-- A lambda over the rows of a stream, with everything joined that it refers to. -/
theorem joinBody_run (hc : M.catalog.Sound) (hset : M.settings.nullSafeEquality = false)
    (hplain : n = true → M.catalog.PlainCollections)
    (hrec : n = true → ExpandsQueries M tables recur) (hp : p.forest.Sound M.catalog)
    (hopens : ∀ k ∈ opens, k.index < p.forest.sources.length)
    (hflow : Flows M.catalog tables p opens m entity s element value)
    (hb : HasShape (p.setting M.catalog opens) .raw n [(x, element)] body t)
    (hx : OldName p.names x) (h : Runs (joinBody recur s x body) M p b p') :
    Moves M.catalog m p p' ∧ Flows M.catalog tables p' opens m entity b.stream element value ∧
      b.stream.selector = s.selector ∧
      (Meaning M.catalog tables (m.index + 1) p' (m :: opens) b.body
        fun o => (body.substitute x s.selector).denote M.catalog tables o [] []) ∧
      (n = false → Stands (p'.setting M.catalog (m :: opens)) tables .ready false []
        (body.substitute x s.selector) b.body t) := by
  simp only [joinBody, Runs.bind_iff, Runs.pure_iff, Prod.exists] at h
  obtain ⟨body', q, hprepare, s', k, _, hjoin, rfl, rfl⟩ := h
  have hle : (p.setting M.catalog opens).Le (p.setting M.catalog (m :: opens)) :=
    p.setting_le_of_subset M.catalog fun _ => .tail _
  have written : HasShape (p.setting M.catalog (m :: opens)) .raw n []
      (body.substitute x s.selector) t :=
    (hb.mono hle).substitute rfl hflow.selector (fun _ => rfl) (.nil _) (.single x element)
  obtain ⟨ext, hmeaning, hstands⟩ := prepareBody_run hset hplain hrec hp
    (List.forall_mem_cons.2 ⟨hflow.range, hopens⟩) written hprepare
  obtain ⟨moves, hjoined, hselector⟩ := joinReferenced_run hc ext.sound (fun e he r hr hm => by
    obtain rfl := List.mem_singleton.1 he
    obtain ⟨hrefs, hsingle⟩ := hmeaning.refs r hr (hm ▸ .head _)
    exact ⟨hrefs.1, (Progress.source_of_refs hrefs).1.trans hm, hsingle⟩) (hflow.mono hp ext) hjoin
  refine ⟨(ext.toMoves m).trans moves, ?_, ?_, ?_, fun hn => ?_⟩
  · dsimp only
    split
    · exact hjoined
    · refine hjoined.reframe rfl rfl rfl rfl (hx.mono ?_)
      exact Nat.le_trans ext.names moves.names
  · dsimp only
    split <;> exact hselector
  · refine (hmeaning.widen hflow.range).advance ext.sound moves.toAdvances (moves.paths.mono ?_)
    rintro k ⟨hk, hlt⟩
    refine ⟨?_, hlt⟩
    rintro rfl
    exact Nat.lt_irrefl _ hk
  · exact (hstands hn).mono (moves.le ext.sound _)

/-- What a resolved body is over the rows of a stream: everything that it refers to is joined, and in
each row it has the value of the body that was written. -/
structure ResolvesTo (M : Model) (tables : Tables) (p p' : Progress) (opens : List SourceId)
    (m : SourceId) (entity : String) (s : Stream) (element : Shape)
    (value : OpenRows → Outcome Value) (x : String) (body : Expr) (b : JoinedBody) : Prop where
  moves : Moves M.catalog m p p'
  flows : Flows M.catalog tables p' opens m entity b.stream element value
  selector : b.stream.selector = s.selector
  settled : b.toLambda.Settled p'.names (p'.Allows M.catalog opens)
  applies : ∀ o, Grounded (p'.setting M.catalog opens) tables o → ∀ e : Entry,
    e.Fits M.catalog tables p'.forest m entity s.selector o → ∃ u,
      body.denote M.catalog tables o [(x, element)] [(x, e.value)] = .ok u ∧
      ∀ v scope, v.row = o.read M.catalog tables →
        b.toLambda.applyIn tables v scope [e.row] = .ok u

theorem resolvedBody_run (hc : M.catalog.Sound) (hset : M.settings.nullSafeEquality = false)
    (hplain : n = true → M.catalog.PlainCollections)
    (hrec : n = true → ExpandsQueries M tables recur) (hp : p.forest.Sound M.catalog)
    (hopens : ∀ k ∈ opens, k.index < p.forest.sources.length)
    (hflow : Flows M.catalog tables p opens m entity s element value)
    (hb : HasShape (p.setting M.catalog opens) .raw n [(x, element)] body t)
    (hx : OldName p.names x) (h : Runs (resolvedBody recur s x body) M p b p') :
    ResolvesTo M tables p p' opens m entity s element value x body b := by
  simp only [resolvedBody, Runs.bind_iff, Runs.pure_iff] at h
  obtain ⟨b, q, hjoin, resolved, q', hresolve, rfl, rfl⟩ := h
  obtain ⟨moves, hjoined, hselector, hmeaning, -⟩ :=
    joinBody_run hc hset hplain hrec hp hopens hflow hb hx hjoin
  have hscope : b.stream.scope = ⟨b.stream.parameter, [m]⟩ := by
    rw [Stream.scope, StreamFrame.scope, hjoined.sources]
  rw [Stream.resolve, hscope] at hresolve
  obtain ⟨hnames, hresolved⟩ := resolve_run hmeaning.fits hmeaning.names hjoined.parameter hresolve
  have ext : Extends M.catalog q q' := .names_only moves.sound hnames.forest hnames.names
  have hflow' := hjoined.mono moves.sound ext
  have hmeaning' := hmeaning.mono moves.sound ext
  have outside {r : RowRef} (hr : r ∈ resolved.rowRefs) : r ∈ b.body.rowRefs ∧ r.source ≠ m := by
    obtain ⟨hr, ho⟩ := hresolved.refs r hr
    exact ⟨hr, fun hm => by simp [RowScope.owns, hm] at ho⟩
  refine ⟨moves.trans (ext.toMoves m), hflow', hselector, ?_, fun o ho e he => ?_⟩
  · refine .lambda (by simpa using hflow'.parameter) ⟨hresolved.names, fun r hr => ?_, hresolved.plain⟩
    exact fun hopen => hmeaning'.refs r (outside hr).1 (.tail _ hopen)
  · obtain ⟨u, hu, hsubstituted⟩ := hflow.denote_body hb
      (ho.anti ((moves.trans (ext.toMoves m)).le hp opens)) he
    refine ⟨u, hu, fun v scope hv => ?_⟩
    obtain ⟨⟨rows, hl, hmem⟩, hholds, -⟩ := he
    have hset : Grounded (q'.setting M.catalog (m :: opens)) tables (o.set m entity e.origin) :=
      ho.set hflow'.rowsOf hl hmem
    let row : RowView := (o.set m entity e.origin).view M.catalog tables q'.forest
    let scope' := scope.bind [b.stream.parameter] [e.row]
    -- The references that are left are to rows of enclosing queries.
    have left : Agree tables v scope' resolved row scope' resolved := by
      refine .of_congr (fun _ _ => rfl) (fun r hr => .of_eq ?_) fun hstream => ?_
      · rw [hv]
        exact (OpenRows.read_set_ne _ _ _ _ _ _ (outside hr).2).symm
      · rw [hresolved.plain] at hstream
        cases hstream
    have reads : RowScope.Reads ⟨b.stream.parameter, [m]⟩ q.forest row scope' e.row b.body := by
      intro r hr howns
      have hm : r.source = m := by simpa [RowScope.owns] using howns
      obtain ⟨hsource, hmember⟩ := Progress.source_of_refs (hmeaning'.refs r hr (hm ▸ .head _)).1
      refine ⟨List.lookup_cons_self, fun path hpath => ?_⟩
      rw [← hnames.forest] at hpath
      rw [hholds r.node path (hsource.trans hm) hpath, hmember]
      exact OpenRows.read_set_self _ _ _ _ _ _ hm
    have meant := hmeaning'.eval q'.forest _ scope' (.refl _) (.refl _ _) hset
    have agree := hresolved.agree tables row scope' e.row (congrArg Forest.rowPath? hnames.forest) reads
    exact (agree.trans left.symm).value.eq_ok (meant.trans hsubstituted)

end Bodies

section Sorted

variable {α : Type} {op : Operator} {source key : Argument} {row k : α → Value} {l : List α}

/-- The elements in the order of their keys. -/
def Operator.sorted (op : Operator) (k : α → Value) (l : List α) : List α :=
  if op = .orderBy then sortAscending (fun a b => (k a).sortsBefore (k b)) l
  else sortDescending (fun a b => (k a).sortsBefore (k b)) l

theorem Operator.mem_sorted (op : Operator) (k : α → Value) {l : List α} {a : α} :
    a ∈ op.sorted k l ↔ a ∈ l := by
  unfold Operator.sorted
  split
  · exact (sortAscending_perm _ l).mem_iff
  · exact (sortDescending_perm _ l).mem_iff

/-- Ordering rows orders what they belong to. -/
theorem evalOperator_sorted (hop : op = .orderBy ∨ op = .orderByDescending)
    (hs : source.value () = .ok (.list (l.map row)))
    (hk : ∀ a ∈ l, key.apply [row a] = .ok (k a)) :
    evalOperator op [source, key] = .ok (.list ((op.sorted k l).map row)) := by
  rcases hop with rfl | rfl
  · simp only [evalOperator, Argument.rows, hs]
    change (do
      let keyed ← keyRows key (l.map row)
      return Value.list ((sortAscending (fun (a b : Value × Value) => a.1.sortsBefore b.1) keyed).map Prod.snd)) = _
    rw [keyRows_map hk]
    change Except.ok (Value.list _) = _
    rw [sortAscending_map, List.map_map]
    rfl
  · simp only [evalOperator, Argument.rows, hs]
    change (do
      let keyed ← keyRows key (l.map row)
      return Value.list ((sortDescending (fun (a b : Value × Value) => a.1.sortsBefore b.1) keyed).map Prod.snd)) = _
    rw [keyRows_map hk]
    change Except.ok (Value.list _) = _
    rw [sortDescending_map, List.map_map]
    rfl

end Sorted

section Operators

theorem filter_map_congr {α β : Type} {f : α → β} {q : α → Bool} {r : β → Bool} {l : List α}
    (h : ∀ a ∈ l, r (f a) = q a) : (l.map f).filter r = (l.filter q).map f := by
  rw [List.filter_map]
  exact congrArg (List.map f) (List.filter_congr h)

/-- An operator that answers some of the rows of a stream, in some order, and does so with the
values that the rows stand for, too. -/
theorem Flows.operate {c : Catalog} {op : Operator} {l : Expr} {value' : OpenRows → Outcome Value}
    (h : Flows c tables p opens m entity s element value) (hop : op.yieldsRows = true)
    (hl : l.Settled p.names (p.Allows c opens)) (note : Option CallNote) (ordered : Bool)
    (hrows : ∀ o, Grounded (p.setting c opens) tables o → ∀ entries : List Entry,
      (∀ e ∈ entries, e.Fits c tables p.forest m entity s.selector o) →
      value o = .ok (.list (entries.map (·.value))) → ∃ kept : List Entry,
        (∀ e ∈ kept, e ∈ entries) ∧ value' o = .ok (.list (kept.map (·.value))) ∧
        ∀ v scope (source : Argument), v.row = o.read c tables →
          source.value () = .ok (.list (entries.map (·.row))) →
          evalOperator op [source, ⟨fun _ => l.evalIn tables v scope, l.applyIn tables v scope⟩] =
            .ok (.list (kept.map (·.row)))) :
    Flows c tables p opens m entity
      { s with rows := .call op [s.rows, l] note, ordered := ordered } element value' where
  sources := h.sources
  range := h.range
  own := h.own
  rowsOf := h.rowsOf
  cardinality := h.cardinality
  parameter := h.parameter
  settled := .call fun a ha => by
    simp only [List.mem_cons, List.not_mem_nil, or_false] at ha
    rcases ha with rfl | rfl
    · exact h.settled
    · exact hl
  sequence := by simp only [isSequence, hop, Bool.true_or]
  selector := h.selector
  rows o ho := by
    obtain ⟨entries, hrows', hfits, hvalue⟩ := h.rows o ho
    obtain ⟨kept, hkept, hvalue', heval⟩ := hrows o ho entries hfits hvalue
    refine ⟨kept, fun v scope hv => ?_, fun e he => hfits e (hkept e he), hvalue'⟩
    exact heval v scope ⟨fun _ => s.rows.evalIn tables v scope, s.rows.applyIn tables v scope⟩ hv
      (hrows' v scope hv)

variable {e : Expr}

theorem ResolvesTo.filter (h : ResolvesTo M tables p p' opens m entity s element
      (fun o => e.denote M.catalog tables o [] []) x body b)
    (hshape : ∀ o, (p'.setting M.catalog opens).Within o →
      Shape.element (e.shape? M.catalog o []) = element) (note : Option CallNote) :
    Flows M.catalog tables p' opens m entity
      { b.stream with rows := .call .filter [b.stream.rows, b.toLambda] note, ordered := false } element
      fun o => (Expr.call .filter [e, .lambda [x] body] note).denote M.catalog tables o [] [] := by
  refine h.flows.operate rfl h.settled note false fun o ho entries hfits hvalue => ?_
  rw [h.selector] at hfits
  let holds (a : Entry) : Bool :=
    Outcome.isTrue (body.denote M.catalog tables o [(x, element)] [(x, a.value)])
  refine ⟨entries.filter holds, fun a ha => List.mem_of_mem_filter ha, ?_, fun v scope source hv hs => ?_⟩
  · refine (denote_filter note hvalue (hshape o ho.entity) fun row hrow => ?_).trans ?_
    · obtain ⟨a, ha, rfl⟩ := List.mem_map.1 hrow
      obtain ⟨u, hu, -⟩ := h.applies o ho a (hfits a ha)
      exact ⟨u, hu⟩
    · exact congrArg (Except.ok <| Value.list ·) (filter_map_congr fun a _ => rfl)
  · have applied : ∀ a ∈ entries, ∃ u,
        body.denote M.catalog tables o [(x, element)] [(x, a.value)] = .ok u ∧
          b.toLambda.applyIn tables v scope [a.row] = .ok u := by
      intro a ha
      obtain ⟨u, hu, happly⟩ := h.applies o ho a (hfits a ha)
      exact ⟨u, hu, happly v scope hv⟩
    refine (evalOperator_filter hs fun row hrow => ?_).trans ?_
    · obtain ⟨a, ha, rfl⟩ := List.mem_map.1 hrow
      obtain ⟨u, -, happly⟩ := applied a ha
      exact ⟨u, happly⟩
    · refine congrArg (Except.ok <| Value.list ·) (filter_map_congr fun a ha => ?_)
      obtain ⟨u, hu, happly⟩ := applied a ha
      simp only [holds, hu, happly]

theorem denote_order {c : Catalog} {o : OpenRows} {op : Operator} {α : Type} {l : List α}
    {row k : α → Value} (hop : op = .orderBy ∨ op = .orderByDescending) (note : Option CallNote)
    (hs : e.denote c tables o [] [] = .ok (.list (l.map row)))
    (he : Shape.element (e.shape? c o []) = element)
    (hk : ∀ a ∈ l, body.denote c tables o [(x, element)] [(x, row a)] = .ok (k a)) :
    (Expr.call op [e, .lambda [x] body] note).denote c tables o [] [] =
      .ok (.list ((op.sorted k l).map row)) := by
  subst he
  have hdenote (arguments : List Argument) : denoteOperator op arguments = evalOperator op arguments := by
    rcases hop with rfl | rfl <;> rfl
  rw [Expr.denote, hdenote]
  exact evalOperator_sorted hop hs hk

theorem ResolvesTo.order {op : Operator} (hop : op = .orderBy ∨ op = .orderByDescending)
    (h : ResolvesTo M tables p p' opens m entity s element
      (fun o => e.denote M.catalog tables o [] []) x body b)
    (hshape : ∀ o, (p'.setting M.catalog opens).Within o →
      Shape.element (e.shape? M.catalog o []) = element) (note : Option CallNote) :
    Flows M.catalog tables p' opens m entity
      { b.stream with rows := .call op [b.stream.rows, b.toLambda] none, ordered := true } element
      fun o => (Expr.call op [e, .lambda [x] body] note).denote M.catalog tables o [] [] := by
  have hyields : op.yieldsRows = true := by rcases hop with rfl | rfl <;> rfl
  refine h.flows.operate hyields h.settled none true fun o ho entries hfits hvalue => ?_
  rw [h.selector] at hfits
  -- The key of an entry is the same value in the stream and in the query.
  let key (a : Entry) : Value :=
    (body.denote M.catalog tables o [(x, element)] [(x, a.value)]).toOption.getD .null
  have keyed : ∀ a ∈ entries,
      body.denote M.catalog tables o [(x, element)] [(x, a.value)] = .ok (key a) ∧
        ∀ v scope, v.row = o.read M.catalog tables →
          b.toLambda.applyIn tables v scope [a.row] = .ok (key a) := by
    intro a ha
    obtain ⟨u, hu, happly⟩ := h.applies o ho a (hfits a ha)
    simp only [key, hu]
    exact ⟨rfl, happly⟩
  refine ⟨op.sorted key entries, fun a ha => (op.mem_sorted key).1 ha, ?_, fun v scope source hv hs => ?_⟩
  · exact denote_order hop note hvalue (hshape o ho.entity) fun a ha => (keyed a ha).1
  · exact evalOperator_sorted hop hs fun a ha => (keyed a ha).2 v scope hv

theorem denote_select {c : Catalog} {o : OpenRows} {items : List Value} {image : Value → Value}
    (note : Option CallNote) (hs : e.denote c tables o [] [] = .ok (.list items))
    (he : Shape.element (e.shape? c o []) = element)
    (hb : ∀ v ∈ items, body.denote c tables o [(x, element)] [(x, v)] = .ok (image v)) :
    (Expr.call .select [e, .lambda [x] body] note).denote c tables o [] [] =
      .ok (.list (items.map image)) := by
  subst he
  rw [Expr.denote]
  change evalOperator .select [⟨fun _ => e.denote c tables o [] [], _⟩, _] = _
  simp only [evalOperator, Argument.rows, hs]
  change (do return Value.list (← mapRows _ items)) = _
  rw [← List.map_id items, mapRows_map hb, List.map_id]
  rfl

/-- A new selector projects the rows of a stream to its values. -/
theorem Flows.project {c : Catalog} {d : Expr} {o' : Stream}
    (h : Flows c tables p opens m entity s element fun o => e.denote c tables o [] [])
    (hb : HasShape (p.setting c opens) .raw n [(x, element)] body t)
    (hd : Stands (p.setting c (m :: opens)) tables .ready false [] (body.substitute x s.selector) d t)
    (hshape : ∀ o, (p.setting c opens).Within o → Shape.element (e.shape? c o []) = element)
    (hframe : o'.sources = s.sources ∧ o'.rows = s.rows ∧ o'.cardinality = s.cardinality ∧
      o'.parameter = s.parameter) (hselector : o'.selector = d) (note : Option CallNote) :
    Flows c tables p opens m entity o' t
      fun o => (Expr.call .select [e, .lambda [x] body] note).denote c tables o [] [] := by
  obtain ⟨hsources, hrows, hcardinality, hparameter⟩ := hframe
  refine {
    sources := hsources.trans h.sources
    range := h.range
    own := h.own
    rowsOf := h.rowsOf
    cardinality := hcardinality.trans h.cardinality
    parameter := hparameter ▸ h.parameter
    settled := hrows ▸ h.settled
    sequence := hrows ▸ h.sequence
    selector := hselector ▸ hd.typed
    rows := fun o ho => ?_ }
  obtain ⟨entries, hrows', hfits, hvalue⟩ := h.rows o ho
  let image (v : Value) : Value :=
    (body.denote c tables o [(x, element)] [(x, v)]).toOption.getD .null
  have projected : ∀ a ∈ entries,
      body.denote c tables o [(x, element)] [(x, a.value)] = .ok (image a.value) ∧
        d.denote c tables (o.set m entity a.origin) [] [] = .ok (image a.value) := by
    intro a ha
    obtain ⟨u, hu, hsubstituted⟩ := h.denote_body hb ho (hfits a ha)
    obtain ⟨⟨rows, hl, hmem⟩, -, -⟩ := hfits a ha
    simp only [image, hu]
    exact ⟨rfl, (hd.same _ [] (ho.set h.rowsOf hl hmem) (.nil tables [])).trans hsubstituted⟩
  refine ⟨entries.map fun a => { a with value := image a.value }, fun v scope hv => ?_, ?_, ?_⟩
  · rw [hrows, hrows' v scope hv, List.map_map]
    rfl
  · intro a' ha'
    obtain ⟨a, ha, rfl⟩ := List.mem_map.1 ha'
    exact ⟨(hfits a ha).origin, (hfits a ha).holds, hselector ▸ (projected a ha).2⟩
  · have images : ∀ v ∈ entries.map (·.value),
        body.denote c tables o [(x, element)] [(x, v)] = .ok (image v) := by
      intro v hv
      obtain ⟨a, ha, rfl⟩ := List.mem_map.1 hv
      exact (projected a ha).1
    rw [denote_select note hvalue (hshape o ho.entity) images, List.map_map, List.map_map]
    rfl

theorem aliasFields_run {u : Unit} (hp : p.forest.Sound M.catalog)
    (h : Runs (aliasFields e) M p u p') : Extends M.catalog p p' := by
  unfold aliasFields at h
  split at h
  · next fields =>
    induction fields generalizing p with
    | nil =>
      obtain ⟨-, rfl⟩ := Runs.pure_iff.1 h
      exact .refl hp
    | cons field fields ih =>
      obtain ⟨_, q, hfield, h⟩ :=
        Runs.bind_iff.1 (show Runs (_ >>= fun _ => fields.forM _) M p u p' from h)
      have ext : Extends M.catalog p q := by
        dsimp only at hfield
        split at hfield
        · next r _ =>
          obtain rfl := Runs.modifyForest_iff.1 hfield
          obtain ⟨later, paths⟩ := Forest.later_addAlias p.forest r.node [field.1]
          exact ⟨⟨later.sound hp, later.grows, Nat.le_refl _⟩, paths.mono fun _ _ => trivial⟩
        · obtain ⟨-, rfl⟩ := Runs.pure_iff.1 hfield
          exact .refl hp
      exact ext.trans (ih ext.sound h)
  · obtain ⟨-, rfl⟩ := Runs.pure_iff.1 h
    exact .refl hp

end Operators

end EntityQuery
