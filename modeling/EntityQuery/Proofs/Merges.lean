import EntityQuery.Proofs.Renaming
import EntityQuery.Proofs.Simulation

/-!
# Merged streams

A merge of two streams pairs every outer row with inner rows (`mergeStreams_combines`): with those whose
key matches, in a left outer join with null if there are none, or with the rows that the inner stream has
at this outer row. In the new row everything that was read from the outer row can be read as before, and
everything that was read from the inner one, too.

Two things are in the way of that. A source that is listed twice is wrapped twice, and the new name that
inner rows get may be one that their key binds itself.
-/

namespace EntityQuery

open EntityQuery.Expr

section Forests

variable {f : Forest} {outer inner sources : List SourceId} {path : List String} {kind : JoinKind}
  {n : NodeId} {row old : Value}

namespace Forest

/-- That rows can be missing does not change where they are. -/
theorem rowPath?_wrapOptional (f : Forest) (sources : List SourceId) (path : List String) (n : NodeId) :
    (sources.foldl (fun f m => (f.wrap path m).makeOptional m) f).rowPath? n =
      (sources.foldl (·.wrap path) f).rowPath? n := by
  have outside (sources : List SourceId) (m : SourceId) (f : Forest) :
      sources.foldl (·.wrap path) (f.makeOptional m) = (sources.foldl (·.wrap path) f).makeOptional m := by
    induction sources generalizing f with
    | nil => rfl
    | cons k sources ih => exact ih (f.wrap path k)
  induction sources generalizing f with
  | nil => rfl
  | cons m sources ih =>
    rw [List.foldl_cons, ih, outside, rowPath?_makeOptional, List.foldl_cons]

/-- After a merge the outer rows are found where its kind puts them, and the inner rows beside them. -/
theorem Dated.rowPath?_merged (hf : f.Dated) (hs : (outer ++ inner).Nodup)
    (hrange : ∀ m ∈ outer ++ inner, m.index < f.sources.length) (kind : JoinKind) (n : NodeId) :
    (f.merged outer inner kind).rowPath? n =
      if (f.node n).source ∈ inner then (f.rowPath? n).map ([innerField] ++ ·)
      else if (f.node n).source ∈ outer then (f.rowPath? n).map (kind.wrapPath ++ ·)
      else f.rowPath? n := by
  let g := outer.foldl (·.wrap kind.wrapPath) f
  have hnode : g.node n = f.node n := by
    rw [node, nodes_wrapAll]
    rfl
  have merged : (f.merged outer inner kind).rowPath? n =
      (inner.foldl (·.wrap [innerField]) g).rowPath? n := by
    cases kind with
    | inner => rfl
    | leftOuter => exact rowPath?_wrapOptional g inner [innerField] n
  obtain ⟨houter, hinner, hdisjoint⟩ := List.nodup_append.1 hs
  have hg : ∀ m ∈ inner, m.index < g.sources.length := by
    intro m hm
    rw [sources_wrapAll]
    exact hrange m (List.mem_append_right _ hm)
  rw [merged, (hf.wrapAll outer kind.wrapPath).rowPath?_wrapAll hinner hg, hnode,
    hf.rowPath?_wrapAll houter fun m hm => hrange m (List.mem_append_left _ hm)]
  by_cases h : (f.node n).source ∈ inner
  · rw [if_pos h, if_pos h, if_neg fun h' => hdisjoint _ h' _ h rfl]
  · rw [if_neg h, if_neg h]

theorem Dated.reads_merged_outer (hf : f.Dated) (hs : (outer ++ inner).Nodup)
    (hrange : ∀ m ∈ outer ++ inner, m.index < f.sources.length) (hn : (f.node n).source ∈ outer)
    (h : ∀ rest, row.at (kind.wrapPath ++ rest) = old.at rest) :
    (f.merged outer inner kind).reads n row = f.reads n old := by
  have hinner : (f.node n).source ∉ inner := fun h => (List.nodup_append.1 hs).2.2 _ hn _ h rfl
  rw [reads, hf.rowPath?_merged hs hrange, if_neg hinner, if_pos hn, Option.map_map]
  exact congrArg (Option.map · (f.rowPath? n)) (funext h)

theorem Dated.reads_merged_inner (hf : f.Dated) (hs : (outer ++ inner).Nodup)
    (hrange : ∀ m ∈ outer ++ inner, m.index < f.sources.length) (hn : (f.node n).source ∈ inner)
    (h : ∀ rest, row.at (innerField :: rest) = old.at rest) :
    (f.merged outer inner kind).reads n row = f.reads n old := by
  rw [reads, hf.rowPath?_merged hs hrange, if_pos hn, Option.map_map]
  exact congrArg (Option.map · (f.rowPath? n)) (funext h)

end Forest

end Forests

/-- How a merge joins. -/
def StreamJoin.kind : StreamJoin → JoinKind
  | .keyed _ _ note => note.kind
  | .correlated => .inner

/-- The names that occur in the key of the inner rows. -/
def StreamJoin.innerNames : StreamJoin → List String
  | .keyed _ innerKey _ => innerKey.names
  | .correlated => []

/-- A key matches another one if nothing in it is null and they are equal. -/
def Value.matchesKey (key other : Value) : Bool := !key.hasNull && key.equals other

theorem matchingRows_filter (key : Value) (l : Value → Value) (rows : List Value) :
    matchingRows key (rows.map fun t => (l t, t)) = rows.filter fun t => key.matchesKey (l t) := by
  rw [matchingRows]
  split
  · next h => simp [Value.matchesKey, h]
  · next h =>
    rw [List.filter_map, List.map_map]
    refine (List.map_id' _).trans (List.filter_congr fun t _ => ?_)
    simp [Value.matchesKey, h]

/-- The names that a merge generates: for the inner rows if the streams name their rows alike, for the
groups of a left outer join, and for the new rows. -/
def mergeNames (p : Progress) (outer inner : Stream) (kind : JoinKind) : List String :=
  let renamed := renamedRows outer inner p.names
  let grouping := kind.names (p.names + renamed.length)
  renamed ++ grouping ++ [generatedName 't' (p.names + renamed.length + grouping.length + 1)]

/-- The inner rows that a merge finds for each outer row. -/
inductive Finds (tables : Tables) (scope : Scope) (outer inner : Stream) (rows : List Value) :
    StreamJoin → (Value → List Value) → Prop where
  | keyed {outerKey innerKey : Expr} {note : JoinNote} {innerRows : List Value} {k l : Value → Value}
    (evaluated : inner.rows.eval tables scope = .ok (.list innerRows))
    (outerKeys : ∀ w ∈ rows, outerKey.eval tables (scope.bind [outer.parameter] [w]) = .ok (k w))
    (innerKeys : ∀ t ∈ innerRows, innerKey.eval tables (scope.bind [inner.parameter] [t]) = .ok (l t)) :
    Finds tables scope outer inner rows (.keyed outerKey innerKey note) fun w =>
      innerRows.filter fun t => (k w).matchesKey (l t)
  | correlated {innerRows : Value → List Value}
    (evaluated : ∀ w ∈ rows,
      inner.rows.eval tables (scope.bind [outer.parameter] [w]) = .ok (.list (innerRows w))) :
    Finds tables scope outer inner rows .correlated innerRows

/-- Two streams of different sources, of which the outer one evaluates to rows. -/
structure Mergeable (tables : Tables) (scope : Scope) (p : Progress) (outer inner : Stream)
    (join : StreamJoin) (rows : List Value) : Prop where
  built : p.forest.Built
  disjoint : outer.sources.Disjoint inner.sources
  range : ∀ m ∈ outer.sources ++ inner.sources, m.index < p.forest.sources.length
  freshOuter : outer.parameter ∉ mergeNames p outer inner join.kind
  freshInner : inner.parameter ∉ mergeNames p outer inner join.kind
  evaluated : outer.rows.eval tables scope = .ok (.list rows)

/-- The new rows are pairs of outer rows and their partners, in order. From a new row the nodes of the
outer stream are read as from the outer row, and those of the inner stream as from the partner; all of them
are null if the partner is missing. -/
def Combines (tables : Tables) (scope : Scope) (p p' : Progress) (outer inner : Stream) (merged : Expr)
    (kind : JoinKind) (rows : List Value) (found : Value → List Value) : Prop :=
  ∃ extend : Value → Value → Value,
    merged.eval tables scope =
      .ok (.list (rows.flatMap fun w => (kind.partners (found w)).map (extend w))) ∧
    ∀ w ∈ rows, ∀ t ∈ kind.partners (found w),
      (∀ n, (p.forest.node n).source ∈ outer.sources →
        p'.forest.reads n (extend w t) = p.forest.reads n w) ∧
      (∀ n, (p.forest.node n).source ∈ inner.sources →
        p'.forest.reads n (extend w t) = p.forest.reads n t ∧
          (found w = [] → (p.forest.rowPath? n).isSome = true →
            p'.forest.reads n (extend w t) = some (.ok .null)))

section Merge

variable {M : Model} {tables : Tables} {scope : Scope} {p p' : Progress} {outer inner : Stream}
  {join : StreamJoin} {m : MergedStreams} {rows : List Value} {found : Value → List Value}

/-- A merge generates the names that it is said to generate, and the last of them names the new rows. -/
theorem mergeStreams_names (h : Runs (mergeStreams outer inner join) M p m p') :
    p'.names = p.names + (mergeNames p outer inner join.kind).length ∧
      (mergeNames p outer inner join.kind).getLast? = some m.stream.parameter := by
  have length (kind : JoinKind) : (mergeNames p outer inner kind).length =
      (renamedRows outer inner p.names).length +
        (kind.names (p.names + (renamedRows outer inner p.names).length)).length + 1 := by
    simp only [mergeNames, List.length_append, List.length_cons, List.length_nil]
  cases join with
  | keyed outerKey innerKey note =>
    obtain ⟨_, q, q', -, hq, hjoin, rfl, -, hnames⟩ := Runs.mergeStreams_keyed h
    have hq' : q'.names = q.names + (note.kind.names q.names).length := by
      rw [Runs.keyedJoin_progress hjoin]
    rw [length, mergeNames, List.getLast?_concat, hnames, hq', hq]
    exact ⟨by simp only [StreamJoin.kind]; omega, rfl⟩
  | correlated =>
    obtain ⟨names, hq, rfl, -, hnames⟩ := Runs.mergeStreams_correlated h
    rw [length, mergeNames, List.getLast?_concat, hnames, hq]
    exact ⟨rfl, rfl⟩

/-- What a merge does to the forest. -/
theorem mergeStreams_forest (h : Runs (mergeStreams outer inner join) M p m p') :
    p'.forest = p.forest.merged outer.sources inner.sources join.kind := by
  cases join with
  | keyed outerKey innerKey note =>
    obtain ⟨_, q, q', hq, -, hjoin, -, hforest, -⟩ := Runs.mergeStreams_keyed h
    rw [hforest, (Runs.keyedJoin_cases hjoin).1, hq]
    rfl
  | correlated =>
    obtain ⟨_, -, -, hforest, -⟩ := Runs.mergeStreams_correlated h
    exact hforest

/-- A merge has the sources of both streams. -/
theorem mergeStreams_sources (h : Runs (mergeStreams outer inner join) M p m p') :
    m.stream.sources = outer.sources ++ inner.sources := by
  cases join with
  | keyed outerKey innerKey note =>
    obtain ⟨_, _, _, -, -, -, rfl, -⟩ := Runs.mergeStreams_keyed h
    rfl
  | correlated =>
    obtain ⟨_, -, rfl, -⟩ := Runs.mergeStreams_correlated h
    rfl

/-- The outer rows and the inner ones have different names in a merge, and neither name is generated for
something else. -/
theorem Mergeable.names (h : Mergeable tables scope p outer inner join rows) :
    let k := p.names + (renamedRows outer inner p.names).length
    outer.parameter ≠ mergedName outer inner p.names ∧ outer.parameter ∉ join.kind.names k ∧
      mergedName outer inner p.names ∉ join.kind.names k := by
  intro k
  have hout := h.freshOuter
  have hinn := h.freshInner
  simp only [mergeNames, List.mem_append, not_or] at hout hinn
  refine ⟨?_, hout.1.2, ?_⟩
  · by_cases hclash : inner.parameter = outer.parameter
    · have hmem := hout.1.1
      rw [renamedRows, if_pos hclash] at hmem
      exact List.ne_of_not_mem_cons hmem
    · rw [mergedName, if_neg hclash]
      exact Ne.symm hclash
  · by_cases hclash : inner.parameter = outer.parameter
    · have hk : k = p.names + 1 := by simp only [k, renamedRows, if_pos hclash, List.length_singleton]
      rw [mergedName, if_pos hclash, hk]
      cases join.kind with
      | inner => exact List.not_mem_nil
      | leftOuter =>
        -- Numbers that follow each other closely end in different digits.
        simp only [JoinKind.names, List.mem_cons, List.not_mem_nil, or_false, not_or]
        exact ⟨append_number_ne (by omega), append_number_ne (by omega)⟩
    · rw [mergedName, if_neg hclash]
      exact hinn.1.2

/-- The key of the inner rows has the same value by their name in the merge. -/
theorem mergedKey_eval {innerKey : Expr} {t v : Value} {k : Nat}
    (hcapture : inner.parameter = outer.parameter → mergedName outer inner k ∉ innerKey.names)
    (h : innerKey.eval tables (scope.bind [inner.parameter] [t]) = .ok v) :
    (mergedKey outer inner k innerKey).eval tables (scope.bind [mergedName outer inner k] [t]) = .ok v := by
  by_cases hclash : inner.parameter = outer.parameter
  · rw [mergedKey, if_pos hclash]
    refine (Concurs.rename (hcapture hclash) fun x hx => ?_).value.eq_ok h
    change List.lookup x ((inner.parameter, t) :: scope) =
      List.lookup _ ((mergedName outer inner k, t) :: scope)
    by_cases hold : x = inner.parameter
    · rw [if_pos hold, hold, List.lookup_cons_self, List.lookup_cons_self]
    · rw [if_neg hold, List.lookup_cons, List.lookup_cons, beq_false_of_ne hold, beq_false_of_ne hx]
  · rw [mergedKey, mergedName, if_neg hclash, if_neg hclash]
    exact h

/-- A merge by keys makes rows of all outer rows and those that their keys match. -/
theorem mergeStreams_keyed_eval {outerKey innerKey : Expr} {note : JoinNote} {innerRows : List Value}
    {k l : Value → Value} (h : Runs (mergeStreams outer inner (.keyed outerKey innerKey note)) M p m p')
    (hm : Mergeable tables scope p outer inner (.keyed outerKey innerKey note) rows)
    (hinner : inner.rows.eval tables scope = .ok (.list innerRows))
    (hk : ∀ w ∈ rows, outerKey.eval tables (scope.bind [outer.parameter] [w]) = .ok (k w))
    (hl : ∀ t ∈ innerRows, innerKey.eval tables (scope.bind [inner.parameter] [t]) = .ok (l t))
    (hcapture : inner.parameter = outer.parameter → mergedName outer inner p.names ∉ innerKey.names) :
    m.stream.rows.eval tables scope = .ok (.list (rows.flatMap fun w =>
      note.kind.joined w (innerRows.filter fun t => (k w).matchesKey (l t)))) := by
  obtain ⟨e, q, q', -, hq, hjoin, rfl, -, -⟩ := Runs.mergeStreams_keyed h
  obtain ⟨hne, hout, hinn⟩ := hm.names
  rw [← hq] at hout hinn
  have joined := Runs.eval_keyedJoin hjoin hne hout hinn hm.evaluated hinner hk fun t ht =>
    mergedKey_eval hcapture (hl t ht)
  simp only [matchingRows_filter] at joined
  exact joined

/-- A merge of correlated rows makes rows of all outer rows and their inner rows. -/
theorem mergeStreams_correlated_eval {innerRows : Value → List Value}
    (h : Runs (mergeStreams outer inner .correlated) M p m p')
    (hm : Mergeable tables scope p outer inner .correlated rows)
    (hinner : ∀ w ∈ rows,
      inner.rows.eval tables (scope.bind [outer.parameter] [w]) = .ok (.list (innerRows w))) :
    m.stream.rows.eval tables scope = .ok (.list (rows.flatMap fun w =>
      JoinKind.inner.joined w (innerRows w))) := by
  obtain ⟨_, -, rfl, -, -⟩ := Runs.mergeStreams_correlated h
  exact (reading_eval tables scope).correlatedJoin (.lambda [outer.parameter] inner.rows) hm.names.1
    (Argument.rows_of_value hm.evaluated) hinner

/-- A merge keeps both streams readable. -/
theorem mergeStreams_combines (h : Runs (mergeStreams outer inner join) M p m p')
    (hm : Mergeable tables scope p outer inner join rows)
    (hfound : Finds tables scope outer inner rows join found)
    (houter : outer.sources.Nodup) (hinner : inner.sources.Nodup)
    (hcapture : inner.parameter = outer.parameter → mergedName outer inner p.names ∉ join.innerNames) :
    Combines tables scope p p' outer inner m.stream.rows join.kind rows found := by
  have hs : (outer.sources ++ inner.sources).Nodup :=
    List.nodup_append.2 ⟨houter, hinner, fun _ ha _ hb heq => hm.disjoint ha (heq ▸ hb)⟩
  have hforest := mergeStreams_forest h
  have eval : m.stream.rows.eval tables scope =
      .ok (.list (rows.flatMap fun w => join.kind.joined w (found w))) := by
    cases hfound with
    | keyed evaluated outerKeys innerKeys =>
      exact mergeStreams_keyed_eval h hm evaluated outerKeys innerKeys hcapture
    | correlated evaluated => exact mergeStreams_correlated_eval h hm evaluated
  refine ⟨fun w => join.kind.extend (found w) w, eval, fun w _ t ht => ⟨fun n hn => ?_, fun n hn => ?_⟩⟩
  · rw [hforest]
    exact hm.built.dated.reads_merged_outer hs hm.range hn fun _ => JoinKind.at_extend ..
  · have read : p'.forest.reads n (join.kind.extend (found w) w t) = p.forest.reads n t := by
      rw [hforest]
      exact hm.built.dated.reads_merged_inner hs hm.range hn fun _ => JoinKind.inner_extend ..
    refine ⟨read, fun hnone hpresent => ?_⟩
    obtain rfl : t = .null := by
      rcases JoinKind.mem_partners ht with ht | ht
      · exact ht
      · rw [hnone] at ht
        cases ht
    rw [read, Forest.reads_null hpresent]

end Merge

namespace Shop

/-- Where customers are the rows of two sources. -/
def pairs : Progress where
  forest := ((Forest.empty.addSource "Customer" false).2.addSource "Customer" false).2

def note (kind : JoinKind) : JoinNote where
  kind
  targetEntity := none
  navigation := none
  outerKey := []
  innerKey := []
  outerNullGuard := false

/-- Customers by the customers that they have been referred by. -/
def byReferrer : StreamJoin :=
  .keyed (.member (.param "c") "ReferrerId") (.member (.param "c") "Id") (note .leftOuter)

/-- Customers by the number of customers with their number, which is one. The key binds `c1`. -/
def byCount : StreamJoin :=
  .keyed (.const (.integer 1))
    (.call .count [.call .filter [.entitySet "Customer",
      .lambda ["c1"] (.eq (.member (.param "c1") "Id") (.member (.param "c") "Id"))] none] none)
    (note .inner)

theorem mergeable_customers {sources : List SourceId} (h : ∀ m ∈ sources, m = ⟨0⟩) (join : StreamJoin) :
    Mergeable tables [] pairs (customers sources) (customers [⟨1⟩]) join [ann, bob] := by
  have fresh (kind : JoinKind) : "c" ∉ mergeNames pairs (customers sources) (customers [⟨1⟩]) kind := by
    change "c" ∉ mergeNames pairs (customers []) (customers []) kind
    revert kind
    rintro (_ | _) <;> decide
  refine ⟨.addSource (.addSource .empty _ _) _ _, ?_, ?_, fresh _, fresh _, rfl⟩
  · intro m hm hm'
    cases h m hm
    revert hm'
    decide
  · intro m hm
    rcases List.mem_append.1 hm with hm | hm
    · exact h m hm ▸ Nat.zero_lt_two
    · exact List.mem_singleton.1 hm ▸ Nat.one_lt_two

end Shop

/-- The customers with their referrers once more, as a join of two streams that name their rows alike. -/
theorem mergeStreams_byReferrer :
    ∃ m p', Runs (mergeStreams (Shop.customers [⟨0⟩]) (Shop.customers [⟨1⟩]) Shop.byReferrer)
        ⟨Shop.catalog, {}⟩ Shop.pairs m p' ∧
      Combines Shop.tables [] Shop.pairs p' (Shop.customers [⟨0⟩]) (Shop.customers [⟨1⟩]) m.stream.rows
        .leftOuter [Shop.ann, Shop.bob] fun w => [Shop.ann, Shop.bob].filter fun t =>
          (w.column "ReferrerId").matchesKey (t.column "Id") := by
  obtain ⟨m, p', h⟩ : ∃ m p', Runs (mergeStreams (Shop.customers [⟨0⟩]) (Shop.customers [⟨1⟩])
      Shop.byReferrer) ⟨Shop.catalog, {}⟩ Shop.pairs m p' := ⟨_, _, rfl⟩
  refine ⟨m, p', h, mergeStreams_combines h (Shop.mergeable_customers (by decide) _) (.keyed rfl ?_ ?_)
    (by decide) (by decide) fun _ => by decide⟩
  all_goals
    simp only [List.forall_mem_cons]
    exact ⟨rfl, rfl, nofun⟩

/-- A merge of customers with customers finds rows and does not combine them. -/
def Shop.Unreadable (sources : List SourceId) (join : StreamJoin) (found : Value → List Value) : Prop :=
  ∃ m p', Runs (mergeStreams (customers sources) (customers [⟨1⟩]) join) ⟨catalog, {}⟩ pairs m p' ∧
    Mergeable tables [] pairs (customers sources) (customers [⟨1⟩]) join [ann, bob] ∧
    Finds tables [] (customers sources) (customers [⟨1⟩]) [ann, bob] join found ∧
    ¬ Combines tables [] pairs p' (customers sources) (customers [⟨1⟩]) m.stream.rows join.kind [ann, bob]
      found

/-- A source that is listed twice is lost, and so is the row of a key that binds its new name. -/
theorem mergeStreams_unreadable :
    Shop.Unreadable [⟨0⟩, ⟨0⟩] .correlated (fun _ => [Shop.ann, Shop.bob]) ∧
      Shop.Unreadable [⟨0⟩] Shop.byCount fun _ =>
        [Shop.ann, Shop.bob].filter fun _ => (Value.int 1).matchesKey (.int 1) := by
  constructor
  · refine ⟨_, _, rfl, Shop.mergeable_customers (by decide) _, .correlated fun _ _ => rfl, ?_⟩
    rintro ⟨extend, hrows, hreads⟩
    have hrows : (Except.ok (.list [pairValue Shop.ann Shop.ann, pairValue Shop.ann Shop.bob,
        pairValue Shop.bob Shop.ann, pairValue Shop.bob Shop.bob]) : Outcome Value) =
        .ok (.list [extend Shop.ann Shop.ann, extend Shop.ann Shop.bob, extend Shop.bob Shop.ann,
          extend Shop.bob Shop.bob]) := hrows
    have hann : pairValue Shop.ann Shop.ann = extend Shop.ann Shop.ann :=
      (List.cons.inj (Value.list.inj (Except.ok.inj hrows))).1
    have hread := (hreads Shop.ann (.head _) Shop.ann (.head _)).1 ⟨0⟩ (by decide)
    rw [← hann] at hread
    -- Ann is found under one field, and she is looked for under two.
    have hread : some (Except.error (EvalError.noMember outerField Shop.ann)) =
        some (Except.ok Shop.ann) := hread
    cases hread
  · refine ⟨_, _, rfl, Shop.mergeable_customers (by decide) _, .keyed rfl (fun _ _ => rfl) ?_, ?_⟩
    · simp only [List.forall_mem_cons]
      exact ⟨rfl, rfl, nofun⟩
    · rintro ⟨extend, hrows, -⟩
      -- By the new name the key is two for every customer.
      have hrows : (Except.ok (.list []) : Outcome Value) =
          .ok (.list [extend Shop.ann Shop.ann, extend Shop.ann Shop.bob, extend Shop.bob Shop.ann,
            extend Shop.bob Shop.bob]) := hrows
      cases hrows

end EntityQuery
