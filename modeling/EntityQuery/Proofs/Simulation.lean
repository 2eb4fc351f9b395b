import EntityQuery.Proofs.Histories
import EntityQuery.Proofs.Steps
import EntityQuery.Proofs.Tables

/-!
# Joins simulate navigations

A join along the navigation to a node does on the rows of a stream what following the navigation does
on each of them (`joinNode_simulates`): every row is replaced by one row for each target whose key
matches, or by one row with null if the node is optional and nothing matches. The new row holds the
target for the node, and for every other node of the stream what the old row held.

This is so as long as no source is listed twice in the stream. A source that is listed twice is
wrapped twice by each join, and its rows are looked for too deep (`joinNode_of_repeated`).
-/

namespace EntityQuery

open EntityQuery.Expr

/-- The value is null, or a record with these columns. -/
def Value.HasColumns (columns : List String) : Value → Prop
  | .null => True
  | .record fields => ∀ column ∈ columns, (Value.field? fields column).isSome = true
  | _ => False

instance (columns : List String) (v : Value) : Decidable (v.HasColumns columns) := by
  unfold Value.HasColumns
  split <;> infer_instance

theorem Value.HasColumns.evalMember {columns : List String} {v : Value} (h : v.HasColumns columns)
    {column : String} (hc : column ∈ columns) : evalMember column v = .ok (v.column column) := by
  cases v with
  | null => rfl
  | record fields =>
    obtain ⟨x, hx⟩ := Option.isSome_iff_exists.1 (h column hc)
    simp only [EntityQuery.evalMember, Value.column, hx]
    rfl
  | _ => cases h

/-- How the rows of a node are joined. -/
def Forest.joinKind (f : Forest) (n : NodeId) : JoinKind :=
  if (f.node n).isOptional then .leftOuter else .inner

/-- The names that a join along an edge to a node generates: for the target, for the groups of a left
outer join, and for the new rows. -/
def joinNames (p : Progress) (n : NodeId) (edge : NavigationEdge) : List String :=
  let grouping := (p.forest.joinKind n).names (p.names + 1)
  (rowParameter edge.target ++ toString (p.names + 1)) :: grouping ++
    [generatedName 't' (p.names + 1 + grouping.length + 1)]

/-- The rows that a join pairs with an owner: the targets whose keys match, or null if there are none
and the join keeps the owner all the same. -/
def NavigationEdge.partners (edge : NavigationEdge) (kind : JoinKind) (targets : List Value)
    (owner : Value) : List Value :=
  kind.partners (targets.filter (edge.keysMatch owner))

/-- A stream that evaluates to rows, and a node whose parent can be read from all of them. -/
structure Navigable (tables : Tables) (scope : Scope) (p : Progress) (s : Stream) (n q : NodeId)
    (edge : NavigationEdge) (rows targets : List Value) (owner : Value → Value) : Prop where
  built : p.forest.Built
  range : ∀ m ∈ s.sources, m.index < p.forest.sources.length
  along : (p.forest.node n).edge = some edge
  above : (p.forest.node n).parent = some q
  live : (p.forest.node n).isRemoved = false
  fresh : s.parameter ∉ joinNames p n edge
  evaluated : s.rows.eval tables scope = .ok (.list rows)
  owner : ∀ w ∈ rows, p.forest.reads q w = some (.ok (owner w)) ∧ (owner w).HasColumns edge.sourceKey
  table : tables.lookup edge.target = some targets
  columns : ∀ t ∈ targets, t.HasColumns edge.targetKey

/-- The new rows of a stream are the old ones, each of them extended by its partners in turn. An extended
row holds the partner for the node `n`, and for the other nodes of the stream what the old row held. -/
def Simulates (tables : Tables) (scope : Scope) (p p' : Progress) (s s' : Stream) (n : NodeId)
    (rows : List Value) (partners : Value → List Value) : Prop :=
  ∃ extend : Value → Value → Value,
    s'.rows.eval tables scope = .ok (.list (rows.flatMap fun w => (partners w).map (extend w))) ∧
    ∀ w ∈ rows, ∀ t ∈ partners w,
      (∀ k, k ≠ n → (p.forest.node k).source ∈ s.sources →
        p'.forest.reads k (extend w t) = p.forest.reads k w) ∧
      p'.forest.reads n (extend w t) = some (.ok t)

section Join

variable {M : Model} {tables : Tables} {scope : Scope} {p p' : Progress} {s s' : Stream} {n q : NodeId}
  {edge : NavigationEdge} {rows targets : List Value} {owner : Value → Value}

/-- A join generates the names that it is said to generate, and the last of them names the new rows. -/
theorem joinNode_names (h : Runs (joinNode s n) M p s' p') (hedge : (p.forest.node n).edge = some edge) :
    p'.names = p.names + (joinNames p n edge).length ∧
      (joinNames p n edge).getLast? = some s'.parameter := by
  obtain ⟨_, edge', _, _, _, _, note, _, q', found, rfl, -, hnames⟩ := Runs.joinNode h
  obtain rfl := Option.some.inj (found.along.symm.trans hedge)
  have hkind : note.kind = p.forest.joinKind n := found.optional
  have hq : q'.names = p.names + 1 + ((p.forest.joinKind n).names (p.names + 1)).length := by
    rw [Runs.keyedJoin_progress found.joined, hkind]
  refine ⟨?_, ?_⟩
  · simp only [hnames, hq, joinNames, List.length_append, List.length_cons, List.length_nil]
    omega
  · rw [joinNames, List.getLast?_append, hq]
    rfl

/-- The rows after a join along a navigation. -/
theorem JoinsAlong.eval {path : List String} {outerKey innerKey : List Property} {target : String}
    {note : JoinNote} {e : Expr} {q' : Progress}
    (found : JoinsAlong M p s n q edge path outerKey innerKey target note e q')
    (h : Navigable tables scope p s n q edge rows targets owner) :
    e.eval tables scope = .ok (.list (rows.flatMap fun w =>
      note.kind.joined w (targets.filter (edge.keysMatch (owner w))))) := by
  obtain ⟨letter, hfresh⟩ := found.fresh
  have hkind : note.kind = p.forest.joinKind n := found.optional
  obtain ⟨hne, hout, -⟩ : s.parameter ≠ target ∧ s.parameter ∉ note.kind.names (p.names + 1) ∧ _ := by
    simpa only [joinNames, ← found.named, ← hkind, List.cons_append, List.mem_cons, List.mem_append,
      not_or] using h.fresh
  have hinn : target ∉ note.kind.names (p.names + 1) :=
    JoinKind.not_mem_names (hfresh ▸ .generated letter _)
  -- The keys hold no references, so they are read without a view as in any.
  obtain ⟨k₁, hk₁⟩ := OldName.exists_of s.parameter
  obtain ⟨k₂, hk₂⟩ := OldName.exists_of target
  have columns := navigationColumns_settled (fun _ => False) (hk₁.mono (Nat.le_max_left k₁ k₂))
    (hk₂.mono (Nat.le_max_right k₁ k₂)) path (p.forest.node q).isOptional outerKey innerKey
  have joined : e.eval tables scope = _ := Runs.eval_keyedJoin
    (k := fun w => keyValue (edge.sourceKey.map (owner w).column))
    (l := fun t => keyValue (edge.targetKey.map t.column)) found.joined hne hout hinn h.evaluated
    (show (Expr.entitySet edge.target).eval tables scope = .ok (.list targets) by
      rw [Expr.eval, h.table]
      rfl)
    (fun w hw => ?_) fun t ht => ?_
  · rw [joined]
    simp only [NavigationEdge.matchingRows_keysMatch found.keys]
  · obtain ⟨hread, hcolumns⟩ := h.owner w hw
    rw [Forest.reads, found.present, Option.map_some] at hread
    rw [← (key_settled (List.forall_mem_map.2 fun a ha => (columns a ha).1)).evalIn_eq (v := .shut)]
    exact found.ownerKey_of_columns (Option.some.inj hread) fun c hc => hcolumns.evalMember hc
  · rw [← (key_settled (List.forall_mem_map.2 fun a ha => (columns a ha).2)).evalIn_eq (v := .shut)]
    exact found.targetKey_of_columns fun c hc => (h.columns t ht).evalMember hc

/-- A join along a navigation simulates following the navigation on every row. -/
theorem joinNode_simulates (h : Runs (joinNode s n) M p s' p')
    (hnav : Navigable tables scope p s n q edge rows targets owner) (hs : s.sources.Nodup) :
    Simulates tables scope p p' s s' n rows fun w =>
      edge.partners (p.forest.joinKind n) targets (owner w) := by
  obtain ⟨q₁, edge₁, path, outerKey, innerKey, target, note, e, q', found, rfl, hforest, -⟩ :=
    Runs.joinNode h
  obtain rfl := Option.some.inj (found.along.symm.trans hnav.along)
  obtain rfl := Option.some.inj (found.above.symm.trans hnav.above)
  have hkind : note.kind = p.forest.joinKind n := found.optional
  rw [(Runs.keyedJoin_cases found.joined).1] at hforest
  change p'.forest = _ at hforest
  refine ⟨fun w => note.kind.extend (targets.filter (edge₁.keysMatch (owner w))) w, ?_,
    fun w _ t _ => ⟨fun k hk hsource => ?_, ?_⟩⟩
  · rw [found.eval hnav]
    simp only [JoinKind.joined, NavigationEdge.partners, hkind]
  · rw [hforest, Forest.reads_makePresent_ne hk]
    exact hnav.built.dated.reads_wrapAll hs hnav.range hsource fun _ => JoinKind.at_extend ..
  · have hnodes := Forest.nodes_wrapAll p.forest s.sources note.kind.wrapPath
    rw [hforest, Forest.reads_makePresent_self, JoinKind.inner_extend]
    · rfl
    · rw [Forest.size, hnodes]
      exact Forest.range_of_parent hnav.above
    · rw [Forest.node, hnodes]
      exact hnav.live

end Join

namespace Shop

def ann : Value := customer 1 "Ann" .null

def bob : Value := customer 2 "Bob" (.int 1)

/-- A stream over all customers. -/
def customers (sources : List SourceId) : Stream where
  parameter := "c"
  sources
  needsProjection := false
  ordered := false
  cardinality := none
  rows := .entitySet "Customer"
  selector := .null

/-- Where customers are the rows of the only source, and may have a referrer. -/
def referred : Progress where
  forest := ((Forest.empty.addSource "Customer" false).2.follow ⟨0⟩ referrer).2

theorem navigable_customers {sources : List SourceId} (h : ∀ m ∈ sources, m = ⟨0⟩) :
    Navigable tables [] referred (customers sources) ⟨1⟩ ⟨0⟩ referrer [ann, bob] [ann, bob] id where
  built := .follow (.addSource .empty _ _) _ _
  range m hm := h m hm ▸ Nat.zero_lt_one
  along := rfl
  above := rfl
  live := rfl
  fresh := (by decide : "c" ∉ joinNames referred ⟨1⟩ referrer)
  evaluated := rfl
  owner w hw := by
    refine ⟨rfl, ?_⟩
    revert w
    decide
  table := rfl
  columns := by decide

end Shop

/-- The customers with their referrers: Ann has none, and Bob has Ann. -/
theorem joinNode_referrer : ∃ s' p', Runs (joinNode (Shop.customers [⟨0⟩]) ⟨1⟩) ⟨Shop.catalog, {}⟩
      Shop.referred s' p' ∧
    Simulates Shop.tables [] Shop.referred p' (Shop.customers [⟨0⟩]) s' ⟨1⟩ [Shop.ann, Shop.bob]
      fun w => Shop.referrer.partners .leftOuter [Shop.ann, Shop.bob] w := by
  obtain ⟨s', p', h⟩ : ∃ s' p', Runs (joinNode (Shop.customers [⟨0⟩]) ⟨1⟩) ⟨Shop.catalog, {}⟩
      Shop.referred s' p' := ⟨_, _, rfl⟩
  exact ⟨s', p', h, joinNode_simulates h (Shop.navigable_customers (by decide)) (by decide)⟩

/-- A source that is listed twice is lost. -/
theorem joinNode_of_repeated : ∃ s' p', Runs (joinNode (Shop.customers [⟨0⟩, ⟨0⟩]) ⟨1⟩) ⟨Shop.catalog, {}⟩
      Shop.referred s' p' ∧
    Navigable Shop.tables [] Shop.referred (Shop.customers [⟨0⟩, ⟨0⟩]) ⟨1⟩ ⟨0⟩ Shop.referrer
      [Shop.ann, Shop.bob] [Shop.ann, Shop.bob] id ∧
    ¬ Simulates Shop.tables [] Shop.referred p' (Shop.customers [⟨0⟩, ⟨0⟩]) s' ⟨1⟩ [Shop.ann, Shop.bob]
      fun w => Shop.referrer.partners .leftOuter [Shop.ann, Shop.bob] w := by
  refine ⟨_, _, rfl, Shop.navigable_customers (by decide), ?_⟩
  rintro ⟨extend, hrows, hreads⟩
  have hrows : (Except.ok (.list [pairValue (pairValue Shop.ann (.list [])) .null,
      pairValue (pairValue Shop.bob (.list [Shop.ann])) Shop.ann]) : Outcome Value) =
      .ok (.list [extend Shop.ann .null, extend Shop.bob Shop.ann]) := hrows
  have hann : pairValue (pairValue Shop.ann (.list [])) .null = extend Shop.ann .null :=
    (List.cons.inj (Value.list.inj (Except.ok.inj hrows))).1
  have hread := (hreads Shop.ann (.head _) .null (.head _)).1 ⟨0⟩ (by decide) (by decide)
  rw [← hann] at hread
  -- Ann is found under two fields, and she is looked for under four.
  have hread : some (Except.error (EvalError.noMember outerField Shop.ann)) =
      some (Except.ok Shop.ann) := hread
  cases hread

end EntityQuery
