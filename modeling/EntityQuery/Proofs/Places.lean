import Mathlib
import EntityQuery.Proofs.Branching
import EntityQuery.Proofs.Merges
import EntityQuery.Proofs.Roots

/-!
# Where the rows of a stream are

The rows of a stream are pair records: a join puts the old row under one member of a new record and the
joined one under another. So of the rows of two nodes none is found inside the other (`Forest.Apart`),
although no path is stored, and a path follows from what has been done since its node became present. The
invariant of a stream is `Placed`; joins and merges keep it, and so does all that happens to the forest in the
meantime, if it does not move the rows of the stream itself (`Operation.Spares`).
-/

namespace EntityQuery

open EntityQuery.Expr

/-- The rows of the node are rows of a source, or a navigation leads to them. -/
def Node.HoldsRow (x : Node) : Prop := x.parent = none ∨ x.edge.isSome = true

theorem Node.Alike.holdsRow {x y : Node} (h : x.Alike y) : y.HoldsRow ↔ x.HoldsRow := by
  rw [Node.HoldsRow, Node.HoldsRow, h.parent, h.edge]

theorem Node.Same.holdsRow {x y : Node} (h : x.Same y) : y.HoldsRow ↔ x.HoldsRow := by
  rw [Node.HoldsRow, Node.HoldsRow, h.parent, h.edge]

namespace Forest

variable {f g : Forest} {n k a b : NodeId} {m : SourceId} {x : Node} {ops : List Operation} {op : Operation}
  {path pa pb : List String} {sources outer inner : List SourceId} {kind : JoinKind}

/-- Operations on known nodes have built the forest. -/
def Grown (f : Forest) : Prop := ∃ ops, Performable Operation.Known .empty ops ∧ after ops = f

namespace Grown

theorem branching (h : f.Grown) : f.Branching := by
  obtain ⟨ops, possible, rfl⟩ := h
  exact branching_after possible

theorem dated (h : f.Grown) : f.Dated := by
  obtain ⟨ops, -, rfl⟩ := h
  exact (built_after ops).dated

theorem perform (h : f.Grown) (op : Operation) (known : op.Known f) : (f.perform op).Grown := by
  obtain ⟨ops, possible, rfl⟩ := h
  exact ⟨ops ++ [op], performable_concat.2 ⟨possible, known⟩, after_concat ops op⟩

theorem performAll (h : f.Grown) (possible : Performable Operation.Known f ops) :
    (ops.foldl Forest.perform f).Grown :=
  possible.invariant h fun hf known => hf.perform _ known

theorem wrapAll (h : f.Grown) (path : List String) (range : ∀ m ∈ sources, m.index < f.sources.length) :
    (sources.foldl (·.wrap path) f).Grown := by
  have grown := h.performAll (performable_wraps path range)
  rwa [List.foldl_map] at grown

theorem wrapOptional (h : f.Grown) (range : ∀ m ∈ sources, m.index < f.sources.length) :
    (sources.foldl (fun f m => (f.wrap path m).makeOptional m) f).Grown := by
  induction sources generalizing f with
  | nil => exact h
  | cons m sources ih =>
    have length : (f.wrap path m).sources.length = f.sources.length := (kept_wrap f path m).sources
    have hm : m.index < (f.wrap path m).sources.length := Nat.lt_of_lt_of_eq (range m (.head _)) length.symm
    have wrapped := h.perform (.wrap path m) (range m (.head _))
    refine ih (wrapped.perform (.makeOptional m) hm) fun k hk => ?_
    exact Nat.lt_of_lt_of_eq (range k (.tail _ hk)) length.symm

theorem merged (h : f.Grown) (range : ∀ m ∈ outer ++ inner, m.index < f.sources.length) (kind : JoinKind) :
    (f.merged outer inner kind).Grown := by
  have wrapped := h.wrapAll kind.wrapPath fun m hm => range m (List.mem_append_left _ hm)
  have range' : ∀ m ∈ inner, m.index < (outer.foldl (·.wrap kind.wrapPath) f).sources.length := by
    intro m hm
    rw [sources_wrapAll]
    exact range m (List.mem_append_right _ hm)
  cases kind with
  | inner => exact wrapped.wrapAll _ range'
  | leftOuter => exact wrapped.wrapOptional range'

end Grown

/-- No row of the sources is found inside another one. -/
def Apart (f : Forest) (sources : List SourceId) : Prop :=
  ∀ a b : NodeId, a ≠ b → (f.node a).source ∈ sources → (f.node b).source ∈ sources →
    (f.node a).HoldsRow → (f.node b).HoldsRow →
    ∀ pa pb, f.rowPath? a = some pa → f.rowPath? b = some pb → ¬pa <+: pb

/-- Rows that are still found are found where they were, and none is new. -/
theorem Apart.mono (h : f.Apart sources)
    (old : ∀ k path, (g.node k).source ∈ sources → (g.node k).HoldsRow → g.rowPath? k = some path →
      (f.node k).source ∈ sources ∧ (f.node k).HoldsRow ∧ f.rowPath? k = some path) : g.Apart sources := by
  intro a b hne ha hb rowa rowb pa pb hpa hpb
  obtain ⟨ha, rowa, hpa⟩ := old a pa ha rowa hpa
  obtain ⟨hb, rowb, hpb⟩ := old b pb hb rowb hpb
  exact h a b hne ha hb rowa rowb pa pb hpa hpb

/-- The operation does not move the rows of the sources. -/
def Operation.Spares (sources : List SourceId) (f : Forest) : Operation → Prop
  | .wrap _ m => m ∉ sources
  | .makePresent n _ => (f.node n).source ∉ sources
  | _ => True

instance {sources : List SourceId} {f : Forest} : DecidablePred (Operation.Spares sources f)
  | .wrap _ _ | .makePresent _ _ => inferInstanceAs (Decidable (_ ∉ _))
  | .addSource _ _ | .follow _ _ | .addField _ _ _ _ | .addAlias _ _ | .remove _ | .makeOptional _ =>
    inferInstanceAs (Decidable True)

theorem Added.rowPath?_old (h : Added f g x) (hn : n.index < f.size)
    (range : (f.node n).source.index < f.sources.length) : g.rowPath? n = f.rowPath? n := by
  rcases h.old hn with heq | ⟨-, heq⟩
  all_goals simp only [rowPath?, heq, h.source_eq range]

/-- Removing a node hides rows, but moves none. -/
theorem rowPath?_remove (h : (f.remove n).rowPath? k = some path) : f.rowPath? k = some path := by
  have range : k.index < f.size := by
    refine Nat.lt_of_not_le fun hle => ?_
    rw [rowPath?_of_size_le ((kept_remove f n).size ▸ hle)] at h
    cases h
  simp only [rowPath?, node_remove range] at h ⊢
  rw [source, sources_remove] at h
  split at h
  · next present =>
    simp only [Bool.and_eq_true, Bool.not_eq_true', Bool.or_eq_false_iff] at present ⊢
    rw [if_pos ⟨present.1, present.2.1⟩]
    exact h
  · cases h

/-- What is known of the rows of a stream over the sources. -/
structure Placed (f : Forest) (sources : List SourceId) : Prop where
  grown : f.Grown
  nodup : sources.Nodup
  range : ∀ m ∈ sources, m.index < f.sources.length
  apart : f.Apart sources

namespace Placed

/-- An operation that spares the sources moves none of their rows and adds none to them. -/
theorem perform (h : f.Placed sources) (known : op.Known f) (spares : op.Spares sources f) :
    (f.perform op).Placed sources := by
  have hf := h.grown.branching
  refine ⟨h.grown.perform _ known, h.nodup, ?_, h.apart.mono fun k path hk row hpath => ?_⟩
  · intro m hm
    rcases perform_cases known with ⟨x, -, added⟩ | ⟨-, kept⟩
    · exact Nat.lt_of_lt_of_le (h.range m hm) added.sources_le
    · exact kept.sources ▸ h.range m hm
  · rcases perform_cases known with ⟨x, hx, added⟩ | ⟨hx, kept⟩
    · rcases added.cases k with hn | rfl | ⟨hle, -⟩
      · have same := added.same hn
        rw [added.rowPath?_old hn (hf.source hn)] at hpath
        exact ⟨same.source ▸ hk, same.holdsRow.1 row, hpath⟩
      · rw [rowPath?, added.new] at hpath
        rw [added.new] at hk row
        rcases adds_cases hx with ⟨_, _, -, rfl⟩ | ⟨_, _, -, -, rfl⟩ | ⟨_, _, _, _, -, rfl⟩
        · exact absurd (h.range _ hk) (Nat.lt_irrefl _)
        · cases hpath
        · rcases row with row | row <;> cases row
      · rw [rowPath?_of_size_le hle] at hpath
        cases hpath
    · refine ⟨(kept.node k).source ▸ hk, (kept.node k).holdsRow.1 row, ?_⟩
      cases op with
      | addSource | addField => cases hx
      | follow q edge => rwa [follow_of_adds hx] at hpath
      | addAlias n path' => exact ((later_addAlias f n path').2 k trivial).symm.trans hpath
      | remove n => exact rowPath?_remove hpath
      | wrap path' m =>
        have other : (f.node k).source ≠ m := fun heq => spares (heq ▸ hk)
        have moved := rowPath?_wrap_of_le (h.grown.dated k) known path'
        rw [if_neg other] at moved
        exact moved.symm.trans hpath
      | makePresent n place =>
        have moved := rowPath?_makePresent (f := f) (n := n) place k
        have other : k ≠ n := by
          rintro rfl
          exact spares ((kept.node k).source ▸ hk)
        rw [if_neg fun hn => other hn.1] at moved
        exact moved.symm.trans hpath
      | makeOptional m => exact (rowPath?_makeOptional f m k).symm.trans hpath

/-- Operations that spare the sources do so together. -/
theorem performAll (h : f.Placed sources)
    (possible : Performable (fun f op => op.Known f ∧ op.Spares sources f) f ops) :
    (ops.foldl Forest.perform f).Placed sources :=
  possible.invariant (I := (Placed · sources)) h fun hf allowed => hf.perform allowed.1 allowed.2

end Placed

section Joins

theorem kept_merged (f : Forest) (outer inner : List SourceId) (kind : JoinKind) :
    f.Kept (f.merged outer inner kind) := by
  refine List.foldlRecOn inner _ (kept_wrapAll f kind.wrapPath outer) fun g hg m _ => ?_
  have wrapped := hg.trans (kept_wrap g [innerField] m)
  dsimp only
  split
  · exact wrapped.trans (kept_makeOptional _ m)
  · exact wrapped

/-- Old and new rows are under different members of the new record. -/
theorem not_prefix_wrapped (kind : JoinKind) (pa pb : List String) :
    ¬innerField :: pa <+: kind.wrapPath ++ pb ∧ ¬kind.wrapPath ++ pa <+: innerField :: pb := by
  cases kind <;> constructor <;> intro h <;> exact absurd (List.cons_prefix_cons.1 h).1 (by decide)

namespace Placed

variable (h : f.Placed sources)
include h

/-- Where rows are after a join: the new ones beside the old ones, and the others where they were. -/
theorem rowPath?_joined (hn : n.index < f.size) (kind : JoinKind) (k : NodeId) :
    ((sources.foldl (·.wrap kind.wrapPath) f).makePresent n [innerField]).rowPath? k =
      if k = n ∧ (f.node n).isRemoved = false then some [innerField]
      else if (f.node k).source ∈ sources then (f.rowPath? k).map (kind.wrapPath ++ ·) else f.rowPath? k := by
  have nodes := nodes_wrapAll f sources kind.wrapPath
  have node : (sources.foldl (·.wrap kind.wrapPath) f).node n = f.node n := by rw [Forest.node, nodes, Forest.node]
  have range : n.index < (sources.foldl (·.wrap kind.wrapPath) f).size := by rwa [size, nodes]
  rw [rowPath?_makePresent, node, h.grown.dated.rowPath?_wrapAll h.nodup h.range]
  simp only [range, true_and]

theorem joined (hn : n.index < f.size) (kind : JoinKind) :
    ((sources.foldl (·.wrap kind.wrapPath) f).makePresent n [innerField]).Placed sources := by
  have kept := (kept_wrapAll f kind.wrapPath sources).trans (kept_makePresent _ n [innerField])
  have known : n.index < (sources.foldl (·.wrap kind.wrapPath) f).size :=
    Nat.lt_of_lt_of_eq hn (kept_wrapAll f kind.wrapPath sources).size.symm
  refine ⟨(h.grown.wrapAll _ h.range).perform (.makePresent n [innerField]) known, h.nodup, ?_, ?_⟩
  · exact fun m hm => kept.sources ▸ h.range m hm
  · intro a b hne ha hb rowa rowb pa pb hpa hpb
    rw [(kept.node a).source] at ha
    rw [(kept.node b).source] at hb
    rw [h.rowPath?_joined hn, if_pos ha] at hpa
    rw [h.rowPath?_joined hn, if_pos hb] at hpb
    have wrapped {k : NodeId} {path : List String} (hk : (if k = n ∧ (f.node n).isRemoved = false then
        some [innerField] else (f.rowPath? k).map (kind.wrapPath ++ ·)) = some path) :
        k = n ∧ path = [innerField] ∨ ∃ old, f.rowPath? k = some old ∧ path = kind.wrapPath ++ old := by
      split at hk
      · next hkn => exact .inl ⟨hkn.1, (Option.some.inj hk).symm⟩
      · obtain ⟨old, hold, rfl⟩ := Option.map_eq_some_iff.1 hk
        exact .inr ⟨old, hold, rfl⟩
    rcases wrapped hpa with ⟨rfl, rfl⟩ | ⟨olda, hola, rfl⟩ <;>
      rcases wrapped hpb with ⟨rfl, rfl⟩ | ⟨oldb, holb, rfl⟩
    · exact absurd rfl hne
    · exact (not_prefix_wrapped kind _ _).1
    · exact (not_prefix_wrapped kind _ _).2
    · rw [List.prefix_append_right_inj]
      exact h.apart a b hne ha hb ((kept.node a).holdsRow.1 rowa) ((kept.node b).holdsRow.1 rowb) _ _ hola holb

end Placed

theorem Placed.merged (houter : f.Placed outer) (hinner : f.Placed inner) (disjoint : outer.Disjoint inner)
    (kind : JoinKind) : (f.merged outer inner kind).Placed (outer ++ inner) := by
  have nodup : (outer ++ inner).Nodup := houter.nodup.append hinner.nodup disjoint
  have range : ∀ m ∈ outer ++ inner, m.index < f.sources.length := fun m hm =>
    (List.mem_append.1 hm).elim (houter.range m) (hinner.range m)
  have kept := kept_merged f outer inner kind
  refine ⟨houter.grown.merged range kind, nodup, fun m hm => kept.sources ▸ range m hm, ?_⟩
  intro a b hne ha hb rowa rowb pa pb hpa hpb
  rw [(kept.node a).source] at ha
  rw [(kept.node b).source] at hb
  have rowa := (kept.node a).holdsRow.1 rowa
  have rowb := (kept.node b).holdsRow.1 rowb
  rw [houter.grown.dated.rowPath?_merged nodup range] at hpa hpb
  have wrapped {k : NodeId} {path : List String} (hk : (f.node k).source ∈ outer ++ inner)
      (hpath : (if (f.node k).source ∈ inner then (f.rowPath? k).map ([innerField] ++ ·)
        else if (f.node k).source ∈ outer then (f.rowPath? k).map (kind.wrapPath ++ ·)
        else f.rowPath? k) = some path) : ∃ old, f.rowPath? k = some old ∧
      ((f.node k).source ∈ inner ∧ path = innerField :: old ∨
        (f.node k).source ∈ outer ∧ path = kind.wrapPath ++ old) := by
    by_cases hi : (f.node k).source ∈ inner
    · rw [if_pos hi] at hpath
      obtain ⟨old, hold, rfl⟩ := Option.map_eq_some_iff.1 hpath
      exact ⟨old, hold, .inl ⟨hi, rfl⟩⟩
    · have ho := (List.mem_append.1 hk).resolve_right hi
      rw [if_neg hi, if_pos ho] at hpath
      obtain ⟨old, hold, rfl⟩ := Option.map_eq_some_iff.1 hpath
      exact ⟨old, hold, .inr ⟨ho, rfl⟩⟩
  obtain ⟨olda, hola, ⟨ha, rfl⟩ | ⟨ha, rfl⟩⟩ := wrapped ha hpa <;>
    obtain ⟨oldb, holb, ⟨hb, rfl⟩ | ⟨hb, rfl⟩⟩ := wrapped hb hpb
  · rw [List.cons_prefix_cons, not_and]
    exact fun _ => hinner.apart a b hne ha hb rowa rowb _ _ hola holb
  · exact (not_prefix_wrapped kind _ _).1
  · exact (not_prefix_wrapped kind _ _).2
  · rw [List.prefix_append_right_inj]
    exact houter.apart a b hne ha hb rowa rowb _ _ hola holb

/-- A new source has one row, and that is everywhere. -/
theorem Placed.addSource (h : f.Grown) (entity : Option String) (isOptional : Bool) :
    (f.addSource entity isOptional).2.Placed [⟨f.sources.length⟩] := by
  have added := added_addSource f entity isOptional
  have length : (f.addSource entity isOptional).2.sources.length = f.sources.length + 1 := List.length_append
  refine ⟨h.perform (.addSource entity isOptional) trivial, List.nodup_singleton _, fun m hm => ?_, ?_⟩
  · rw [List.mem_singleton.1 hm, length]
    exact Nat.lt_succ_self _
  · have only {k : NodeId} {path : List String}
        (hk : ((f.addSource entity isOptional).2.node k).source ∈ [(⟨f.sources.length⟩ : SourceId)])
        (hpath : (f.addSource entity isOptional).2.rowPath? k = some path) : k = ⟨f.size⟩ := by
      rcases added.cases k with hn | rfl | ⟨hle, -⟩
      · rw [(added.same hn).source] at hk
        exact absurd (h.branching.source hn) (List.mem_singleton.1 hk ▸ Nat.lt_irrefl _)
      · rfl
      · rw [rowPath?_of_size_le hle] at hpath
        cases hpath
    intro a b hne ha hb _ _ pa pb hpa hpb
    exact absurd ((only ha hpa).trans (only hb hpb).symm) hne

end Joins

end Forest

section Streams

variable {M : Model} {p p' : Progress} {s s' outer inner : Stream} {entity : String} {n : NodeId}
  {join : StreamJoin} {m : MergedStreams}

theorem Runs.rootStream (h : Runs (EntityQuery.rootStream entity) M p s p') :
    s.sources = [⟨p.forest.sources.length⟩] ∧ p'.forest = (p.forest.addSource (some entity) false).2 := by
  simp only [EntityQuery.rootStream, Runs.bind_iff, Runs.entityType_iff, Runs.growForest_iff, Runs.forest_iff,
    Runs.ref_iff, Runs.pure_iff] at h
  obtain ⟨t, _, ⟨-, rfl⟩, source, q, ⟨rfl, rfl⟩, f, _, ⟨rfl, rfl⟩, d, _, ⟨-, rfl⟩, rfl, rfl⟩ := h
  exact ⟨rfl, rfl⟩

/-- What a join does to the stream and the forest. -/
theorem Runs.joinNode_forest (h : Runs (EntityQuery.joinNode s n) M p s' p') :
    n.index < p.forest.size ∧ s'.sources = s.sources ∧ p'.forest =
      (s.sources.foldl (·.wrap (p.forest.joinKind n).wrapPath) p.forest).makePresent n [innerField] := by
  obtain ⟨q, edge, path, outerKey, innerKey, target, note, rows, q', found, rfl, hforest, -⟩ := Runs.joinNode h
  refine ⟨Forest.range_of_parent found.above, rfl, ?_⟩
  have kind : note.kind = p.forest.joinKind n := found.optional
  rw [hforest, (Runs.keyedJoin_cases found.joined).1, kind]

/-- The streams that are made of root streams by joins and merges. In the meantime the forest can change in
all ways that do not move the rows of the stream, and the stream can be changed apart from its sources. -/
inductive Obtained (M : Model) : Progress → Stream → Prop where
  | root {p p' : Progress} {s : Stream} {entity : String} (grown : p.forest.Grown)
    (run : Runs (rootStream entity) M p s p') : Obtained M p' s
  | join {p p' : Progress} {s s' : Stream} {n : NodeId} (h : Obtained M p s)
    (owned : (p.forest.node n).source ∈ s.sources) (run : Runs (joinNode s n) M p s' p') : Obtained M p' s'
  | merge {p p' : Progress} {outer inner : Stream} {join : StreamJoin} {m : MergedStreams}
    (houter : Obtained M p outer) (hinner : Obtained M p inner)
    (disjoint : outer.sources.Disjoint inner.sources) (run : Runs (mergeStreams outer inner join) M p m p') :
    Obtained M p' m.stream
  | meanwhile {p p' : Progress} {s s' : Stream} (ops : List Forest.Operation) (h : Obtained M p s)
    (possible : Forest.Performable (fun f op => op.Known f ∧ op.Spares s.sources f) p.forest ops)
    (forest : p'.forest = ops.foldl Forest.perform p.forest) (sources : s'.sources = s.sources) :
    Obtained M p' s'

namespace Obtained

theorem placed (h : Obtained M p s) : p.forest.Placed s.sources := by
  induction h with
  | root grown run =>
    obtain ⟨sources, forest⟩ := run.rootStream
    rw [sources, forest]
    exact .addSource grown _ _
  | join _ _ run ih =>
    obtain ⟨range, sources, forest⟩ := run.joinNode_forest
    rw [sources, forest]
    exact ih.joined range _
  | merge _ _ disjoint run ihouter ihinner =>
    rw [mergeStreams_sources run, mergeStreams_forest run]
    exact ihouter.merged ihinner disjoint _
  | meanwhile _ _ possible forest sources ih =>
    rw [sources, forest]
    exact ih.performAll possible

/-- A join of another stream is a part of the meantime. -/
theorem join_other {t t' : Stream} (h : Obtained M p s) (ht : Obtained M p t)
    (disjoint : s.sources.Disjoint t.sources) (owned : (p.forest.node n).source ∈ t.sources)
    (run : Runs (joinNode t n) M p t' p') : Obtained M p' s := by
  obtain ⟨range, -, forest⟩ := run.joinNode_forest
  have wraps := Forest.performable_wraps (p.forest.joinKind n).wrapPath ht.placed.range
  have kept := Forest.kept_wrapAll p.forest (p.forest.joinKind n).wrapPath t.sources
  refine .meanwhile (t.sources.map (.wrap (p.forest.joinKind n).wrapPath) ++ [.makePresent n [innerField]]) h
    ?_ ?_ rfl
  · refine Forest.performable_append.2 ⟨wraps.and fun op hop f => ?_, ⟨?_, ?_⟩, trivial⟩
    · obtain ⟨m, hm, rfl⟩ := List.mem_map.1 hop
      exact fun hs => disjoint hs hm
    · rw [List.foldl_map]
      exact Nat.lt_of_lt_of_eq range kept.size.symm
    · rw [List.foldl_map]
      exact fun hs => disjoint ((kept.node n).source ▸ hs) owned
  · rw [forest, List.foldl_append, List.foldl_map]
    rfl

end Obtained

/-- Of all rows that a stream holds none is found inside another one. A join puts the same path in front of all
rows that the stream had, finds the new ones beside them and leaves the rows of other sources where they are,
and a merge does the like with the rows of two streams. -/
theorem rows_apart (h : Obtained M p s) :
    (∀ a b : NodeId, a ≠ b → (p.forest.node a).source ∈ s.sources → (p.forest.node b).source ∈ s.sources →
      (p.forest.node a).HoldsRow → (p.forest.node b).HoldsRow → ∀ pa pb, p.forest.rowPath? a = some pa →
      p.forest.rowPath? b = some pb → ¬pa <+: pb ∧ ¬pb <+: pa) ∧
    (∀ n s' p', (p.forest.node n).source ∈ s.sources → Runs (joinNode s n) M p s' p' →
      ∃ front, front = (if (p.forest.node n).isOptional then [outerField, outerField] else [outerField]) ∧
        (∀ k, k ≠ n → (p.forest.node k).source ∈ s.sources →
          p'.forest.rowPath? k = (p.forest.rowPath? k).map (front ++ ·)) ∧
        ((p.forest.node n).isRemoved = false → p'.forest.rowPath? n = some [innerField]) ∧
        ∀ k, (p.forest.node k).source ∉ s.sources → p'.forest.rowPath? k = p.forest.rowPath? k) ∧
    ∀ inner join m p', Obtained M p inner → s.sources.Disjoint inner.sources →
      Runs (mergeStreams s inner join) M p m p' → ∀ k, p'.forest.rowPath? k =
        if (p.forest.node k).source ∈ inner.sources then (p.forest.rowPath? k).map ([innerField] ++ ·)
        else if (p.forest.node k).source ∈ s.sources then (p.forest.rowPath? k).map (join.kind.wrapPath ++ ·)
        else p.forest.rowPath? k := by
  have placed := h.placed
  refine ⟨fun a b hne ha hb rowa rowb pa pb hpa hpb => ⟨?_, ?_⟩, fun n s' p' owned run => ?_, ?_⟩
  · exact placed.apart a b hne ha hb rowa rowb pa pb hpa hpb
  · exact placed.apart b a hne.symm hb ha rowb rowa pb pa hpb hpa
  · obtain ⟨range, -, forest⟩ := run.joinNode_forest
    have paths (k : NodeId) := placed.rowPath?_joined range (p.forest.joinKind n) k
    rw [← forest] at paths
    refine ⟨(p.forest.joinKind n).wrapPath, ?_, fun k hk hs => ?_, fun hr => ?_, fun k hs => ?_⟩
    · rw [Forest.joinKind]
      split <;> rfl
    · rw [paths, if_neg fun hn => hk hn.1, if_pos hs]
    · rw [paths, if_pos ⟨rfl, hr⟩]
    · rw [paths, if_neg, if_neg hs]
      rintro ⟨rfl, -⟩
      exact hs owned
  · intro inner join m p' hinner disjoint run k
    have nodup : (s.sources ++ inner.sources).Nodup := placed.nodup.append hinner.placed.nodup disjoint
    rw [mergeStreams_forest run, placed.grown.dated.rowPath?_merged nodup fun m hm => ?_]
    exact (List.mem_append.1 hm).elim (placed.range m) (hinner.placed.range m)

end Streams

namespace Shop

open Forest

/-- Customers, who may have a referrer, and orders. -/
def customersAndOrders : List Operation :=
  [.addSource (some "Customer") false, .addSource (some "Order") false, .follow ⟨0⟩ referrer]

/-- A stream over all orders. -/
def orderRows : Stream := { customers [⟨1⟩] with parameter := "o", rows := .entitySet "Order" }

theorem obtained_customers : Obtained ⟨catalog, {}⟩ { forest := after customersAndOrders } (customers [⟨0⟩]) := by
  have root : Obtained ⟨catalog, {}⟩ { forest := after [.addSource (some "Customer") false] } _ :=
    .root (p := {}) ⟨[], trivial, rfl⟩ (rfl : Runs (rootStream "Customer") ⟨catalog, {}⟩ {} _ _)
  exact .meanwhile [.addSource (some "Order") false, .follow ⟨0⟩ referrer] root (by decide +kernel) rfl rfl

theorem obtained_orderRows : Obtained ⟨catalog, {}⟩ { forest := after customersAndOrders } orderRows := by
  have root : Obtained ⟨catalog, {}⟩
      { forest := after [.addSource (some "Customer") false, .addSource (some "Order") false] } _ :=
    .root (p := { forest := after [.addSource (some "Customer") false] })
      ⟨[.addSource (some "Customer") false], by decide +kernel, rfl⟩
      (rfl : Runs (rootStream "Order") ⟨catalog, {}⟩ _ _ _)
  exact .meanwhile [.follow ⟨0⟩ referrer] root (by decide +kernel) rfl rfl

/-- The referrers have been joined to the customers. -/
def joinedReferrers : List Operation :=
  customersAndOrders ++ [.wrap [outerField, outerField] ⟨0⟩, .makePresent ⟨2⟩ [innerField]]

theorem obtained_joinedReferrers :
    Obtained ⟨catalog, {}⟩ { forest := after joinedReferrers } orderRows ∧
    Obtained ⟨catalog, {}⟩ { forest := after joinedReferrers } (customers [⟨0⟩]) := by
  have own : ((after customersAndOrders).node ⟨2⟩).source ∈ (customers [⟨0⟩]).sources := by decide +kernel
  have apart : orderRows.sources.Disjoint (customers [⟨0⟩]).sources := List.disjoint_singleton.2 (by decide)
  obtain ⟨s, p, run⟩ : ∃ s p, Runs (joinNode (customers [⟨0⟩]) ⟨2⟩) ⟨catalog, {}⟩
      { forest := after customersAndOrders } s p := ⟨_, _, rfl⟩
  obtain ⟨-, sources, forest⟩ := run.joinNode_forest
  have joined : after joinedReferrers = p.forest := forest ▸ rfl
  exact ⟨.meanwhile [] (obtained_orderRows.join_other obtained_customers apart own run) trivial joined rfl,
    .meanwhile [] (.join obtained_customers own run) trivial joined sources.symm⟩

/-- The orders, and for each of them all customers with their referrers. -/
theorem rows_apart_joinedReferrers : ∃ p s, Obtained ⟨catalog, {}⟩ p s ∧ s.sources = [⟨1⟩, ⟨0⟩] ∧
    p.forest.rowPath? ⟨1⟩ = some [outerField] ∧
    p.forest.rowPath? ⟨0⟩ = some [innerField, outerField, outerField] ∧
    p.forest.rowPath? ⟨2⟩ = some [innerField, innerField] ∧
    ¬[innerField, innerField] <+: [innerField, outerField, outerField] := by
  obtain ⟨outer, inner⟩ := obtained_joinedReferrers
  have apart : orderRows.sources.Disjoint (customers [⟨0⟩]).sources := List.disjoint_singleton.2 (by decide)
  obtain ⟨m, p, run⟩ : ∃ m p, Runs (mergeStreams orderRows (customers [⟨0⟩]) .correlated) ⟨catalog, {}⟩
      { forest := after joinedReferrers } m p := ⟨_, _, rfl⟩
  have merged := Obtained.merge outer inner apart run
  have sources : m.stream.sources = [⟨1⟩, ⟨0⟩] := mergeStreams_sources run
  have forest : p.forest = (after joinedReferrers).merged [⟨1⟩] [⟨0⟩] .inner := mergeStreams_forest run
  have customer : p.forest.rowPath? ⟨0⟩ = some [innerField, outerField, outerField] := by
    rw [forest]
    decide +kernel
  have referrer : p.forest.rowPath? ⟨2⟩ = some [innerField, innerField] := by
    rw [forest]
    decide +kernel
  refine ⟨p, m.stream, merged, sources, ?_, customer, referrer, ?_⟩
  · rw [forest]
    decide +kernel
  · refine ((rows_apart merged).1 ⟨2⟩ ⟨0⟩ (by decide) ?_ ?_ (.inr ?_) (.inl ?_) _ _ referrer customer).1 <;>
      rw [forest] <;> first | rfl | (rw [sources]; decide +kernel)

/-- For each order how many orders its buyer has. The orders of a customer are projected, and then
used twice. -/
def countsOfOrders : Expr :=
  let orders (x : String) : Expr := .member (.param x) "Orders"
  .call .selectMany [
    .call .select [.entitySet "Customer",
      .lambda ["c"] (.record [("Id", .member (.param "c") "Id"), ("Orders", orders "c")])] none,
    .lambda ["x"] (orders "x"),
    .lambda ["x", "o"] (.record [("Count", .call .count [orders "x"] none),
      ("Order", .member (.param "o") "Id")])] none

end Shop

/-- Both uses of a projected collection share one source. The join for the one moves the rows of the
other, which are then looked for where they are not. -/
theorem evaluate_countsOfOrders : ∃ q, expandQuery Shop.catalog {} Shop.countsOfOrders = .ok q ∧
    q.query.evaluate Shop.tables = .error (.noMember "inner" (Shop.order 10 1 5)) := by
  have lost : ((expandQuery Shop.catalog {} Shop.countsOfOrders).toOption.map fun q =>
      q.query.evaluate Shop.tables) =
      some (.error (.noMember "inner" (Shop.order 10 1 5))) := by cbv
  exact exists_evaluation lost

end EntityQuery
