import EntityQuery.Proofs.Forests
import EntityQuery.Proofs.View

/-!
# Histories of rows

A node remembers how often the rows of its source had been wrapped when it became present, and its path
follows from what has been put around them since. In a forest that was built by the operations on
forests no node is ahead of its source (`Built.dated`), whatever the operations were. So wrapping the
rows of some sources, each of them once, leaves what is read there as it was (`Dated.reads_wrapAll`).
-/

namespace EntityQuery

/-- Everything in null is null. -/
theorem Value.at_null (path : List String) : Value.null.at path = .ok .null := by
  induction path with
  | nil => rfl
  | cons name path ih => exact ih

namespace Forest

/-- The forest is a result of operations on the empty forest. -/
inductive Built : Forest → Prop where
  | empty : Built .empty
  | addSource {f : Forest} (h : Built f) (entity : Option String) (isOptional : Bool) :
    Built (f.addSource entity isOptional).2
  | follow {f : Forest} (h : Built f) (parent : NodeId) (edge : NavigationEdge) :
    Built (f.follow parent edge).2
  | addField {f : Forest} (h : Built f) (parent : NodeId) (field : String) (entity : Option String)
    (isOptional : Bool) : Built (f.addField parent field entity isOptional).2
  | addAlias {f : Forest} (h : Built f) (n : NodeId) (path : List String) : Built (f.addAlias n path)
  | remove {f : Forest} (h : Built f) (n : NodeId) : Built (f.remove n)
  | wrap {f : Forest} (h : Built f) (path : List String) (m : SourceId) : Built (f.wrap path m)
  | makePresent {f : Forest} (h : Built f) (n : NodeId) (place : List String) :
    Built (f.makePresent n place)
  | makeOptional {f : Forest} (h : Built f) (m : SourceId) : Built (f.makeOptional m)

/-- No node became present after its rows were wrapped more often than they have been. -/
def Dated (f : Forest) : Prop :=
  ∀ n, (f.node n).wrapsBefore ≤ (f.source (f.node n).source).wraps.length

/-- What a row holds for a node, if the node can be read from it. -/
def reads (f : Forest) (n : NodeId) (row : Value) : Option (Outcome Value) := (f.rowPath? n).map row.at

variable {f g : Forest} {n : NodeId} {x : Node}

namespace Dated

theorem empty : Forest.empty.Dated := by
  intro n
  rw [node_of_size_le (Nat.zero_le _)]
  exact Nat.zero_le _

theorem modifyNode (hf : f.Dated) (n : NodeId) {change : Node → Node}
    (h : ∀ x : Node, (change x).source = x.source ∧ (change x).wrapsBefore = x.wrapsBefore) :
    (f.modifyNode n change).Dated := by
  intro k
  change _ ≤ (f.source _).wraps.length
  rcases f.node_modifyNode n k change with hk | ⟨rfl, -, hk⟩ <;> rw [hk]
  · exact hf k
  · rw [(h _).1, (h _).2]
    exact hf _

theorem addNode (hf : f.Dated) (hx : x.wrapsBefore ≤ (f.source x.source).wraps.length) :
    (f.addNode x).2.Dated := by
  have added : ({ f with nodes := f.nodes ++ [x] } : Forest).Dated := by
    intro k
    change _ ≤ (f.source _).wraps.length
    rw [node_concat]
    split
    · exact hx
    · exact hf k
  rw [Forest.addNode]
  split
  · exact added
  · exact added.modifyNode _ fun _ => ⟨rfl, rfl⟩

/-- A new source that has not been wrapped makes no difference. -/
theorem append_source (hf : f.Dated) (entity : Option String) (root : NodeId) :
    ({ f with sources := f.sources ++ [⟨entity, root, []⟩] } : Forest).Dated := by
  intro n
  change (f.node n).wrapsBefore ≤ _
  have hn := hf n
  rw [source_concat]
  split
  · next h =>
    rw [source_of_length_le (m := (f.node n).source) (Nat.le_of_eq h.symm)] at hn
    exact hn
  · exact hn

theorem addSource (hf : f.Dated) (entity : Option String) (isOptional : Bool) :
    (f.addSource entity isOptional).2.Dated := by
  let x : Node := {
    source := ⟨f.sources.length⟩, parent := none, edge := none, entity, field := none, children := []
    isOptional, isPresent := true, isRemoved := false, aliases := [[]], place := [], wrapsBefore := 0 }
  have added : (f.addNode x).2.Dated := hf.addNode (Nat.zero_le _)
  exact added.append_source entity (f.addNode x).1

theorem follow (hf : f.Dated) (parent : NodeId) (edge : NavigationEdge) :
    (f.follow parent edge).2.Dated := by
  rw [Forest.follow]
  split
  · exact hf
  · exact hf.addNode (Nat.zero_le _)

theorem addField (hf : f.Dated) (parent : NodeId) (field : String) (entity : Option String)
    (isOptional : Bool) : (f.addField parent field entity isOptional).2.Dated :=
  hf.addNode (Nat.le_refl _)

theorem addAlias (hf : f.Dated) (n : NodeId) (path : List String) : (f.addAlias n path).Dated :=
  hf.modifyNode n fun x => by split <;> exact ⟨rfl, rfl⟩

theorem remove (hf : f.Dated) (n : NodeId) : (f.remove n).Dated :=
  remove_induction n hf (fun hg => hg.modifyNode _ fun _ => ⟨rfl, rfl⟩) fun hg =>
    hg.modifyNode _ fun _ => ⟨rfl, rfl⟩

theorem wrap (hf : f.Dated) (path : List String) (m : SourceId) : (f.wrap path m).Dated :=
  fun n => (later_wrap f path m).wraps n (hf n)

theorem makePresent (hf : f.Dated) (n : NodeId) (place : List String) :
    (f.makePresent n place).Dated := by
  intro k
  change _ ≤ (f.source _).wraps.length
  rw [Forest.makePresent]
  rcases f.node_modifyNode n k _ with hk | ⟨rfl, -, hk⟩
  · rw [hk]
    exact hf k
  · exact Nat.le_of_eq (by rw [hk])

theorem makeOptional (hf : f.Dated) (m : SourceId) : (f.makeOptional m).Dated := by
  intro n
  change _ ≤ (f.source _).wraps.length
  rcases f.node_makeOptional m n with h | h <;> rw [h]
  · exact hf n
  · exact hf n

end Dated

/-- Whatever is done to a forest, no node is ahead of its source. -/
theorem Built.dated (h : f.Built) : f.Dated := by
  induction h with
  | empty => exact .empty
  | addSource _ entity isOptional ih => exact ih.addSource entity isOptional
  | follow _ parent edge ih => exact ih.follow parent edge
  | addField _ parent field entity isOptional ih => exact ih.addField parent field entity isOptional
  | addAlias _ n path ih => exact ih.addAlias n path
  | remove _ n ih => exact ih.remove n
  | wrap _ path m ih => exact ih.wrap path m
  | makePresent _ n place ih => exact ih.makePresent n place
  | makeOptional _ m ih => exact ih.makeOptional m

section Reading

variable {sources : List SourceId} {path : List String}

/-- When the rows of several sources are wrapped, each source is wrapped once. -/
theorem Dated.rowPath?_wrapAll (hf : f.Dated) (hs : sources.Nodup)
    (hrange : ∀ m ∈ sources, m.index < f.sources.length) (path : List String) (n : NodeId) :
    (sources.foldl (·.wrap path) f).rowPath? n =
      if (f.node n).source ∈ sources then (f.rowPath? n).map (path ++ ·) else f.rowPath? n := by
  induction sources generalizing f with
  | nil => rfl
  | cons m sources ih =>
    obtain ⟨hm, hs⟩ := List.nodup_cons.1 hs
    have length : (f.wrap path m).sources.length = f.sources.length := (later_wrap f path m).sources
    rw [List.foldl_cons, ih (hf.wrap path m) hs fun k hk => length ▸ hrange k (.tail _ hk)]
    change (if (f.node n).source ∈ sources then _ else _) = _
    rw [rowPath?_wrap_of_le (hf n) (hrange m (.head _))]
    by_cases hn : (f.node n).source = m
    · rw [if_neg (hn ▸ hm), if_pos hn, if_pos (hn ▸ .head _)]
    · simp only [hn, if_false, List.mem_cons, false_or]

/-- A row around an old one holds what the old one held, if it holds that under the path that was put in
front. -/
theorem Dated.reads_wrapAll (hf : f.Dated) (hs : sources.Nodup)
    (hrange : ∀ m ∈ sources, m.index < f.sources.length) (hn : (f.node n).source ∈ sources)
    {row old : Value} (h : ∀ rest, row.at (path ++ rest) = old.at rest) :
    (sources.foldl (·.wrap path) f).reads n row = f.reads n old := by
  rw [reads, hf.rowPath?_wrapAll hs hrange, if_pos hn, Option.map_map]
  exact congrArg (Option.map · (f.rowPath? n)) (funext h)

theorem Dated.wrapAll (hf : f.Dated) (sources : List SourceId) (path : List String) :
    (sources.foldl (·.wrap path) f).Dated := by
  induction sources generalizing f with
  | nil => exact hf
  | cons m sources ih => exact ih (hf.wrap path m)

theorem sources_wrapAll (f : Forest) (sources : List SourceId) (path : List String) :
    (sources.foldl (·.wrap path) f).sources.length = f.sources.length := by
  induction sources generalizing f with
  | nil => rfl
  | cons m sources ih => exact (ih (f.wrap path m)).trans (later_wrap f path m).sources

theorem nodes_wrapAll (f : Forest) (sources : List SourceId) (path : List String) :
    (sources.foldl (·.wrap path) f).nodes = f.nodes := by
  induction sources generalizing f with
  | nil => rfl
  | cons m sources ih => exact ih (f.wrap path m)

theorem rowPath?_makeOptional (f : Forest) (m : SourceId) (n : NodeId) :
    (f.makeOptional m).rowPath? n = f.rowPath? n := by
  have hsource (k : SourceId) : (f.makeOptional m).source k = f.source k := rfl
  rcases f.node_makeOptional m n with h | h <;> simp only [rowPath?, h, hsource]

theorem reads_makePresent_ne {k : NodeId} (hk : k ≠ n) (place : List String) (row : Value) :
    (f.makePresent n place).reads k row = f.reads k row := by
  rw [reads, rowPath?_makePresent, if_neg fun h => hk h.1, reads]

theorem reads_makePresent_self (hn : n.index < f.size) (hr : (f.node n).isRemoved = false)
    (place : List String) (row : Value) :
    (f.makePresent n place).reads n row = some (row.at place) := by
  rw [reads, rowPath?_makePresent, if_pos ⟨rfl, hn, hr⟩, Option.map_some]

/-- In a missing row everything is null. -/
theorem reads_null (h : (f.rowPath? n).isSome = true) : f.reads n .null = some (.ok .null) := by
  obtain ⟨path, hpath⟩ := Option.isSome_iff_exists.1 h
  rw [reads, hpath, Option.map_some, Value.at_null]

end Reading

end Forest

end EntityQuery
