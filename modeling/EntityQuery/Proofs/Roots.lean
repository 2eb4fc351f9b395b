import EntityQuery.Expansion.Expand
import EntityQuery.Proofs.RowWise

/-!
# Where an expansion begins and ends

An expansion begins with an empty forest, over which users write their queries (`Setting.user`), and
with streams of all rows of an entity. It ends when what is left is reduced, and the result then
evaluates to what the query meant.
-/

namespace EntityQuery

open EntityQuery.Expr

variable {M : Model} {tables : Tables} {p p' : Progress} {opens : List SourceId} {entity : String}
  {s : Stream}

/-- What users write queries over: no row is open, and no name of a parameter ends in a digit. -/
def Setting.user (c : Catalog) : Setting where
  catalog := c
  entity _ := none
  refs _ := False
  names x := endsInDigit x = false

/-- What users write may be expanded at any point. -/
theorem Setting.user_le (c : Catalog) (p : Progress) (opens : List SourceId) :
    (Setting.user c).Le (p.setting c opens) where
  catalog := rfl
  entity h := nomatch h
  refs h := h.elim
  names h := .of_not_endsInDigit h

theorem Setting.user_within (c : Catalog) (o : OpenRows) : (Setting.user c).Within o :=
  fun _ _ h => by cases h

theorem Grounded.none {c : Catalog} (h : Consistent c tables) (p : Progress) :
    Grounded (p.setting c []) tables .none where
  consistent := h
  entity _ _ he := by simp [Progress.setting] at he
  row he := by simp [Progress.setting] at he

theorem Forest.empty_sound (c : Catalog) : Forest.empty.Sound c where
  source h := nomatch h
  field _ := rfl
  top h := nomatch h
  below h := nomatch h
  children h := nomatch h
  collection h := nomatch h
  removed h := nomatch h
  wraps _ := Nat.zero_le _
  root h := nomatch h
  entity h := nomatch h

/-- The run that a query with an expansion has, and what it has counted. -/
theorem Runs.of_expandQuery_tally {c : Catalog} {s : Settings} {e : Expr} {q : ExpandedQuery}
    (h : expandQuery c s e = .ok q) : ∃ n d p p', Runs (expandWithin n e) ⟨c, s⟩ {} d p ∧
      Runs (reduce d) ⟨c, s⟩ p q.query p' ∧ q.tally = p'.tally := by
  unfold expandQuery at h
  split at h
  · cases h
  · split at h
    · next query p' hrun =>
      cases h
      obtain ⟨d, p, hexpand, hreduce⟩ := Runs.bind_iff.1 (show Runs _ ⟨c, s⟩ {} query p' from hrun)
      obtain ⟨_, _, hread, hexpand⟩ := Runs.bind_iff.1 hexpand
      obtain ⟨rfl, rfl⟩ := Runs.read_iff.1 hread
      exact ⟨_, d, p, p', hexpand, hreduce, rfl⟩
    · cases h

theorem Runs.of_expandQuery {c : Catalog} {s : Settings} {e : Expr} {q : ExpandedQuery}
    (h : expandQuery c s e = .ok q) : ∃ n d p p', Runs (expandWithin n e) ⟨c, s⟩ {} d p ∧
      Runs (reduce d) ⟨c, s⟩ p q.query p' := by
  obtain ⟨n, d, p, p', hexpand, hreduce, -⟩ := Runs.of_expandQuery_tally h
  exact ⟨n, d, p, p', hexpand, hreduce⟩

/-- An expansion whose result evaluates as given. -/
theorem exists_evaluation {c : Catalog} {s : Settings} {e : Expr} {r : Outcome Value}
    (h : ((expandQuery c s e).toOption.map fun q => q.query.evaluate tables) = some r) :
    ∃ q, expandQuery c s e = .ok q ∧ q.query.evaluate tables = r := by
  cases hq : expandQuery c s e with
  | error cause =>
    rw [hq] at h
    cases h
  | ok q =>
    rw [hq] at h
    exact ⟨q, rfl, Option.some.inj h⟩

/-- An expansion that ends in a stream. -/
theorem Runs.expandWithin_toExpr {x : Nat → Expansion Stream} {n : Nat} {d e : Expr}
    (hx : ∀ k, expandWithin (k + 1) d = do return (← x k).toExpr)
    (h : Runs (expandWithin n d) M p e p') : ∃ k s, Runs (x k) M p s p' ∧ e = s.toExpr := by
  cases n with
  | zero => exact (Runs.throw_iff.1 h).elim
  | succ k =>
    rw [hx, Runs.bind_iff] at h
    obtain ⟨s, q, hrun, h⟩ := h
    obtain ⟨rfl, rfl⟩ := Runs.pure_iff.1 h
    exact ⟨k, s, hrun, rfl⟩

/-- A query without open rows evaluates to what its expansion means. -/
theorem Meaning.evaluate {first : Nat} {d e : Expr} {value : OpenRows → Outcome Value} {v : Value}
    (h : Meaning M.catalog tables first p [] d value) (ht : Consistent M.catalog tables)
    (hreduce : Runs (reduce d) M p e p') (hv : value .none = .ok v) : e.evaluate tables = .ok v := by
  have meant := h.eval p.forest .none [] (.refl _) (.refl _ _) (.none ht p)
  exact (evaluate_of_reduce h.fits h.names hreduce tables _ rfl).eq_ok (meant.trans hv)

/-- A root stream has the rows of its entity, each as it is. -/
theorem rootStream_run (hp : p.forest.Sound M.catalog)
    (hopens : ∀ k ∈ opens, k.index < p.forest.sources.length)
    (h : Runs (rootStream entity) M p s p') : Extends M.catalog p p' ∧ ∃ m,
      p.forest.sources.length ≤ m.index ∧ s.selector = p'.forest.ref (p'.forest.root m) ∧
      Flows M.catalog tables p' opens m entity s (.entity entity)
        fun o => (Expr.entitySet entity).denote M.catalog tables o [] [] := by
  simp only [rootStream, Runs.bind_iff, Runs.entityType_iff, Runs.growForest_iff, Runs.forest_iff,
    Runs.ref_iff, Runs.pure_iff] at h
  obtain ⟨t, _, ⟨ht, rfl⟩, m, q, ⟨hm, hq⟩, f, _, ⟨rfl, rfl⟩, d, _, ⟨hd, rfl⟩, rfl, rfl⟩ := h
  obtain ⟨hid, hsound, hgrows, hpaths, hlen, hentity, hroot, honly⟩ := Forest.addSource_spec hp ht
  rw [hid] at hm
  subst hm
  have hforest : q.forest = (p.forest.addSource (some entity) false).2 := by rw [hq]
  rw [← hforest] at hsound hgrows hpaths hlen hentity hroot honly
  have ext : Extends M.catalog p q := ⟨⟨hsound, hgrows, hq ▸ Nat.le_refl p.names⟩, hpaths⟩
  let m : SourceId := ⟨p.forest.sources.length⟩
  have hrange : m.index < q.forest.sources.length := hlen ▸ Nat.lt_succ_self _
  have isRoot := hsound.root hrange
  have hopen : (q.forest.node (q.forest.root m)).source ∈ m :: opens := by
    rw [isRoot.source]
    exact .head _
  refine ⟨ext, m, Nat.le_refl _, hd, ?_⟩
  obtain ⟨r, hr, hnode, hsource, hpath, hrefs, hshape⟩ :=
    Progress.ref_shape hsound isRoot.range hopen
  have hmember : q.forest.memberPath (q.forest.root m) = [] :=
    Forest.memberPath_top hsound isRoot.range isRoot.parent
  have hentityShape : q.forest.shapeAt (q.forest.root m) = .entity entity := by
    obtain ⟨hedge, he⟩ := hsound.top isRoot.range isRoot.parent
    rw [Forest.shapeAt, hedge, he, isRoot.source, hentity]
    rfl
  exact {
    sources := rfl
    range := hrange
    own := fun hown => Nat.lt_irrefl _ (hopens m hown)
    rowsOf := hentity
    cardinality := rfl
    parameter := .rowParameter entity
    settled := .of_parts (by simp) (by simp) (fun _ hx => absurd hx List.not_mem_nil)
      (fun _ hc => absurd hc List.not_mem_nil)
    sequence := rfl
    selector := by
      rw [hd, hr]
      exact .ref (hentityShape ▸ hshape) hrefs (fun h => absurd h Bool.false_ne_true)
        (fun _ => rfl)
    rows := fun o ho => by
      obtain ⟨rows, hl, -⟩ := ho.consistent.carries ht
      refine ⟨rows.map fun row => ⟨row, row, row⟩, fun v scope _ => ?_, fun a ha => ?_, ?_⟩
      · rw [List.map_map, evalIn, hl]
        exact congrArg (Except.ok <| Value.list ·) (List.map_id rows).symm
      · obtain ⟨row, hrow, rfl⟩ := List.mem_map.1 ha
        refine ⟨⟨rows, hl, hrow⟩, fun n path hn hplace => ?_, ?_⟩
        · have hnr : n.index < q.forest.size := by
            refine Nat.lt_of_not_le fun hle => ?_
            rw [Forest.rowPath?_of_size_le hle] at hplace
            cases hplace
          obtain rfl := honly n hnr hn
          rw [hmember]
          obtain rfl := Option.some.inj (hroot.symm.trans hplace)
          rfl
        · rw [hd, hr, OpenRows.denote_rowRef, OpenRows.read_set_self _ _ _ _ _ _ (hsource.trans isRoot.source),
            hpath, hmember]
          rfl
      · rw [List.map_map, Expr.denote, hl]
        exact congrArg (Except.ok <| Value.list ·) (List.map_id rows).symm }

end EntityQuery
