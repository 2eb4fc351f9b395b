import EntityQuery.Expansion.Context
import EntityQuery.Expr.Traversal

/-!
# Runs of an expansion

`Runs x M p a p'` says that the step `x`, started with the progress `p`, succeeds with the result
`a` and leaves the progress `p'`. The equations below take a successful run apart along the text of
the step.
-/

namespace EntityQuery

variable {α β : Type} {M : Model} {p p' : Progress}

/-- A successful run of a step. -/
def Runs (x : Expansion α) (M : Model) (p : Progress) (a : α) (p' : Progress) : Prop :=
  x M p = .ok (a, p')

namespace Runs

@[simp] theorem pure_iff {a b : α} : Runs (pure a) M p b p' ↔ b = a ∧ p = p' := by
  constructor
  · intro h
    cases h
    exact ⟨rfl, rfl⟩
  · rintro ⟨rfl, rfl⟩
    rfl

@[simp] theorem throw_iff {e : ExpansionError} {b : α} :
    Runs (throw e : Expansion α) M p b p' ↔ False := by
  refine iff_false_intro fun h => ?_
  cases h

@[simp] theorem bind_iff {x : Expansion α} {f : α → Expansion β} {b : β} :
    Runs (x >>= f) M p b p' ↔ ∃ a q, Runs x M p a q ∧ Runs (f a) M q b p' := by
  constructor
  · intro h
    change (x M p >>= fun r : α × Progress => f r.1 M r.2) = .ok (b, p') at h
    cases hx : x M p with
    | error e =>
      rw [hx] at h
      cases h
    | ok r =>
      rw [hx] at h
      exact ⟨r.1, r.2, hx, h⟩
  · rintro ⟨a, q, hx, hf⟩
    change (x M p >>= fun r : α × Progress => f r.1 M r.2) = .ok (b, p')
    rw [show x M p = .ok (a, q) from hx]
    exact hf

@[simp] theorem map_iff {x : Expansion α} {f : α → β} {b : β} :
    Runs (f <$> x) M p b p' ↔ ∃ a, Runs x M p a p' ∧ b = f a := by
  rw [← bind_pure_comp, bind_iff]
  constructor
  · rintro ⟨a, q, hx, hf⟩
    obtain ⟨rfl, rfl⟩ := pure_iff.1 hf
    exact ⟨a, hx, rfl⟩
  · rintro ⟨a, hx, rfl⟩
    exact ⟨a, p', hx, pure_iff.2 ⟨rfl, rfl⟩⟩

@[simp] theorem get_iff {a : Progress} :
    Runs (get : Expansion Progress) M p a p' ↔ a = p ∧ p = p' := by
  constructor
  · intro h
    cases h
    exact ⟨rfl, rfl⟩
  · rintro ⟨rfl, rfl⟩
    rfl

@[simp] theorem read_iff {a : Model} :
    Runs (read : Expansion Model) M p a p' ↔ a = M ∧ p = p' := by
  constructor
  · intro h
    cases h
    exact ⟨rfl, rfl⟩
  · rintro ⟨rfl, rfl⟩
    rfl

@[simp] theorem modify_iff {change : Progress → Progress} {a : PUnit} :
    Runs (modify change : Expansion PUnit) M p a p' ↔ p' = change p :=
  ⟨fun h => by cases h; rfl, fun h => h ▸ rfl⟩

@[simp] theorem forest_iff {f : Forest} :
    Runs Expansion.forest M p f p' ↔ f = p.forest ∧ p = p' := by
  constructor
  · intro h
    cases h
    exact ⟨rfl, rfl⟩
  · rintro ⟨rfl, rfl⟩
    rfl

@[simp] theorem node_iff {n : NodeId} {x : Node} :
    Runs (Expansion.node n) M p x p' ↔ x = p.forest.node n ∧ p = p' := by
  constructor
  · intro h
    cases h
    exact ⟨rfl, rfl⟩
  · rintro ⟨rfl, rfl⟩
    rfl

@[simp] theorem ref_iff {n : NodeId} {e : Expr} :
    Runs (Expansion.ref n) M p e p' ↔ e = p.forest.ref n ∧ p = p' := by
  constructor
  · intro h
    cases h
    exact ⟨rfl, rfl⟩
  · rintro ⟨rfl, rfl⟩
    rfl

@[simp] theorem settings_iff {s : Settings} :
    Runs Expansion.settings M p s p' ↔ s = M.settings ∧ p = p' := by
  constructor
  · intro h
    cases h
    exact ⟨rfl, rfl⟩
  · rintro ⟨rfl, rfl⟩
    rfl

@[simp] theorem setForest_iff {f : Forest} {u : Unit} :
    Runs (Expansion.setForest f) M p u p' ↔ p' = { p with forest := f } :=
  modify_iff

@[simp] theorem modifyForest_iff {change : Forest → Forest} {u : Unit} :
    Runs (Expansion.modifyForest change) M p u p' ↔ p' = { p with forest := change p.forest } :=
  modify_iff

@[simp] theorem modifyTally_iff {change : Tally → Tally} {u : Unit} :
    Runs (Expansion.modifyTally change) M p u p' ↔ p' = { p with tally := change p.tally } :=
  modify_iff

@[simp] theorem growForest_iff {grow : Forest → α × Forest} {a : α} :
    Runs (Expansion.growForest grow) M p a p' ↔
      a = (grow p.forest).1 ∧ p' = { p with forest := (grow p.forest).2 } := by
  constructor
  · intro h
    cases h
    exact ⟨rfl, rfl⟩
  · rintro ⟨rfl, rfl⟩
    rfl

@[simp] theorem ofCatalog_iff {stage : Stage} {result : Except CatalogError α} {a : α} :
    Runs (Expansion.ofCatalog stage result) M p a p' ↔ result = .ok a ∧ p = p' := by
  cases result with
  | ok b =>
    rw [Expansion.ofCatalog, pure_iff]
    exact and_congr_left fun _ => ⟨fun h => h ▸ rfl, fun h => by cases h; rfl⟩
  | error cause =>
    rw [Expansion.ofCatalog, throw_iff]
    exact ⟨False.elim, fun h => nomatch h.1⟩

@[simp] theorem entityType_iff {stage : Stage} {name : String} {t : EntityType} :
    Runs (Expansion.entityType stage name) M p t p' ↔
      M.catalog.type? name = some t ∧ p = p' := by
  rw [Expansion.entityType, bind_iff]
  constructor
  · rintro ⟨_, _, hread, h⟩
    obtain ⟨rfl, rfl⟩ := read_iff.1 hread
    obtain ⟨h, rfl⟩ := ofCatalog_iff.1 h
    refine ⟨?_, rfl⟩
    rw [Catalog.type] at h
    split at h
    · cases h
      assumption
    · cases h
  · rintro ⟨h, rfl⟩
    refine ⟨M, p, read_iff.2 ⟨rfl, rfl⟩, ofCatalog_iff.2 ⟨?_, rfl⟩⟩
    rw [Catalog.type, h]

@[simp] theorem freshName_iff {base name : String} :
    Runs (Expansion.freshName base) M p name p' ↔
      name = base ++ toString (p.names + 1) ∧ p' = { p with names := p.names + 1 } := by
  constructor
  · intro h
    cases h
    exact ⟨rfl, rfl⟩
  · rintro ⟨rfl, rfl⟩
    rfl

/-- A step has at most one result. -/
theorem unique {x : Expansion α} {a b : α} {q : Progress} (h : Runs x M p a p')
    (k : Runs x M p b q) : a = b ∧ p' = q := by
  rw [Runs, h] at k
  cases k
  exact ⟨rfl, rfl⟩

end Runs

end EntityQuery
