import EntityQuery.Proofs.Collections
import EntityQuery.Proofs.Resolving

/-!
# What streams and bodies mean

A stream flows from the rows of its source (`Flows`): each of its physical rows comes from one row
of the source's entity, it holds the rows of every node that is present at the node's path, and the
selector makes of it what the query that the stream stands for has there. A body of which the
queries have been expanded has a meaning (`Meaning`) as long as the rows of its own sources stay
where they are.
-/

namespace EntityQuery

open EntityQuery.Expr

namespace OpenRows

/-- One more row is open. -/
def set (o : OpenRows) (m : SourceId) (entity : String) (row : Value) : OpenRows where
  entity k := if k = m then some entity else o.entity k
  row k := if k = m then row else o.row k

/-- What a reference stands for. -/
def read (o : OpenRows) (c : Catalog) (tables : Tables) (r : RowRef) : Outcome Value :=
  Shape.readAlong c tables (o.shape? r.source) r.path (o.row r.source)

/-- The view of open rows in a forest. -/
def view (o : OpenRows) (c : Catalog) (tables : Tables) (f : Forest) : RowView where
  path := f.rowPath?
  row := o.read c tables

variable (o : OpenRows) (m : SourceId) (entity : String) (row : Value) (c : Catalog)
  (tables : Tables) (f : Forest)

theorem read_set_self {r : RowRef} (h : r.source = m) :
    (o.set m entity row).read c tables r =
      Shape.readAlong c tables (some (.entity entity)) r.path row := by
  simp only [read, set, shape?, h, if_true, Option.map_some]

theorem read_set_ne {r : RowRef} (h : r.source ≠ m) :
    (o.set m entity row).read c tables r = o.read c tables r := by
  simp only [read, set, shape?, h, if_false]

theorem denote_rowRef (r : RowRef) (Γ : Shapes) (scope : Scope) :
    (Expr.rowRef r).denote c tables o Γ scope = o.read c tables r := rfl

end OpenRows

theorem Grounded.set {p : Progress} {c : Catalog} {opens : List SourceId} {tables : Tables}
    {o : OpenRows} (h : Grounded (p.setting c opens) tables o) {m : SourceId}
    {entity : String} (he : (p.forest.source m).entity = some entity) {rows : List Value}
    (hl : tables.lookup entity = some rows) {row : Value} (hrow : row ∈ rows) :
    Grounded (p.setting c (m :: opens)) tables (o.set m entity row) where
  consistent := h.consistent
  entity k entity' hk := by
    simp only [Progress.setting, Option.ite_none_right_eq_some, List.mem_cons] at hk
    simp only [OpenRows.set]
    split
    · next hkm => rw [← he, ← hkm, hk.2]
    · next hkm =>
      refine h.entity k entity' ?_
      rw [Progress.setting, Option.ite_none_right_eq_some]
      exact ⟨hk.1.resolve_left hkm, hk.2⟩
  row {k entity'} hk := by
    simp only [Progress.setting, Option.ite_none_right_eq_some, List.mem_cons] at hk
    simp only [OpenRows.set]
    split
    · next hkm =>
      obtain rfl : entity = entity' := Option.some.inj (by rw [← he, ← hkm, hk.2])
      exact ⟨rows, hl, hrow⟩
    · next hkm =>
      have hopen : (p.setting c opens).entity k = some entity' := by
        rw [Progress.setting, Option.ite_none_right_eq_some]
        exact ⟨hk.1.resolve_left hkm, hk.2⟩
      exact h.row hopen

/-- The reference may occur, and if its row is open then it is a single one. -/
def Progress.Allows (p : Progress) (c : Catalog) (opens : List SourceId) (r : RowRef) : Prop :=
  r.source ∈ opens →
    (p.setting c opens).refs r ∧ (p.forest.node r.node).isCollection = false

/-- The expression holds no streams, its names are old, and its references are as given. -/
structure Expr.Settled (k : Nat) (refs : RowRef → Prop) (e : Expr) : Prop where
  names : e.NamesOld k
  refs : ∀ r ∈ e.rowRefs, refs r
  plain : e.hasStream = false

namespace Expr.Settled

variable {k l : Nat} {refs refs' : RowRef → Prop} {e : Expr}

theorem mono (h : e.Settled k refs) (hkl : k ≤ l) (hr : ∀ r, refs r → refs' r) :
    e.Settled l refs' :=
  ⟨h.names.mono hkl, fun r hmem => hr r (h.refs r hmem), h.plain⟩

/-- Away from references and streams, an expression is settled if its parts are. -/
theorem of_parts (hr : ∀ r, e ≠ .rowRef r) (hs : ∀ rows selector frame, e ≠ .stream rows selector frame)
    (own : ∀ x ∈ e.ownNames, OldName k x) (parts : ∀ c ∈ e.children, c.Settled k refs) :
    e.Settled k refs where
  names := .of_parts own fun c hc => (parts c hc).names
  refs r hmem := by
    rcases mem_rowRefs_iff.1 hmem with rfl | ⟨c, hc, hmem⟩
    · exact absurd rfl (hr r)
    · exact (parts c hc).refs r hmem
  plain := hasStream_eq_false_iff.2 ⟨hs, fun c hc => (parts c hc).plain⟩

/-- A settled expression without references has a value of its own. -/
theorem evalIn_eq {tables : Tables} {v : RowView} {scope : Scope} (h : e.Settled k fun _ => False) :
    e.evalIn tables v scope = e.eval tables scope :=
  (evalIn_eq_eval (List.eq_nil_iff_forall_not_mem.2 h.refs) h.plain).1

theorem param {x : String} (h : OldName k x) : (Expr.param x).Settled k refs :=
  of_parts (by simp) (by simp) (fun y hy => List.mem_singleton.1 hy ▸ h) (fun _ hc => nomatch hc)

theorem member {name : String} (h : e.Settled k refs) : (Expr.member e name).Settled k refs :=
  of_parts (by simp) (by simp) (fun _ hx => nomatch hx) (by simpa [children] using h)

theorem lambda {params : List String} (hp : ∀ x ∈ params, OldName k x) (h : e.Settled k refs) :
    (Expr.lambda params e).Settled k refs :=
  of_parts (by simp) (by simp) hp (by simpa [children] using h)

theorem call {operator : Operator} {arguments : List Expr} {note : Option CallNote}
    (h : ∀ a ∈ arguments, a.Settled k refs) : (Expr.call operator arguments note).Settled k refs :=
  of_parts (by simp) (by simp) (fun _ hx => nomatch hx) h

theorem readPath {x : String} (h : OldName k x) (path : List String) :
    (Expr.readPath x path).Settled k refs := by
  have onward {e : Expr} (he : e.Settled k refs) : (path.foldl .member e).Settled k refs := by
    induction path generalizing e with
    | nil => exact he
    | cons name path ih => exact ih he.member
  exact onward (.param h)

end Expr.Settled

/-- The row has the rows of all nodes that are present where the forest says. -/
def Holds (c : Catalog) (tables : Tables) (f : Forest) (m : SourceId) (entity : String)
    (origin row : Value) : Prop :=
  ∀ n path, (f.node n).source = m → f.rowPath? n = some path →
    row.at path = Shape.readAlong c tables (some (.entity entity)) (f.memberPath n) origin

/-- A row of a stream, with the row that it comes from and what the selector makes of it. -/
structure Entry where
  origin : Value
  row : Value
  value : Value

/-- What is known of a row of a stream. -/
structure Entry.Fits (e : Entry) (c : Catalog) (tables : Tables) (f : Forest) (m : SourceId)
    (entity : String) (selector : Expr) (o : OpenRows) : Prop where
  origin : ∃ rows, tables.lookup entity = some rows ∧ e.origin ∈ rows
  holds : Holds c tables f m entity e.origin e.row
  value : selector.denote c tables (o.set m entity e.origin) [] [] = .ok e.value

/-- The stream stands for a query whose rows have the shape `element`, and which denotes `value`. -/
structure Flows (c : Catalog) (tables : Tables) (p : Progress) (opens : List SourceId) (m : SourceId)
    (entity : String) (s : Stream) (element : Shape) (value : OpenRows → Outcome Value) : Prop where
  sources : s.sources = [m]
  range : m.index < p.forest.sources.length
  own : m ∉ opens
  rowsOf : (p.forest.source m).entity = some entity
  cardinality : s.cardinality = none
  parameter : OldName p.names s.parameter
  settled : s.rows.Settled p.names (p.Allows c opens)
  sequence : s.rows.isSequence = true
  selector : HasShape (p.setting c (m :: opens)) .ready false [] s.selector element
  rows : ∀ o, Grounded (p.setting c opens) tables o → ∃ entries : List Entry,
    (∀ (v : RowView) (scope : Scope), v.row = o.read c tables →
      s.rows.evalIn tables v scope = .ok (.list (entries.map (·.row)))) ∧
    (∀ e ∈ entries, e.Fits c tables p.forest m entity s.selector o) ∧
    value o = .ok (.list (entries.map (·.value)))

/-- The expression, whose own sources begin with the number `first`, stands for a body. -/
structure Meaning (c : Catalog) (tables : Tables) (first : Nat) (p : Progress)
    (opens : List SourceId) (e : Expr) (value : OpenRows → Outcome Value) : Prop where
  fits : e.StreamsFit
  names : e.NamesOld p.names
  refs : ∀ r ∈ e.rowRefs, p.Allows c opens r
  eval : ∀ f o scope, p.forest.Grows f →
    p.forest.SamePaths (fun m => first ≤ m.index ∧ m.index < p.forest.sources.length) f →
    Grounded (p.setting c opens) tables o → e.evalIn tables (o.view c tables f) scope = value o

section Extension

variable {c : Catalog} {tables : Tables} {p q : Progress} {opens : List SourceId} {m : SourceId}
  {entity : String}

theorem Progress.Allows.mono (h : Advances c p q) (hp : p.forest.Sound c) {r : RowRef}
    (hr : p.Allows c opens r) : q.Allows c opens r := fun ho =>
  have := hr ho
  ⟨(h.le hp opens).refs this.1, (h.grows.node this.1.1).isCollection.trans this.2⟩

theorem Holds.mono {f g : Forest} (hf : f.Sound c) (hg : g.Sound c) (hgrows : f.Grows g)
    (hpaths : f.SamePaths (· = m) g) {origin row : Value} (h : Holds c tables f m entity origin row) :
    Holds c tables g m entity origin row := by
  intro n path hn hpath
  rw [hpaths n hn] at hpath
  have hrange : n.index < f.size := by
    refine Nat.lt_of_not_le fun hle => ?_
    rw [Forest.rowPath?_of_size_le hle] at hpath
    cases hpath
  rw [hgrows.memberPath hf hg hrange]
  exact h n path ((hgrows.node hrange).source.symm.trans hn) hpath

/-- A stream stays what it is while its rows stay where they are. -/
theorem Flows.mono {s : Stream} {element : Shape} {value : OpenRows → Outcome Value}
    (hp : p.forest.Sound c) (h : Flows c tables p opens m entity s element value)
    (ext : Extends c p q) : Flows c tables q opens m entity s element value where
  sources := h.sources
  range := Nat.lt_of_lt_of_le h.range ext.grows.sources
  own := h.own
  rowsOf := (ext.grows.entity h.range).trans h.rowsOf
  cardinality := h.cardinality
  parameter := h.parameter.mono ext.names
  settled := h.settled.mono ext.names fun _ hr => hr.mono ext.toAdvances hp
  sequence := h.sequence
  selector := h.selector.mono (ext.le hp _)
  rows o ho := by
    obtain ⟨entries, hrows, hfits, hvalue⟩ := h.rows o (ho.anti (ext.le hp opens))
    refine ⟨entries, hrows, fun e he => ?_, hvalue⟩
    obtain ⟨horigin, hholds, hv⟩ := hfits e he
    refine ⟨horigin, hholds.mono hp ext.sound ext.grows (ext.paths.mono ?_), hv⟩
    rintro _ rfl
    exact h.range

/-- A body keeps its meaning while the rows of its own sources stay where they are. -/
theorem Meaning.advance {first : Nat} {e : Expr} {value : OpenRows → Outcome Value}
    (hp : p.forest.Sound c) (h : Meaning c tables first p opens e value) (adv : Advances c p q)
    (paths : p.forest.SamePaths (fun m => first ≤ m.index ∧ m.index < p.forest.sources.length)
      q.forest) : Meaning c tables first q opens e value where
  fits := h.fits
  names := h.names.mono adv.names
  refs r hr := (h.refs r hr).mono adv hp
  eval f o scope hgrows hpaths ho := by
    refine h.eval f o scope (adv.grows.trans hgrows) ?_ (ho.anti (adv.le hp opens))
    refine paths.trans (hpaths.mono ?_) hgrows adv.grows.size
    exact fun m hm => ⟨hm.1, Nat.lt_of_lt_of_le hm.2 adv.grows.sources⟩

theorem Meaning.mono {first : Nat} {e : Expr} {value : OpenRows → Outcome Value}
    (hp : p.forest.Sound c) (h : Meaning c tables first p opens e value) (ext : Extends c p q) :
    Meaning c tables first q opens e value :=
  h.advance hp ext.toAdvances (ext.paths.mono fun _ hm => hm.2)

/-- Sources that are older than a body's own may be counted among them. -/
theorem Meaning.widen {first first' : Nat} {e : Expr} {value : OpenRows → Outcome Value}
    (h : Meaning c tables first p opens e value) (hle : first' ≤ first) :
    Meaning c tables first' p opens e value where
  fits := h.fits
  names := h.names
  refs := h.refs
  eval f o scope hgrows hpaths := h.eval f o scope hgrows
    (hpaths.mono fun _ hm => ⟨Nat.le_trans hle hm.1, hm.2⟩)

end Extension

end EntityQuery
