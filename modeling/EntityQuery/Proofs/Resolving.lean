import EntityQuery.Expansion.Resolution
import EntityQuery.Proofs.FreshNames

/-!
# Resolving keeps values

A resolved expression reads from the row parameter what the references of the scope stood for, so
it has the value of the expression that it comes from (`Resolved`), and what `reduce` makes of a
whole query needs no view any more. Both hold for every expression whose streams have selectors
without parameters.
-/

namespace EntityQuery

open EntityQuery.Expr

/-- The operator answers a list of rows, if it answers anything. -/
def Operator.yieldsRows : Operator → Bool
  | filter | select | orderBy | orderByDescending | thenBy | thenByDescending | join | groupJoin
  | selectMany | defaultIfEmpty | distinct | take | skip | ofType => true
  | _ => false

/-- The expression is a set or a call that answers rows. -/
def Expr.isSequence : Expr → Bool
  | .entitySet _ => true
  | .call operator (source :: _) _ =>
    operator.yieldsRows ||
      ((operator == .asOrdered || operator == .asTracking) && source.isSequence)
  | _ => false

/-- A stream reads its rows from a sequence, and its selector is closed. -/
structure StreamFits (rows selector : Expr) : Prop where
  rows : rows.isSequence = true
  selector : selector.freeParams = []

/-- All streams of an expression fit. -/
def Expr.StreamsFit (e : Expr) : Prop :=
  ∀ rows selector frame, .stream rows selector frame ∈ e.nodes → StreamFits rows selector

namespace Expr.StreamsFit

variable {e c : Expr}

theorem child (h : e.StreamsFit) (hc : c ∈ e.children) : c.StreamsFit :=
  fun rows selector frame hs => h rows selector frame (mem_nodes_of_child hc hs)

theorem of_hasStream (h : e.hasStream = false) : e.StreamsFit := by
  intro rows selector frame hs
  have : e.hasStream = true := List.any_eq_true.2 ⟨_, hs, rfl⟩
  rw [this] at h
  cases h

end Expr.StreamsFit

theorem Expr.isSequence_substitute {e : Expr} {x : String} {replacement : Expr}
    (h : e.isSequence = true) : (e.substitute x replacement).isSequence = true := by
  induction e using children_induction with
  | step e ih =>
    cases e with
    | entitySet entity => exact h
    | call operator arguments note =>
      cases arguments with
      | nil => cases h
      | cons source rest =>
        have ih := ih source (.head _)
        rw [substitute_of_none rfl]
        change (operator.yieldsRows || (operator == .asOrdered || operator == .asTracking) &&
          (source.substitute x replacement).isSequence) = true
        rw [isSequence, Bool.or_eq_true, Bool.and_eq_true] at h
        rw [Bool.or_eq_true, Bool.and_eq_true]
        exact h.imp_right fun h => ⟨h.1, ih h.2⟩
    | _ => cases h

theorem Expr.StreamsFit.substitute {e : Expr} (h : e.StreamsFit) (old new : String) :
    (e.substitute old (.param new)).StreamsFit := by
  intro rows selector frame hs
  rcases mem_nodes_substitute hs with hs | ⟨b, hb, hs⟩
  · simp [nodes] at hs
  · cases hs with
    | stream _ hrows hsel =>
      obtain ⟨sequence, closed⟩ := h _ _ _ hb
      constructor
      · rcases hrows with rfl | rfl
        · exact sequence
        · exact isSequence_substitute sequence
      · rcases hsel with rfl | rfl
        · exact closed
        · rwa [substitute_of_not_mem (by rw [closed]; exact List.not_mem_nil)]

/-- The outcome is a list of rows or an error. -/
def Rows (o : Outcome Value) : Prop := ∀ value, o = .ok value → ∃ items, value = .list items

namespace Rows

theorem list (items : List Value) : Rows (.ok (.list items)) := by
  intro value h
  cases h
  exact ⟨items, rfl⟩

theorem error (e : EvalError) : Rows (.error e) := fun _ h => nomatch h

theorem bind {α : Type} {x : Outcome α} {f : α → Outcome Value} (h : ∀ a, Rows (f a)) :
    Rows (x >>= f) := by
  cases x with
  | ok a => exact h a
  | error e => exact error e

theorem of_yieldsRows {op : Operator} {arguments : List Argument} (h : op.yieldsRows = true) :
    Rows (evalOperator op arguments) := by
  cases op
  case any | count | contains | first | firstOrDefault | single | singleOrDefault | asOrdered
    | asTracking | other => cases h
  case thenBy | thenByDescending | ofType => exact error _
  all_goals
    unfold evalOperator
    split
    all_goals first
      | contradiction
      | exact error _
      | exact bind fun _ => list _
      | exact bind fun _ => bind fun _ => list _
      | exact bind fun _ => bind fun _ => bind fun _ => list _
      | exact bind fun _ => bind fun _ => bind fun _ => bind fun _ => list _
      | exact bind fun rows => by cases rows <;> exact list _

/-- A sequence has a list of rows for its value. -/
theorem of_isSequence {e : Expr} {tables : Tables} {v : RowView} {scope : Scope}
    (h : e.isSequence = true) : Rows (e.evalIn tables v scope) := by
  induction e using children_induction with
  | step e ih =>
    cases e with
    | entitySet entity =>
      simp only [evalIn]
      split
      · exact list _
      · exact error _
    | call operator arguments note =>
      cases arguments with
      | nil => cases h
      | cons source rest =>
        rw [isSequence, Bool.or_eq_true, Bool.and_eq_true, Bool.or_eq_true, beq_iff_eq,
          beq_iff_eq] at h
        rcases h with h | ⟨rfl | rfl, h⟩
        · exact of_yieldsRows h
        · exact ih source (.head _) h
        · exact ih source (.head _) h
    | _ => cases h

end Rows

theorem hasStream_substitute {e : Expr} {old new : String} (h : e.hasStream = false) :
    (e.substitute old (.param new)).hasStream = false := by
  refine Bool.eq_false_iff.2 fun hs => ?_
  obtain ⟨d, hd, hs⟩ := List.any_eq_true.1 hs
  split at hs
  · rcases mem_nodes_substitute hd with hd | ⟨b, hb, hd⟩
    · simp [nodes] at hd
    · cases hd
      have : e.hasStream = true := List.any_eq_true.2 ⟨_, hb, rfl⟩
      rw [this] at h
      cases h
  · cases hs

namespace Expr

/-- Reading a path from a parameter. -/
theorem evalIn_readPath {tables : Tables} {v : RowView} {scope : Scope} {parameter : String}
    {w : Value} (path : List String) (h : scope.lookup parameter = some w) :
    (readPath parameter path).evalIn tables v scope = w.at path := by
  have walk (e : Expr) : (path.foldl .member e).evalIn tables v scope =
      e.evalIn tables v scope >>= fun w => w.at path := by
    induction path generalizing e with
    | nil => exact (bind_pure _).symm
    | cons m path ih =>
      rw [List.foldl_cons, ih]
      simp only [evalIn, Value.at, List.foldlM_cons, bind_assoc]
  rw [readPath, walk]
  simp only [evalIn, h]
  rfl

theorem nodes_readPath {parameter : String} {path : List String} {d : Expr}
    (h : d ∈ (readPath parameter path).nodes) :
    d = .param parameter ∨ ∃ t name, d = .member t name := by
  have walk (path : List String) : ∀ e : Expr, d ∈ (path.foldl .member e).nodes →
      d ∈ e.nodes ∨ ∃ t name, d = .member t name := by
    induction path with
    | nil => exact fun e h => .inl h
    | cons m path ih =>
      intro e h
      rcases ih _ h with h | h
      · rcases mem_nodes_iff.1 h with rfl | ⟨c, hc, hd⟩
        · exact .inr ⟨_, _, rfl⟩
        · obtain rfl := List.mem_singleton.1 hc
          exact .inl hd
      · exact .inr h
  rcases walk path _ h with h | h
  · exact .inl (by simpa [nodes] using h)
  · exact .inr h

theorem hasStream_readPath {parameter : String} {path : List String} :
    (readPath parameter path).hasStream = false := by
  refine Bool.eq_false_iff.2 fun hs => ?_
  obtain ⟨d, hd, hs⟩ := List.any_eq_true.1 hs
  rcases nodes_readPath hd with rfl | ⟨t, name, rfl⟩ <;> cases hs

theorem rowRefs_readPath {parameter : String} {path : List String} :
    (readPath parameter path).rowRefs = [] := by
  refine List.eq_nil_iff_forall_not_mem.2 fun r hr => ?_
  rcases nodes_readPath (mem_rowRefs.1 hr) with h | ⟨t, name, h⟩ <;> cases h

end Expr

/-- The references of an expression that a scope resolves are found in the row `w` of its
parameter. -/
def RowScope.Reads (s : RowScope) (f : Forest) (v : RowView) (scope : Scope) (w : Value)
    (e : Expr) : Prop :=
  ∀ r ∈ e.rowRefs, s.owns r = true → scope.lookup s.parameter = some w ∧
    ∀ path, f.rowPath? r.node = some path → v.row r = w.at path

/-- What resolving over a scope makes of an expression. -/
structure Resolved (s : RowScope) (f : Forest) (k : Nat) (e e' : Expr) : Prop where
  names : e'.NamesOld k
  plain : e'.hasStream = false
  refs : ∀ r ∈ e'.rowRefs, r ∈ e.rowRefs ∧ s.owns r = false
  agree : ∀ tables v scope w, v.path = f.rowPath? → s.Reads f v scope w e →
    Agree tables v scope e v scope e'

/-- At most names are generated between two points of an expansion. -/
structure OnlyNames (p p' : Progress) : Prop where
  forest : p'.forest = p.forest
  names : p.names ≤ p'.names

namespace OnlyNames

theorem refl (p : Progress) : OnlyNames p p := ⟨rfl, Nat.le_refl _⟩

theorem trans {p q r : Progress} (h : OnlyNames p q) (k : OnlyNames q r) : OnlyNames p r :=
  ⟨k.forest.trans h.forest, Nat.le_trans h.names k.names⟩

end OnlyNames

/-- A step that resolves expressions without streams over a scope. -/
def ResolvesPlain (M : Model) (step : RowScope → Expr → Expansion Expr) : Prop :=
  ∀ s e p e' p', e.hasStream = false → e.NamesOld p.names → OldName p.names s.parameter →
    Runs (step s e) M p e' p' → OnlyNames p p' ∧ Resolved s p.forest p'.names e e'

section Steps

variable {again : RowScope → Expr → Expansion Expr} {s : RowScope}

/-- The expression is resolved part by part. -/
def Expr.isResolvedByParts : Expr → Bool
  | .member (.rowRef _) _ | .rowRef _ | .nullSafeEqual .. | .lambda .. | .stream .. => false
  | _ => true

/-- What is resolved part by part has no stream if its parts have none. -/
theorem Expr.SameHead.plain {e e' : Expr} (head : SameHead (fun _ c' => c'.hasStream = false) e e')
    (kind : e.isResolvedByParts = true) : e'.hasStream = false := by
  refine hasStream_eq_false_iff.2 ⟨?_, fun c' hc' => ?_⟩
  · rintro rows selector frame rfl
    cases head
    cases kind
  · obtain ⟨-, -, plain⟩ := head.of_mem_children hc'
    exact plain

theorem resolveWith_parts {e : Expr} (h : e.isResolvedByParts = true) :
    resolveWith again s e = e.mapChildren (resolveWith again s) := by
  cases e with
  | member t name =>
    cases t with
    | rowRef r => cases h
    | _ => rw [resolveWith] <;> simp
  | rowRef _ | nullSafeEqual _ _ _ | lambda _ _ | stream _ _ _ => cases h
  | _ => rw [resolveWith] <;> simp

theorem Runs.path_iff {M : Model} {p p' : Progress} {r : RowRef} {e : Expr} :
    Runs (s.path r) M p e p' ↔
      ∃ path, p.forest.rowPath? r.node = some path ∧ e = readPath s.parameter path ∧ p = p' := by
  simp only [RowScope.path, Runs.bind_iff, Runs.forest_iff]
  constructor
  · rintro ⟨_, _, ⟨rfl, rfl⟩, h⟩
    split at h
    · next path hp =>
      obtain ⟨rfl, rfl⟩ := Runs.pure_iff.1 h
      exact ⟨path, hp, rfl, rfl⟩
    · exact (Runs.throw_iff.1 h).elim
  · rintro ⟨path, hp, rfl, rfl⟩
    refine ⟨_, _, ⟨rfl, rfl⟩, ?_⟩
    rw [hp]
    exact Runs.pure_iff.2 ⟨rfl, rfl⟩

theorem Runs.readRow {M : Model} {p p' : Progress} {r : RowRef} {e : Expr}
    (h : Runs (s.readRow r) M p e p') :
    ∃ path, p.forest.rowPath? r.node = some path ∧ p = p' ∧
      (e = readPath s.parameter path ∨ ∃ entity, e = .entityShape entity (readPath s.parameter path)) := by
  simp only [RowScope.readRow, Runs.bind_iff, Runs.path_iff, Runs.node_iff] at h
  obtain ⟨_, _, ⟨path, hp, rfl, rfl⟩, _, _, ⟨rfl, rfl⟩, h⟩ := h
  split at h
  · next entity _ =>
    obtain ⟨rfl, rfl⟩ := Runs.pure_iff.1 h
    exact ⟨path, hp, rfl, .inr ⟨entity, rfl⟩⟩
  · obtain ⟨rfl, rfl⟩ := Runs.pure_iff.1 h
    exact ⟨path, hp, rfl, .inl rfl⟩

theorem Runs.readProperty {M : Model} {p p' : Progress} {r : RowRef} {name : String} {e : Expr}
    (h : Runs (s.readProperty r name) M p e p') :
    ∃ path, p.forest.rowPath? r.node = some path ∧ p = p' ∧
      e = .member (readPath s.parameter path) name := by
  simp only [RowScope.readProperty, Runs.bind_iff, Runs.path_iff, Runs.node_iff] at h
  obtain ⟨_, _, ⟨path, hp, rfl, rfl⟩, _, _, ⟨rfl, rfl⟩, h⟩ := h
  refine ⟨path, hp, ?_⟩
  split at h
  · simp only [Runs.bind_iff, Runs.entityType_iff] at h
    obtain ⟨_, _, ⟨_, rfl⟩, h⟩ := h
    split at h
    · simp only [Runs.bind_iff, Runs.throw_iff, false_and, exists_false] at h
    · obtain ⟨rfl, rfl⟩ := Runs.pure_iff.1 h
      exact ⟨rfl, rfl⟩
  · obtain ⟨rfl, rfl⟩ := Runs.pure_iff.1 h
    exact ⟨rfl, rfl⟩

end Steps

namespace Resolved

variable {s : RowScope} {f : Forest} {k l : Nat} {e e' : Expr}

theorem mono (h : Resolved s f k e e') (hkl : k ≤ l) : Resolved s f l e e' :=
  ⟨h.names.mono hkl, h.plain, h.refs, h.agree⟩

theorem reads_child {v : RowView} {scope : Scope} {w : Value} {c : Expr}
    (h : s.Reads f v scope w e) (hc : c ∈ e.children) : s.Reads f v scope w c :=
  fun r hr => h r (mem_rowRefs_of_child hc hr)

/-- An expression that nothing happens to. -/
theorem unchanged (hn : e.NamesOld k) (hs : e.hasStream = false)
    (hr : ∀ r ∈ e.rowRefs, s.owns r = false) : Resolved s f k e e :=
  ⟨hn, hs, fun r h => ⟨h, hr r h⟩, fun _ _ _ _ _ _ => .refl _ _ _ _⟩

/-- A reference that is read from the row parameter. -/
theorem read {r : RowRef} {path : List String} (hs : OldName k s.parameter) (ho : s.owns r = true)
    (hp : f.rowPath? r.node = some path) :
    Resolved s f k (.rowRef r) (readPath s.parameter path) where
  names := by
    intro x hx
    obtain ⟨d, hd, hx⟩ := List.mem_flatMap.1 hx
    rcases nodes_readPath hd with rfl | ⟨t, name, rfl⟩
    · obtain rfl := List.mem_singleton.1 hx
      exact hs
    · cases hx
  plain := hasStream_readPath
  refs := by
    intro r' hr
    rw [rowRefs_readPath] at hr
    cases hr
  agree := by
    intro tables v scope w _ hreads
    obtain ⟨hl, hrow⟩ := hreads r (by simp [rowRefs, nodes]) ho
    refine .of_value (.of_eq ?_) (by simp) ?_
    · rw [evalIn_readPath path hl, evalIn, hrow path hp]
    · intro params body h
      rcases nodes_readPath (self_mem_nodes (readPath s.parameter path)) with hp | ⟨t, name, hp⟩
      all_goals
        rw [hp] at h
        cases h

/-- The shape of an entity changes no value. -/
theorem shaped (h : Resolved s f k e e') (he : ∀ params body, e ≠ .lambda params body)
    (entity : String) : Resolved s f k e (.entityShape entity e') where
  names := .of_parts (fun x hx => by cases hx) fun c hc => by
    obtain rfl := List.mem_singleton.1 hc
    exact h.names
  plain := hasStream_eq_false_iff.2 ⟨by simp, fun c hc => by
    obtain rfl := List.mem_singleton.1 hc
    exact h.plain⟩
  refs := by
    intro r hr
    rcases mem_rowRefs_iff.1 hr with hr | ⟨c, hc, hr⟩
    · cases hr
    · obtain rfl := List.mem_singleton.1 hc
      exact h.refs r hr
  agree := fun tables v scope w hv hreads =>
    .of_value (h.agree tables v scope w hv hreads).value he (by simp)

/-- Resolving part by part. -/
theorem of_sameHead (h : SameHead (fun c c' => c ∈ e.children ∧ Resolved s f k c c') e e')
    (he : e.isClosedHead = true) (hn : e.NamesOld k) : Resolved s f k e e' where
  names := by
    refine .of_parts ?_ fun c' hc' => ?_
    · rw [ownNames_of_sameHead h]
      exact fun x hx => hn x (mem_names_iff.2 (.inl hx))
    · obtain ⟨c, _, _, hc⟩ := h.of_mem_children hc'
      exact hc.names
  plain := by
    refine hasStream_eq_false_iff.2 ⟨?_, fun c' hc' => ?_⟩
    · rintro rows selector frame rfl
      cases h
      cases he
    · obtain ⟨c, _, _, hc⟩ := h.of_mem_children hc'
      exact hc.plain
  refs := by
    intro r hr
    rcases mem_rowRefs_iff.1 hr with rfl | ⟨c', hc', hr⟩
    · cases h
      cases he
    · obtain ⟨c, hmem, _, hc⟩ := h.of_mem_children hc'
      obtain ⟨hr, ho⟩ := hc.refs r hr
      exact ⟨mem_rowRefs_of_child hmem hr, ho⟩
  agree := by
    intro tables v scope w hv hreads
    refine .of_sameHead (h.mono fun c c' hc => ?_) he
    exact hc.2.agree tables v scope w hv (reads_child hreads hc.1)

/-- A lambda whose body is resolved; its parameters hide the scope's from no reference. -/
theorem lambda {params : List String} {body body' : Expr} (h : Resolved s f k body body')
    (hn : (Expr.lambda params body).NamesOld k)
    (hc : s.parameter ∈ params → ∀ r ∈ body.rowRefs, s.owns r = false) :
    Resolved s f k (.lambda params body) (.lambda params body') where
  names := by
    refine .of_parts (fun x hx => hn x (mem_names_iff.2 (.inl hx))) fun c hc => ?_
    obtain rfl := List.mem_singleton.1 hc
    exact h.names
  plain := by
    refine hasStream_eq_false_iff.2 ⟨by simp, fun c hc => ?_⟩
    obtain rfl := List.mem_singleton.1 hc
    exact h.plain
  refs := by
    intro r hr
    rcases mem_rowRefs_iff.1 hr with hr | ⟨c, hc, hr⟩
    · cases hr
    · obtain rfl := List.mem_singleton.1 hc
      obtain ⟨hr, ho⟩ := h.refs r hr
      exact ⟨mem_rowRefs_of_child (.head _) hr, ho⟩
  agree := by
    intro tables v scope w hv hreads
    refine Agree.lambda rfl fun values hl => (h.agree tables v _ w hv fun r hr ho => ?_).value
    obtain ⟨hl, hrow⟩ := hreads r (mem_rowRefs_of_child (.head _) hr) ho
    refine ⟨?_, hrow⟩
    rw [Scope.lookup_bind_of_not_mem, hl]
    intro hm
    rw [hc hm r hr] at ho
    cases ho

/-- A lambda that takes the scope's parameter for itself and is given another name. -/
theorem renamed {params : List String} {body body' : Expr} {letter : Char} {k' : Nat}
    (hn : (Expr.lambda params body).NamesOld k) (hs : OldName k s.parameter)
    (hp : s.parameter ∈ params) (hk : k + 1 ≤ k')
    (h : Resolved s f k' ((Lambda.mk params body).rename s.parameter (generatedName letter (k + 1))).body
      body') :
    Resolved s f k' (.lambda params body)
      (.lambda ((Lambda.mk params body).rename s.parameter (generatedName letter (k + 1))).params
        body') := by
  have old : s.parameter ≠ generatedName letter (k + 1) := hs letter _ (Nat.lt_succ_self k)
  have generated : OldName k' (generatedName letter (k + 1)) := (OldName.generated letter _).mono hk
  have params_old : ∀ x ∈ params, OldName k' x := fun x hx =>
    (hn x (by simp [Expr.names, nodes, ownNames, hx])).mono (Nat.le_of_succ_le hk)
  have not_mem : s.parameter ∉
      ((Lambda.mk params body).rename s.parameter (generatedName letter (k + 1))).params := by
    intro hm
    obtain ⟨y, -, hy⟩ := List.mem_map.1 hm
    split at hy
    · exact old hy.symm
    · next hne => exact hne hy
  refine ⟨?_, ?_, ?_, ?_⟩
  · refine .of_parts (fun x hx => ?_) fun c hc => ?_
    · obtain ⟨y, hy, rfl⟩ := List.mem_map.1 hx
      split
      · exact generated
      · exact params_old y hy
    · obtain rfl := List.mem_singleton.1 hc
      exact h.names
  · refine hasStream_eq_false_iff.2 ⟨by simp, fun c hc => ?_⟩
    obtain rfl := List.mem_singleton.1 hc
    exact h.plain
  · intro r hr
    rcases mem_rowRefs_iff.1 hr with hr | ⟨c, hc, hr⟩
    · cases hr
    · obtain rfl := List.mem_singleton.1 hc
      obtain ⟨hr, ho⟩ := h.refs r hr
      rcases mem_rowRefs_substitute hr with hr | hr
      · simp [rowRefs, nodes] at hr
      · exact ⟨mem_rowRefs_of_child (.head _) hr, ho⟩
  · intro tables v scope w hv hreads
    refine (Lambda.rename_agree ⟨params, body⟩ hp (hn.fresh letter)).trans ?_
    refine Agree.lambda rfl fun values hl => (h.agree tables v _ w hv fun r hr ho => ?_).value
    rw [Scope.lookup_bind_of_not_mem not_mem]
    rcases mem_rowRefs_substitute hr with hr | hr
    · simp [rowRefs, nodes] at hr
    · exact hreads r (mem_rowRefs_of_child (.head _) hr) ho

end Resolved

namespace StreamFrame

variable {frame : StreamFrame} {rows : Expr}

theorem call_nodes {operator : Operator} {arguments : List Expr} {note : Option CallNote} {d : Expr}
    (h : d ∈ (Expr.call operator arguments note).nodes) :
    d = .call operator arguments note ∨ ∃ c ∈ arguments, d ∈ c.nodes :=
  mem_nodes_iff.1 h

/-- What the query of a stream is made of. -/
theorem query_nodes {selector? : Option Expr} {d : Expr}
    (h : d ∈ (frame.query rows selector?).nodes) :
    (∃ operator arguments, d = .call operator arguments none) ∨ d ∈ rows.nodes ∨
      ∃ selector ∈ selector?, d ∈ selector.nodes := by
  obtain ⟨parameter, sources, needsProjection, ordered, cardinality⟩ := frame
  have projected {selector : Expr} (h : d ∈ (Expr.call .select [rows, selector] none).nodes) :
      (∃ operator arguments, d = .call operator arguments none) ∨ d ∈ rows.nodes ∨
        ∃ s ∈ some selector, d ∈ s.nodes := by
    rcases call_nodes h with h | ⟨c, hc, hd⟩
    · exact .inl ⟨_, _, h⟩
    · simp only [List.mem_cons, List.not_mem_nil, or_false] at hc
      rcases hc with rfl | rfl
      · exact .inr (.inl hd)
      · exact .inr (.inr ⟨_, rfl, hd⟩)
  cases cardinality with
  | none =>
    cases selector? with
    | none => exact .inr (.inl h)
    | some selector => exact projected h
  | some operator =>
    rcases call_nodes h with h | ⟨c, hc, hd⟩
    · exact .inl ⟨_, _, h⟩
    · obtain rfl := List.mem_singleton.1 hc
      cases selector? with
      | none => exact .inr (.inl hd)
      | some selector => exact projected hd

theorem evalOperator_select (source selector : Argument) :
    evalOperator .select [source, selector] =
      .list <$> (source.rows >>= fun rows => rows.mapM fun w => selector.apply [w]) := by
  simp only [evalOperator, mapRows_eq_mapM, map_eq_pure_bind, bind_assoc]

variable {tables : Tables} {v v' : RowView} {scope scope' : Scope} {rows' selector selector' : Expr}

/-- A stream is its rows, each brought through a selector. -/
theorem agree_query_some (hr : Agree tables v scope rows v' scope' rows')
    (hs : ∀ w, Alike (selector.evalIn tables (v.enter frame.sources w) scope)
      (selector'.applyIn tables v' scope' [w])) :
    Agree tables v scope (.stream rows selector frame) v' scope'
      (frame.query rows' (some selector')) := by
  obtain ⟨parameter, sources, needsProjection, ordered, cardinality⟩ := frame
  have projected : Alike
      (.list <$> do
        let rows ←
          Argument.rows ⟨fun _ => rows.evalIn tables v scope, fun _ => throw (.notALambda rows)⟩
        rows.mapM fun w => selector.evalIn tables (v.enter sources w) scope)
      ((Expr.call .select [rows', selector'] none).evalIn tables v' scope') := by
    rw [evalIn, evalArgumentsIn, evalArgumentsIn, evalArgumentsIn, evalOperator_select]
    exact .map _ (.bind (Argument.Alike.rows hr.value) fun rows _ => mapM_alike fun w _ => hs w)
  cases cardinality with
  | none => exact .of_value projected (by simp) (by simp [query])
  | some operator =>
    refine .of_value ?_ (by simp) (by simp [query])
    exact evalOperator_alike operator (.cons ⟨projected, fun _ => .error rfl⟩ .nil)

/-- A stream whose selector returns the row is its rows. -/
theorem agree_query_none (hr : Agree tables v scope rows v' scope' rows')
    (hseq : rows.isSequence = true) (hl : ∀ params body, rows' ≠ .lambda params body)
    (hs : ∀ w, selector.evalIn tables (v.enter frame.sources w) scope = .ok w) :
    Agree tables v scope (.stream rows selector frame) v' scope' (frame.query rows' none) := by
  obtain ⟨parameter, sources, needsProjection, ordered, cardinality⟩ := frame
  have unprojected : Alike
      (.list <$> do
        let rows ←
          Argument.rows ⟨fun _ => rows.evalIn tables v scope, fun _ => throw (.notALambda rows)⟩
        rows.mapM fun w => selector.evalIn tables (v.enter sources w) scope)
      (rows'.evalIn tables v' scope') := by
    refine Alike.trans (.of_eq ?_) hr.value
    simp only [hs]
    cases hrows : rows.evalIn tables v scope with
    | error e => rfl
    | ok value =>
      obtain ⟨items, rfl⟩ := Rows.of_isSequence hseq value hrows
      have all : (items.mapM fun w => (pure w : Outcome Value)) = .ok items := by
        rw [List.mapM_pure, List.map_id']
        rfl
      exact congrArg (Value.list <$> ·) all
  cases cardinality with
  | none => exact .of_value unprojected (by simp) (by simpa [query] using hl)
  | some operator =>
    refine .of_value ?_ (by simp) (by simp [query])
    refine evalOperator_alike operator (.cons ⟨unprojected, fun values => ?_⟩ .nil)
    change Alike _ (rows'.applyIn tables v' scope' values)
    rw [Agree.applyIn_refused tables v' scope' hl values]
    exact .error rfl

end StreamFrame

namespace Resolved

variable {s : RowScope} {f : Forest} {k : Nat} {rows rows' selector body selector' : Expr}
  {frame : StreamFrame}

/-- A query over rows without streams has none. -/
theorem query_plain (frame : StreamFrame) {selector? : Option Expr} (hr : rows'.hasStream = false)
    (hs : ∀ d ∈ selector?, d.hasStream = false) : (frame.query rows' selector?).hasStream = false := by
  refine Bool.eq_false_iff.2 fun h => ?_
  obtain ⟨d, hd, h⟩ := List.any_eq_true.1 h
  rcases frame.query_nodes hd with ⟨operator, arguments, rfl⟩ | hd | ⟨sel, hsel, hd⟩
  · cases h
  · exact Bool.eq_false_iff.1 hr (List.any_eq_true.2 ⟨d, hd, h⟩)
  · exact Bool.eq_false_iff.1 (hs sel hsel) (List.any_eq_true.2 ⟨d, hd, h⟩)

/-- What a query is made of, if its parts have no streams. -/
theorem query_parts (frame : StreamFrame) (selector? : Option Expr) (hr : rows'.NamesOld k) (hrs : rows'.hasStream = false)
    (hs : ∀ d ∈ selector?, d.NamesOld k ∧ d.hasStream = false) :
    (frame.query rows' selector?).NamesOld k ∧ (frame.query rows' selector?).hasStream = false := by
  refine ⟨fun x hx => ?_, query_plain frame hrs fun d hd => (hs d hd).2⟩
  obtain ⟨d, hd, hx⟩ := List.mem_flatMap.1 hx
  rcases frame.query_nodes hd with ⟨operator, arguments, rfl⟩ | hd | ⟨sel, hsel, hd⟩
  · cases hx
  · exact hr x (List.mem_flatMap.2 ⟨d, hd, hx⟩)
  · exact (hs sel hsel).1 x (List.mem_flatMap.2 ⟨d, hd, hx⟩)

/-- A reference in a query stands in its rows or in its selector. -/
theorem query_refs {selector? : Option Expr} {r : RowRef}
    (h : r ∈ (frame.query rows' selector?).rowRefs) :
    r ∈ rows'.rowRefs ∨ ∃ d ∈ selector?, r ∈ d.rowRefs := by
  rcases frame.query_nodes (mem_rowRefs.1 h) with ⟨operator, arguments, h⟩ | h | ⟨d, hd, h⟩
  · cases h
  · exact .inl (mem_rowRefs.2 h)
  · exact .inr ⟨d, hd, mem_rowRefs.2 h⟩

/-- The selector of a stream, read from the parameter of the stream instead of its own view. -/
theorem agree_selector (hsel : Resolved frame.scope f k selector body) (hclosed : selector.freeParams = [])
    {tables : Tables} {v : RowView} {scope : Scope} (hv : v.path = f.rowPath?) (w : Value) :
    Alike (selector.evalIn tables (v.enter frame.sources w) scope)
      ((Expr.lambda [frame.parameter] body).applyIn tables v scope [w]) := by
  have reads : frame.scope.Reads f (v.enter frame.sources w) (scope.bind [frame.parameter] [w]) w
      selector := by
    intro r _ ho
    refine ⟨List.lookup_cons_self, fun path hp => ?_⟩
    have ho : frame.sources.contains r.source = true := ho
    simp only [RowView.enter, ho, if_true, hv, hp]
  have moved : Agree tables (v.enter frame.sources w) scope selector (v.enter frame.sources w)
      (scope.bind [frame.parameter] [w]) selector :=
    .of_congr (fun x hx => by rw [hclosed] at hx; cases hx) (fun _ _ => .refl _) fun _ => rfl
  have resolved := hsel.agree tables (v.enter frame.sources w)
    (scope.bind [frame.parameter] [w]) w hv reads
  have left : Agree tables (v.enter frame.sources w) (scope.bind [frame.parameter] [w]) body v
      (scope.bind [frame.parameter] [w]) body := by
    refine .of_congr (fun _ _ => rfl) (fun r hr => .of_eq ?_) fun _ => rfl
    have ho : frame.sources.contains r.source = false := (hsel.refs r hr).2
    simp only [RowView.enter, ho, Bool.false_eq_true, if_false]
  exact ((moved.trans resolved).trans left).value

/-- A stream that is projected. -/
theorem projected (hsel : Resolved frame.scope f k selector body) (hrows : Resolved s f k rows rows')
    (hlam : Resolved s f k (.lambda [frame.parameter] body) selector')
    (hfits : StreamFits rows selector) :
    Resolved s f k (.stream rows selector frame) (frame.query rows' (some selector')) := by
  have inRows {r : RowRef} (h : r ∈ rows.rowRefs) : r ∈ (Expr.stream rows selector frame).rowRefs :=
    mem_rowRefs_of_child (.head _) h
  have inSelector {r : RowRef} (h : r ∈ selector.rowRefs) :
      r ∈ (Expr.stream rows selector frame).rowRefs :=
    mem_rowRefs_of_child (.tail _ (.head _)) h
  have ofLambda {r : RowRef} (h : r ∈ (Expr.lambda [frame.parameter] body).rowRefs) :
      r ∈ (Expr.stream rows selector frame).rowRefs := by
    rcases mem_rowRefs_iff.1 h with h | ⟨c, hc, h⟩
    · cases h
    · obtain rfl := List.mem_singleton.1 hc
      exact inSelector (hsel.refs r h).1
  have parts := query_parts frame (some selector') hrows.names hrows.plain fun d hd => by
    cases hd
    exact ⟨hlam.names, hlam.plain⟩
  refine ⟨parts.1, parts.2, fun r hr => ?_, fun tables v scope w hv hreads => ?_⟩
  · rcases query_refs hr with hr | ⟨d, hd, hr⟩
    · exact ⟨inRows (hrows.refs r hr).1, (hrows.refs r hr).2⟩
    · cases hd
      exact ⟨ofLambda (hlam.refs r hr).1, (hlam.refs r hr).2⟩
  · refine frame.agree_query_some ?_ fun x => ?_
    · exact hrows.agree tables v scope w hv fun r hr => hreads r (inRows hr)
    · refine (agree_selector hsel hfits.selector hv x).trans ?_
      exact (hlam.agree tables v scope w hv fun r hr => hreads r (ofLambda hr)).apply [x]

/-- A stream that returns its rows as they are. -/
theorem unprojected (hrows : Resolved s f k rows rows') (hl : ∀ params d, rows' ≠ .lambda params d)
    (hreturns : frame.returnsRow f selector = true) (hfits : StreamFits rows selector) :
    Resolved s f k (.stream rows selector frame) (frame.query rows' none) := by
  have parts := query_parts frame none hrows.names hrows.plain (by simp)
  refine ⟨parts.1, parts.2, fun r hr => ?_, fun tables v scope w hv hreads => ?_⟩
  · rcases query_refs hr with hr | ⟨d, hd, hr⟩
    · exact ⟨mem_rowRefs_of_child (.head _) (hrows.refs r hr).1, (hrows.refs r hr).2⟩
    · cases hd
  · refine frame.agree_query_none ?_ hfits.rows hl fun x => ?_
    · exact hrows.agree tables v scope w hv fun r hr => hreads r (mem_rowRefs_of_child (.head _) hr)
    · cases selector with
      | rowRef r =>
        simp only [StreamFrame.returnsRow, Bool.and_eq_true, beq_iff_eq] at hreturns
        have ho : frame.sources.contains r.source = true := hreturns.1.1
        simp only [evalIn, RowView.enter, ho, if_true, hv, hreturns.2]
        rfl
      | _ => cases hreturns

end Resolved

theorem resolveWith_ne_lambda {again : RowScope → Expr → Expansion Expr} {M : Model} {s : RowScope}
    {p p' : Progress} {e e' : Expr} (he : e.isSequence = true)
    (h : Runs (resolveWith again s e) M p e' p') (params : List String) (body : Expr) :
    e' ≠ .lambda params body := by
  have parts : e.isResolvedByParts = true := by
    cases e with
    | entitySet _ | call _ _ _ => rfl
    | _ => cases he
  rw [resolveWith_parts parts] at h
  obtain ⟨-, head⟩ := Runs.mapChildren_within (fun _ _ => True) (fun _ => trivial)
    (fun _ _ => trivial) (fun _ _ _ _ _ _ _ => trivial) h
  rintro rfl
  cases head
  cases he

section Expressions

variable {again : RowScope → Expr → Expansion Expr} {M : Model} {e : Expr}

/-- Every run that resolves the expression keeps the forest and resolves it. -/
def Resolves (again : RowScope → Expr → Expansion Expr) (M : Model) (e : Expr) : Prop :=
  ∀ s p e' p', e.NamesOld p.names → OldName p.names s.parameter →
    Runs (resolveWith again s e) M p e' p' → OnlyNames p p' ∧ Resolved s p.forest p'.names e e'

namespace Resolves

/-- Parts are resolved one after another, so each of them with older names than the whole. -/
theorem of_parts (parts : ∀ c ∈ e.children, Resolves again M c) (hp : e.isResolvedByParts = true)
    (hc : e.isClosedHead = true) : Resolves again M e := by
  intro s p e' p' hn hs h
  rw [resolveWith_parts hp] at h
  obtain ⟨hle, head⟩ := Runs.mapChildren_within OnlyNames OnlyNames.refl OnlyNames.trans
    (fun c hc q c' q' hq hrun =>
      (parts c hc _ _ _ _ ((hn.child hc).mono hq.names) (hs.mono hq.names) hrun).1) h
  refine ⟨hle, Resolved.of_sameHead (head.mono ?_) hc (hn.mono hle.names)⟩
  rintro c c' ⟨hc, q, q', hq, hq', hrun⟩
  obtain ⟨-, hr⟩ := parts c hc _ _ _ _ ((hn.child hc).mono hq.names) (hs.mono hq.names) hrun
  exact ⟨hc, hq.forest ▸ hr.mono hq'.names⟩

theorem param (name : String) : Resolves again M (.param name) := by
  intro s p e' p' hn hs h
  rw [resolveWith_parts rfl] at h
  obtain ⟨rfl, rfl⟩ := Runs.pure_iff.1 h
  exact ⟨.refl _, .unchanged hn rfl (by simp [rowRefs, nodes])⟩

theorem rowRef (r : RowRef) : Resolves again M (.rowRef r) := by
  intro s p e' p' hn hs h
  rw [resolveWith] at h
  split at h
  · next ho =>
    obtain ⟨path, hp, rfl, rfl | ⟨entity, rfl⟩⟩ := Runs.readRow h
    · exact ⟨.refl _, .read hs ho hp⟩
    · exact ⟨.refl _, (Resolved.read hs ho hp).shaped (by simp) entity⟩
  · next ho =>
    obtain ⟨rfl, rfl⟩ := Runs.pure_iff.1 h
    refine ⟨.refl _, .unchanged hn rfl fun r' hr => ?_⟩
    simp only [rowRefs, nodes, List.filterMap_cons, List.filterMap_nil, List.mem_singleton] at hr
    subst hr
    simpa using ho

/-- A property of a row, which is read without the entity's shape. -/
theorem property (r : RowRef) (name : String) : Resolves again M (.member (.rowRef r) name) := by
  intro s p e' p' hn hs h
  rw [resolveWith] at h
  split at h
  · next ho =>
    obtain ⟨path, hp, rfl, rfl⟩ := Runs.readProperty h
    exact ⟨.refl _, .of_sameHead (.member name ⟨.head _, .read hs ho hp⟩) rfl hn⟩
  · next ho =>
    obtain ⟨rfl, rfl⟩ := Runs.pure_iff.1 h
    refine ⟨.refl _, .unchanged hn rfl fun r' hr => ?_⟩
    simp only [rowRefs, nodes, List.filterMap_cons, List.filterMap_nil, List.mem_singleton] at hr
    subst hr
    simpa using ho

theorem member {t : Expr} (name : String) (parts : ∀ c ∈ (t.member name).children, Resolves again M c) :
    Resolves again M (t.member name) := by
  cases t with
  | rowRef r => exact property r name
  | _ => exact of_parts parts rfl rfl

/-- A lambda whose parameter would capture the scope's gets another one, so the body that is resolved
is a renamed one. -/
theorem lambda {params : List String} {body : Expr} (hbody : Resolves again M body)
    (renamed : ∀ old new, Resolves again M (body.substitute old (.param new))) :
    Resolves again M (.lambda params body) := by
  intro s p e' p' hn hs h
  rw [resolveWith] at h
  split at h
  · next hc =>
    simp only [Runs.bind_iff, Runs.pure_iff] at h
    obtain ⟨name, q, hname, body', q', hb, rfl, rfl⟩ := h
    obtain ⟨letter, hletter⟩ := rowParameter_eq s.parameter
    rw [hletter, Runs.freshName_letter] at hname
    obtain ⟨rfl, rfl⟩ := hname
    simp only [RowScope.capturedBy, Bool.and_eq_true, List.contains_iff_mem] at hc
    obtain ⟨hle, hr⟩ : OnlyNames { p with names := p.names + 1 } q' ∧
        Resolved s p.forest q'.names _ body' := by
      refine renamed _ _ _ _ _ _ (fun x hx => ?_) (hs.mono (Nat.le_succ _)) hb
      rcases mem_names_substitute hx with hx | hx
      · obtain rfl : x = _ := by simpa [Expr.names, nodes, ownNames] using hx
        exact .generated letter _
      · exact ((hn.child (.head _)) x hx).mono (Nat.le_succ _)
    refine ⟨⟨hle.forest, Nat.le_trans (Nat.le_succ _) hle.names⟩, ?_⟩
    exact hr.renamed hn hs hc.1 hle.names
  · next hc =>
    simp only [Runs.bind_iff, Runs.pure_iff] at h
    obtain ⟨body', q, hb, rfl, rfl⟩ := h
    obtain ⟨hle, hr⟩ := hbody _ _ _ _ (hn.child (.head _)) hs hb
    refine ⟨hle, hr.lambda (hn.mono hle.names) fun hp r hr => ?_⟩
    simp only [RowScope.capturedBy, Bool.and_eq_true, List.contains_iff_mem, hp, true_and,
      refersTo, List.any_eq_true, not_exists, not_and] at hc
    simpa [RowScope.owns] using hc r hr

/-- A stream's selector becomes the body of a lambda, which is resolved again. -/
theorem stream {rows selector : Expr} {frame : StreamFrame} (hfits : StreamFits rows selector)
    (hrows : Resolves again M rows) (hselector : Resolves again M selector)
    (hagain : ResolvesPlain M again) : Resolves again M (.stream rows selector frame) := by
  intro s p e' p' hn hs h
  rw [resolveWith] at h
  simp only [Runs.bind_iff, Runs.forest_iff] at h
  obtain ⟨_, _, ⟨rfl, rfl⟩, h⟩ := h
  have oldRows : rows.NamesOld p.names := hn.child (.head _)
  have oldSelector : selector.NamesOld p.names := hn.child (.tail _ (.head _))
  have hparam : OldName p.names frame.parameter := hn _ (mem_names_iff.2 (.inl (.head _)))
  split at h
  · simp only [Runs.bind_iff, Runs.pure_iff] at h
    obtain ⟨body, q₁, hbody, rows', q₂, hrun, selector', q₃, hlam, rfl, rfl⟩ := h
    obtain ⟨hle₁, hr₁⟩ := hselector _ _ _ _ oldSelector hparam hbody
    obtain ⟨hle₂, hr₂⟩ := hrows _ _ _ _ (oldRows.mono hle₁.names) (hs.mono hle₁.names) hrun
    have hle₁₂ := hle₁.trans hle₂
    obtain ⟨hle₃, hr₃⟩ := hagain s (.lambda [frame.parameter] body) q₂ selector' _
      (by simpa [hasStream, nodes] using hr₁.plain)
      (.of_parts (by simpa [ownNames] using hparam.mono hle₁₂.names)
        (by simpa [children] using hr₁.names.mono hle₂.names)) (hs.mono hle₁₂.names) hlam
    refine ⟨hle₁₂.trans hle₃, ?_⟩
    refine .projected (hr₁.mono (hle₂.trans hle₃).names) ?_ ?_ hfits
    · exact hle₁.forest ▸ hr₂.mono hle₃.names
    · exact hle₁₂.forest ▸ hr₃
  · next hproject =>
    simp only [Runs.bind_iff, Runs.pure_iff] at h
    obtain ⟨rows', q, hrun, rfl, rfl⟩ := h
    obtain ⟨hle, hr⟩ := hrows _ _ _ _ oldRows hs hrun
    refine ⟨hle, .unprojected hr (resolveWith_ne_lambda hfits.rows hrun) ?_ hfits⟩
    simp only [StreamFrame.mustProject, Bool.or_eq_true, Bool.not_eq_true', not_or,
      Bool.not_eq_false] at hproject
    exact hproject.2

/-- A guard that is a row of the scope is read where it is; any other one is resolved. -/
theorem guard {g g' : Expr} (hg : Resolves again M g) {s : RowScope} {p p' : Progress}
    (hn : g.NamesOld p.names) (hs : OldName p.names s.parameter)
    (h : Runs ((s.readGuard? g).getD (resolveWith again s g)) M p g' p') :
    OnlyNames p p' ∧ Resolved s p.forest p'.names g g' := by
  cases g with
  | rowRef r =>
    by_cases ho : s.owns r = true
    · simp only [RowScope.readGuard?, ho, if_true, Option.getD_some, Runs.path_iff] at h
      obtain ⟨path, hp, rfl, rfl⟩ := h
      exact ⟨.refl _, .read hs ho hp⟩
    · simp only [RowScope.readGuard?, ho] at h
      exact hg _ _ _ _ hn hs h
  | _ => exact hg _ _ _ _ hn hs h

theorem nullSafeEqual {guards : List Expr} {a b : Expr} (hguards : ∀ g ∈ guards, Resolves again M g)
    (ha : Resolves again M a) (hb : Resolves again M b) :
    Resolves again M (.nullSafeEqual guards a b) := by
  intro s p e' p' hn hs h
  rw [resolveWith] at h
  simp only [Runs.bind_iff, mapItemsIn_eq, Runs.pure_iff] at h
  obtain ⟨guards', q₁, hg, a', q₂, hra, b', q₃, hrb, rfl, rfl⟩ := h
  have hmem {g} (hg : g ∈ guards) : g ∈ (Expr.nullSafeEqual guards a b).children := by
    simp [children, hg]
  have hmem_a : a ∈ (Expr.nullSafeEqual guards a b).children := by simp [children]
  have hmem_b : b ∈ (Expr.nullSafeEqual guards a b).children := by simp [children]
  have each {g} (hg : g ∈ guards) {q q' : Progress} {g' : Expr} (hq : OnlyNames p q)
      (h : Runs ((s.readGuard? g).getD (resolveWith again s g)) M q g' q') :
      OnlyNames q q' ∧ Resolved s q.forest q'.names g g' :=
    guard (hguards g hg) ((hn.child (hmem hg)).mono hq.names) (hs.mono hq.names) h
  obtain ⟨hle₁, hrg⟩ := Runs.mapItems_within OnlyNames OnlyNames.refl OnlyNames.trans
    (fun g hg q g' q' hq hrun => (each hg hq hrun).1) hg
  obtain ⟨hle₂, hr₂⟩ := ha _ _ _ _ ((hn.child hmem_a).mono hle₁.names) (hs.mono hle₁.names) hra
  have hle₁₂ := hle₁.trans hle₂
  obtain ⟨hle₃, hr₃⟩ := hb _ _ _ _ ((hn.child hmem_b).mono hle₁₂.names) (hs.mono hle₁₂.names) hrb
  refine ⟨hle₁₂.trans hle₃, .of_sameHead (.nullSafeEqual (hrg.imp ?_) ?_ ?_) rfl
    (hn.mono (hle₁₂.trans hle₃).names)⟩
  · rintro g g' ⟨hg, q, q', hq, hq', hrun⟩
    obtain ⟨-, hr⟩ := each hg hq hrun
    exact ⟨hmem hg, hq.forest ▸ hr.mono (hq'.trans (hle₂.trans hle₃)).names⟩
  · exact ⟨hmem_a, hle₁.forest ▸ hr₂.mono hle₃.names⟩
  · exact ⟨hmem_b, hle₁₂.forest ▸ hr₃⟩

end Resolves

/-- A run of resolving keeps the forest and resolves; what is done about a stream's selector
matters only if there are streams. -/
theorem resolveWith_run (n : Nat) (hsize : e.size ≤ n) (hfit : e.StreamsFit)
    (hagain : e.hasStream = true → ResolvesPlain M again) : Resolves again M e := by
  induction n generalizing e with
  | zero => cases e <;> simp [size] at hsize
  | succ n ih =>
    have part {c} (hc : c ∈ e.children) : Resolves again M c := by
      refine ih ?_ (hfit.child hc) fun h => hagain (hasStream_of_child hc h)
      have := size_lt_of_mem_children hc
      omega
    cases e with
    | param name => exact .param name
    | rowRef r => exact .rowRef r
    | member t name => exact .member name fun c hc => part hc
    | lambda params body =>
      refine .lambda (part (.head _)) fun old new => ?_
      -- Renaming a parameter neither grows the body nor brings a stream into it.
      refine ih ?_ ((hfit.child (.head _)).substitute _ _) fun hstream => hagain ?_
      · rw [Expr.size_substitute_param]
        simp only [size] at hsize
        omega
      · refine hasStream_of_child (.head _) (Bool.of_not_eq_false fun hplain => ?_)
        rw [hasStream_substitute hplain] at hstream
        cases hstream
    | stream rows selector frame =>
      exact .stream (hfit rows selector frame (self_mem_nodes _)) (part (.head _))
        (part (.tail _ (.head _))) (hagain (hasStream_iff.2 (.inl ⟨_, _, _, rfl⟩)))
    | nullSafeEqual guards a b =>
      exact .nullSafeEqual (fun g hg => part (by simp [children, hg])) (part (by simp [children]))
        (part (by simp [children]))
    | _ => exact .of_parts (fun c hc => part hc) rfl rfl

end Expressions

theorem resolvePaths_run {M : Model} : ResolvesPlain M resolvePaths := by
  intro s e p e' p' hplain hn hs h
  refine resolveWith_run e.size (Nat.le_refl _) (.of_hasStream hplain) (fun hstream => ?_)
    _ _ _ _ hn hs h
  rw [hplain] at hstream
  cases hstream

/-- Resolving keeps the forest, and what it makes of an expression has the expression's value. -/
theorem resolve_run {M : Model} {s : RowScope} {p p' : Progress} {e e' : Expr} (hfit : e.StreamsFit)
    (hn : e.NamesOld p.names) (hs : OldName p.names s.parameter)
    (h : Runs (resolve s e) M p e' p') : OnlyNames p p' ∧ Resolved s p.forest p'.names e e' :=
  resolveWith_run e.size (Nat.le_refl _) hfit (fun _ => resolvePaths_run) _ _ _ _ hn hs h

/-- The scope outside of all rows, which resolves no reference. -/
def RowScope.outside : RowScope := ⟨"", []⟩

/-- The expression is reduced part by part. -/
def Expr.isReducedByParts : Expr → Bool
  | .rowRef _ | .stream .. => false
  | _ => true

theorem reduce_parts {e : Expr} (h : e.isReducedByParts = true) : reduce e = e.mapChildren reduce := by
  cases e with
  | rowRef _ | stream _ _ _ => cases h
  | _ => rw [reduce] <;> simp

theorem reduce_ne_lambda {M : Model} {p p' : Progress} {e e' : Expr} (he : e.isSequence = true)
    (h : Runs (reduce e) M p e' p') (params : List String) (body : Expr) :
    e' ≠ .lambda params body := by
  have parts : e.isReducedByParts = true := by
    cases e with
    | entitySet _ | call _ _ _ => rfl
    | _ => cases he
  rw [reduce_parts parts] at h
  obtain ⟨-, head⟩ := Runs.mapChildren_within (fun _ _ => True) (fun _ => trivial)
    (fun _ _ => trivial) (fun _ _ _ _ _ _ _ => trivial) h
  rintro rfl
  cases head
  cases he

theorem Runs.refuseRefs {M : Model} {p p' : Progress} {e : Expr} {u : Unit}
    (h : Runs (refuseRefs e) M p u p') : e.rowRefs = [] ∧ p = p' := by
  rw [EntityQuery.refuseRefs] at h
  split at h
  · next hr => exact ⟨hr, (Runs.pure_iff.1 h).2⟩
  · exact (Runs.throw_iff.1 h).elim

/-- Every run that reduces the expression keeps the forest, and what it makes of the expression has
the same value and holds no references and no streams. -/
def Reduces (M : Model) (e : Expr) : Prop :=
  ∀ p e' p', e.NamesOld p.names → Runs (reduce e) M p e' p' →
    OnlyNames p p' ∧ Resolved .outside p.forest p'.names e e' ∧ e'.rowRefs = []

namespace Reduces

variable {M : Model} {e : Expr}

/-- What is reduced part by part has no references of its own. -/
theorem parts (each : ∀ c ∈ e.children, Reduces M c) (hp : e.isReducedByParts = true)
    {p p' : Progress} {e' : Expr} (hn : e.NamesOld p.names) (h : Runs (reduce e) M p e' p') :
    OnlyNames p p' ∧
      SameHead (fun c c' => c ∈ e.children ∧ Resolved .outside p.forest p'.names c c') e e' ∧
      e'.rowRefs = [] := by
  rw [reduce_parts hp] at h
  obtain ⟨hle, head⟩ := Runs.mapChildren_within OnlyNames OnlyNames.refl OnlyNames.trans
    (fun c hc q c' q' hq hrun => (each c hc _ _ _ ((hn.child hc).mono hq.names) hrun).1) h
  have head : SameHead (fun c c' => c ∈ e.children ∧ Resolved .outside p.forest p'.names c c' ∧
      c'.rowRefs = []) e e' := by
    refine head.mono ?_
    rintro c c' ⟨hc, q, q', hq, hq', hrun⟩
    obtain ⟨-, hr, href⟩ := each c hc _ _ _ ((hn.child hc).mono hq.names) hrun
    exact ⟨hc, hq.forest ▸ hr.mono hq'.names, href⟩
  refine ⟨hle, head.mono fun c c' h => ⟨h.1, h.2.1⟩, ?_⟩
  refine List.eq_nil_iff_forall_not_mem.2 fun r hr => ?_
  rcases mem_rowRefs_iff.1 hr with rfl | ⟨c', hc', hr⟩
  · cases head
    cases hp
  · obtain ⟨c, -, -, -, href⟩ := head.of_mem_children hc'
    rw [href] at hr
    cases hr

theorem of_parts (each : ∀ c ∈ e.children, Reduces M c) (hp : e.isReducedByParts = true)
    (hc : e.isClosedHead = true) : Reduces M e := by
  intro p e' p' hn h
  obtain ⟨hle, head, href⟩ := parts each hp hn h
  exact ⟨hle, .of_sameHead head hc (hn.mono hle.names), href⟩

theorem param (name : String) : Reduces M (.param name) := by
  intro p e' p' hn h
  obtain ⟨hle, head, href⟩ := parts (by simp [children]) rfl hn h
  cases head
  exact ⟨hle, .unchanged (hn.mono hle.names) rfl fun _ _ => rfl, href⟩

theorem lambda {params : List String} {body : Expr} (hbody : Reduces M body) :
    Reduces M (.lambda params body) := by
  intro p e' p' hn h
  obtain ⟨hle, head, href⟩ := parts (by simpa [children] using hbody) rfl hn h
  cases head with
  | lambda _ hbody => exact ⟨hle, hbody.2.lambda (hn.mono hle.names) fun _ _ _ => rfl, href⟩

/-- A query over closed rows is closed if its selector is. -/
theorem query_closed {rows : Expr} {selector? : Option Expr} {frame : StreamFrame}
    (hrows : rows.rowRefs = []) (hselector : ∀ d ∈ selector?, d.rowRefs = []) :
    (frame.query rows selector?).rowRefs = [] := by
  refine List.eq_nil_iff_forall_not_mem.2 fun r hr => ?_
  rcases Resolved.query_refs hr with hr | ⟨d, hd, hr⟩
  · rw [hrows] at hr
    cases hr
  · rw [hselector d hd] at hr
    cases hr

/-- Nothing is in scope around a stream of a query, so only its own rows are left to resolve. -/
theorem stream {rows selector : Expr} {frame : StreamFrame} (hfits : StreamFits rows selector)
    (hrows : Reduces M rows) (hselector : selector.StreamsFit) :
    Reduces M (.stream rows selector frame) := by
  intro p e' p' hn h
  rw [reduce] at h
  simp only [Runs.bind_iff, Runs.forest_iff] at h
  obtain ⟨_, _, ⟨rfl, rfl⟩, h⟩ := h
  have oldRows : rows.NamesOld p.names := hn.child (.head _)
  have oldSelector : selector.NamesOld p.names := hn.child (.tail _ (.head _))
  have hparam : OldName p.names frame.parameter := hn _ (mem_names_iff.2 (.inl (.head _)))
  split at h
  · simp only [Runs.bind_iff, Runs.pure_iff] at h
    obtain ⟨body, q₁, hbody, rows', q₂, hrun, _, _, hrefuse, rfl, rfl⟩ := h
    obtain ⟨hrefs, rfl⟩ := Runs.refuseRefs hrefuse
    obtain ⟨hle₁, hr₁⟩ := resolve_run hselector oldSelector hparam hbody
    obtain ⟨hle₂, hr₂, href⟩ := hrows _ _ _ (oldRows.mono hle₁.names) hrun
    have hlam : Resolved .outside p.forest q₂.names (.lambda [frame.parameter] body)
        (.lambda [frame.parameter] body) := by
      refine .unchanged (.of_parts ?_ ?_) ?_ fun _ _ => rfl
      · simpa [ownNames] using hparam.mono (hle₁.trans hle₂).names
      · simpa [children] using hr₁.names.mono hle₂.names
      · simpa [hasStream, nodes] using hr₁.plain
    refine ⟨hle₁.trans hle₂, ?_, query_closed href ?_⟩
    · exact .projected (hr₁.mono hle₂.names) (hle₁.forest ▸ hr₂) hlam hfits
    · simpa [rowRefs_eq, children] using hrefs
  · next hproject =>
    simp only [Runs.bind_iff, Runs.pure_iff] at h
    obtain ⟨rows', q, hrun, rfl, rfl⟩ := h
    obtain ⟨hle, hr, href⟩ := hrows _ _ _ oldRows hrun
    refine ⟨hle, .unprojected hr (reduce_ne_lambda hfits.rows hrun) ?_ hfits, query_closed href fun _ hd => by cases hd⟩
    simp only [StreamFrame.mustProject, Bool.or_eq_true, Bool.not_eq_true', not_or,
      Bool.not_eq_false] at hproject
    exact hproject.2

end Reduces

theorem reduce_run {M : Model} {e : Expr} (hfit : e.StreamsFit) : Reduces M e := by
  induction e using children_induction with
  | step e ih =>
    have part {c} (hc : c ∈ e.children) : Reduces M c := ih c hc (hfit.child hc)
    cases e with
    | rowRef r =>
      intro p e' p' _ h
      rw [reduce] at h
      exact (Runs.throw_iff.1 h).elim
    | param name => exact .param name
    | lambda params body => exact .lambda (part (.head _))
    | stream rows selector frame =>
      exact .stream (hfit rows selector frame (self_mem_nodes _)) (part (.head _))
        (hfit.child (.tail _ (.head _)))
    | _ => exact .of_parts (fun c hc => part hc) rfl rfl

/-- What a whole query evaluates to is what its expansion meant, in any view of the final
forest. -/
theorem evaluate_of_reduce {M : Model} {e : Expr} (hfit : e.StreamsFit) {p p' : Progress} {e' : Expr}
    (hn : e.NamesOld p.names) (h : Runs (reduce e) M p e' p') (tables : Tables) (v : RowView)
    (hv : v.path = p.forest.rowPath?) : Alike (e.evalIn tables v []) (e'.evaluate tables) := by
  obtain ⟨-, hr, href⟩ := reduce_run hfit _ _ _ hn h
  have agree := hr.agree tables v [] .null hv fun r _ ho => by cases ho
  rw [Expr.evaluate, ← (evalIn_eq_eval href hr.plain).1]
  exact agree.value

end EntityQuery
