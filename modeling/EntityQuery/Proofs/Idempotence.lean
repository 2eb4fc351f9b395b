import EntityQuery.Proofs.GuardedQueries
import EntityQuery.Proofs.Simulation

/-!
# Reducing a query once

A reduced query holds neither streams nor references, whatever streams were nested in each other before
(`reduction_plain`). So reducing is done after one pass: `reduceQuery` finds nothing to change in what it has
reduced (`reduceQuery_idempotent`), and that it has changed nothing means that there was no stream. What a
finished stream is reduced to has the values that its selector has at the stream's rows
(`Runs.reduceQuery_stream`).

The mark that `reduceMarked` carries along is kept apart from the reduction: it is the or of the marks of
the parts, in whatever monad they are computed.
-/

namespace EntityQuery

open EntityQuery.Expr

section Marks

variable {m : Type → Type} [Monad m] [LawfulMonad m] {f : Expr → StateT Bool m Expr} {g : Expr → m Expr}
  {marked : Expr → Bool} {es : List Expr} {fields : List (String × Expr)} {e : Expr} {b : Bool}

/-- The action does what `g` does, and marks its argument. -/
def MarksAs (f : Expr → StateT Bool m Expr) (g : Expr → m Expr) (marked : Expr → Bool) (e : Expr) : Prop :=
  ∀ b, (f e).run b = do return (← g e, b || marked e)

theorem run_mapItems (h : ∀ c ∈ es, MarksAs f g marked c) :
    (mapItems f es).run b = do return (← mapItems g es, b || es.any marked) := by
  induction es generalizing b with
  | nil => simp [mapItems]
  | cons c es ih =>
    obtain ⟨hc, hes⟩ := List.forall_mem_cons.1 h
    simp [mapItems, hc _, ih hes, Bool.or_assoc]

theorem run_mapFields (h : ∀ c ∈ fields.map (·.2), MarksAs f g marked c) :
    (mapFields f fields).run b =
      do return (← mapFields g fields, b || (fields.map (·.2)).any marked) := by
  induction fields generalizing b with
  | nil => simp [mapFields]
  | cons c fields ih =>
    obtain ⟨hc, hfields⟩ := List.forall_mem_cons.1 h
    simp [mapFields, hc _, ih hfields, Bool.or_assoc]

/-- An expression is marked if one of its parts is. -/
theorem run_mapChildren (h : ∀ c ∈ e.children, MarksAs f g marked c) :
    (e.mapChildren f).run b = do return (← e.mapChildren g, b || e.children.any marked) := by
  cases e with
  | entitySet _ | const _ | param _ | rowRef _ => simp [mapChildren, children]
  | member _ _ | not _ | convert _ _ _ | lambda _ _ | entityShape _ _ =>
    simp [mapChildren, children, h _ (.head _) _]
  | binary _ _ _ | stream _ _ _ =>
    simp [mapChildren, children, h _ (.head _) _, h _ (.tail _ (.head _)) _, Bool.or_assoc]
  | cond _ _ _ =>
    simp [mapChildren, children, h _ (.head _) _, h _ (.tail _ (.head _)) _,
      h _ (.tail _ (.tail _ (.head _))) _, Bool.or_assoc]
  | record fields => simp [mapChildren, children, run_mapFields h]
  | tuple items | function _ items | call _ items _ =>
    have hitems : ∀ c ∈ items, MarksAs f g marked c := h
    simp [mapChildren, children, run_mapItems hitems]
  | nullSafeEqual guards left right =>
    have items := fun c hc => h c (List.mem_append_left _ hc)
    simp [mapChildren, children, run_mapItems items, h left (by simp [children]) _,
      h right (by simp [children]) _, Bool.or_assoc]

end Marks

section Reducing

variable {M : Model} {p p' : Progress} {e : Expr} {r : Reduced}

theorem reduceMarked_parts (h : e.isReducedByParts = true) :
    reduceMarked e = e.mapChildren reduceMarked := by
  cases e with
  | rowRef _ | stream _ _ _ => cases h
  | _ => rw [reduceMarked] <;> simp

theorem hasStream_of_parts (h : e.isReducedByParts = true) : e.hasStream = e.children.any hasStream := by
  rw [Bool.eq_iff_iff, hasStream_iff, List.any_eq_true]
  refine or_iff_right ?_
  rintro ⟨rows, selector, frame, rfl⟩
  cases h

/-- What is marked while a query is reduced is that there was a stream in it. -/
theorem reduceMarked_marks (e : Expr) : MarksAs reduceMarked reduce hasStream e := by
  induction e using children_induction with
  | step e ih =>
    intro b
    have byParts (hp : e.isReducedByParts = true) :
        (reduceMarked e).run b = do return (← reduce e, b || e.hasStream) := by
      rw [reduceMarked_parts hp, reduce_parts hp, hasStream_of_parts hp]
      exact run_mapChildren ih
    cases e with
    | rowRef r =>
      rw [reduceMarked, reduce]
      rfl
    | stream rows selector frame =>
      have hrows := ih rows (.head _)
      have marked : (stream rows selector frame).hasStream = true :=
        hasStream_iff.2 (.inl ⟨_, _, _, rfl⟩)
      rw [reduceMarked, reduce, marked]
      simp only [StateT.run_bind, StateT.run_set, StateT.run_monadLift, monadLift_self, pure_bind,
        bind_assoc, Bool.or_true]
      -- Both choose the same way, since reading the forest leaves the mark alone.
      refine bind_congr fun forest => ?_
      split <;> simp [hrows _]
    | _ => exact byParts rfl

theorem Runs.reduceQuery_iff :
    Runs (reduceQuery e) M p r p' ↔ Runs (reduce e) M p r.query p' ∧ r.changed = e.hasStream := by
  have marks : (reduceMarked e).run false = do return (← reduce e, e.hasStream) := reduceMarked_marks e false
  rw [reduceQuery, marks]
  simp only [bind_assoc, pure_bind, Runs.bind_iff, Runs.pure_iff]
  constructor
  · rintro ⟨d, _, h, rfl, rfl⟩
    exact ⟨h, rfl⟩
  · rintro ⟨h, changed⟩
    exact ⟨_, _, h, by rw [← changed], rfl⟩

/-- Where there are neither streams nor references, reducing ends, and with what it began with. -/
theorem reduce_fixed (streams : e.hasStream = false) (refs : e.rowRefs = []) : Runs (reduce e) M p e p := by
  induction e using children_induction with
  | step e ih =>
    have byParts (hp : e.isReducedByParts = true) : Runs (reduce e) M p e p := by
      rw [reduce_parts hp]
      refine Runs.mapChildren_fixed (SameHead.refl_of e fun c hc => ih c hc ?_ ?_)
      · exact (hasStream_eq_false_iff.1 streams).2 c hc
      · refine List.eq_nil_iff_forall_not_mem.2 fun r hr => ?_
        have := mem_rowRefs_iff.2 (.inr ⟨c, hc, hr⟩)
        rw [refs] at this
        cases this
    cases e with
    | rowRef r => cases refs
    | stream rows selector frame =>
      exact absurd rfl ((hasStream_eq_false_iff.1 streams).1 rows selector frame)
    | _ => exact byParts rfl

/-- A reduced query holds no streams and no references at any depth. It is unchanged exactly if there was no
stream to begin with, and then it is the query itself. Reducing it once more, wherever that is done, ends
with the same query, unchanged. -/
theorem reduceQuery_idempotent (h : Runs (reduceQuery e) M p r p') :
    r.query.hasStream = false ∧ r.query.rowRefs = [] ∧
      (r.changed = false ↔ e.hasStream = false) ∧ (r.changed = false → r.query = e) ∧
      ∀ M q, Runs (reduceQuery r.query) M q ⟨r.query, false⟩ q := by
  obtain ⟨hrun, changed⟩ := Runs.reduceQuery_iff.1 h
  obtain ⟨plain, read⟩ := Runs.reduce_closed hrun
  refine ⟨plain, read, by rw [changed], fun unchanged => ?_, fun M q => ?_⟩
  · exact (reduce_plain (changed ▸ unchanged) hrun).1
  · exact Runs.reduceQuery_iff.2 ⟨reduce_fixed plain read, plain.symm⟩

section Values

variable {tables : Tables} {v : RowView} {rows selector : Expr} {frame : StreamFrame} {items : List Value}
  {value : Value → Value}

/-- A reduced query has the value that the query had before, with its streams read over the rows of the
forest in which it is reduced. -/
theorem Runs.reduceQuery_evaluate (h : Runs (reduceQuery e) M p r p') (hfit : e.StreamsFit)
    (hn : e.NamesOld p.names) (hv : v.path = p.forest.rowPath?) :
    Alike (e.evalIn tables v []) (r.query.evaluate tables) :=
  evaluate_of_reduce hfit hn (Runs.reduceQuery_iff.1 h).1 tables v hv

/-- So what a finished stream is reduced to has a value for each row of the stream, the one that the
selector has at this row. -/
theorem Runs.reduceQuery_stream (h : Runs (reduceQuery (.stream rows selector frame)) M p r p')
    (hfit : (Expr.stream rows selector frame).StreamsFit)
    (hn : (Expr.stream rows selector frame).NamesOld p.names) (hv : v.path = p.forest.rowPath?)
    (hwhole : frame.cardinality = none) (hrows : rows.evalIn tables v [] = .ok (.list items))
    (hselector : ∀ w ∈ items, selector.evalIn tables (v.enter frame.sources w) [] = .ok (value w)) :
    r.query.evaluate tables = .ok (.list (items.map value)) := by
  refine (h.reduceQuery_evaluate hfit hn hv).eq_ok ?_
  have read : (items.mapM fun w => selector.evalIn tables (v.enter frame.sources w) []) =
      .ok (items.map value) := mapM_ok hselector
  rw [evalIn, StreamFrame.answer, hwhole, Argument.rows_of_value hrows]
  exact congrArg (Value.list <$> ·) read

end Values

end Reducing

namespace Shop

/-- The first customer's name: a stream over rows that a further stream is taken from. -/
def firstName : Stream :=
  let row : Expr := .rowRef ⟨⟨0⟩, ⟨0⟩, []⟩
  let all : Stream := { customers [⟨0⟩] with selector := row }
  { all with
    rows := .call .take [all.toExpr, .const (.integer 1)] none
    selector := .member row "Name" }

end Shop

/-- Both streams have become queries. -/
theorem reduceQuery_firstName : ∃ r p',
    Runs (reduceQuery Shop.firstName.toExpr) ⟨Shop.catalog, {}⟩ Shop.referred r p' ∧
      r.changed = true ∧ r.query.hasStream = false ∧
      ∀ M q, Runs (reduceQuery r.query) M q ⟨r.query, false⟩ q := by
  obtain ⟨⟨r, p'⟩, h, changed⟩ := Except.exists_of_any
    (show (reduceQuery Shop.firstName.toExpr ⟨Shop.catalog, {}⟩ Shop.referred).toOption.any
      (fun done => done.1.changed) = true by decide +kernel)
  obtain ⟨plain, -, -, -, again⟩ := reduceQuery_idempotent h
  exact ⟨r, p', h, changed, plain, again⟩

end EntityQuery
