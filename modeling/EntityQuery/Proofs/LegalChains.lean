import EntityQuery.Proofs.GuardedQueries

/-!
# Which chains are accepted

A query is a chain of calls over an entity set, and a join has a second chain beside it. Expansion accepts a
chain only if every call on it is in its place (`InPlace`): its operator is registered and takes that many
arguments, it stands over rows, and a secondary order stands over an order (`expandQuery_inPlace`).

What an operator may stand over is noted in the stream of its source: that it is ordered, and that it waits
to answer one row. So the invariant says what both notes tell of the chain that has been expanded
(`Accepts`), and there is one step for each form of call.
-/

namespace EntityQuery

open EntityQuery.Expr

/-- The operator puts rows in an order. -/
def Operator.isOrdering : Operator → Bool
  | .orderBy | .orderByDescending | .thenBy | .thenByDescending => true
  | _ => false

/-- The operator puts rows that have an order in a further one. -/
def Operator.isSecondaryOrder : Operator → Bool
  | .thenBy | .thenByDescending => true
  | _ => false

/-- The operator answers one row or a scalar, which is no sequence. -/
def Operator.answers : Operator → Bool
  | .first | .firstOrDefault | .single | .singleOrDefault | .any | .count | .contains => true
  | _ => false

/-- The operator is registered and takes that many arguments. -/
def Operator.Takes (operator : Operator) (count : Nat) : Prop :=
  ∃ info, operator.info? = some info ∧ info.minArguments ≤ count ∧ count ≤ info.maxArguments

/-- The arguments of a call whose rows it works on: two of a join, the first of any other call. -/
def Operator.sources (operator : Operator) (arguments : List Expr) : List Expr :=
  arguments.take (if operator = .join then 2 else 1)

namespace Expr

/-- The expression is a call of such an operator. -/
def isCallOf (which : Operator → Bool) : Expr → Bool
  | .call operator _ _ => which operator
  | _ => false

/-- The expressions on the chain of a query, from the query down to the entity sets. -/
inductive OnChain : Expr → Expr → Prop where
  | self (e : Expr) : OnChain e e
  | source {d source : Expr} {operator : Operator} {arguments : List Expr} {note : Option CallNote}
    (hsource : source ∈ operator.sources arguments) (h : OnChain d source) :
    OnChain d (.call operator arguments note)

end Expr

/-- A call of this operator with these arguments may stand on a chain. -/
structure LegalCall (operator : Operator) (arguments : List Expr) : Prop where
  registered : operator.Takes arguments.length
  /-- Operators that only an expansion inserts, and unknown ones, are not written. -/
  written : operator ≠ .groupJoin ∧ operator ≠ .asOrdered ∧ ∀ name, operator ≠ .other name
  /-- What it works on are rows. -/
  sequences : ∀ source ∈ operator.sources arguments, source.isCallOf Operator.answers = false
  ordered : operator.isSecondaryOrder = true →
    ∃ source, arguments.head? = some source ∧ source.isCallOf Operator.isOrdering = true

/-- The expression is the end of a chain, or a call that may stand on one. -/
inductive InPlace : Expr → Prop where
  | entitySet (entity : String) : InPlace (.entitySet entity)
  | call {operator : Operator} {arguments : List Expr} (note : Option CallNote)
    (h : LegalCall operator arguments) : InPlace (.call operator arguments note)

/-- Everything on the chain of a query is in its place. -/
def Expr.Legal (e : Expr) : Prop := ∀ d, d.OnChain e → InPlace d

namespace Expr

variable {e source : Expr} {operator : Operator} {arguments rest : List Expr} {note : Option CallNote}

theorem legal_entitySet (entity : String) : (entitySet entity).Legal := by
  rintro _ ⟨⟩
  exact .entitySet entity

theorem legal_call (h : LegalCall operator arguments)
    (sources : ∀ source ∈ operator.sources arguments, source.Legal) :
    (call operator arguments note).Legal := by
  rintro d (_ | ⟨hsource, hd⟩)
  · exact .call note h
  · exact sources _ hsource d hd

theorem Legal.of_mem_sources (h : (call operator arguments note).Legal)
    (hs : source ∈ operator.sources arguments) : source.Legal :=
  fun d hd => h d (.source hs hd)

theorem Legal.legalCall (h : (call operator arguments note).Legal) : LegalCall operator arguments := by
  cases h _ (.self _) with
  | call _ h => exact h

theorem sources_of_ne_join (h : operator ≠ .join) : operator.sources (source :: rest) = [source] := by
  simp [Operator.sources, h]

/-- The parts of what users write are written by them, too. -/
theorem isUserWritten_child {c : Expr} (h : e.isUserWritten = true) (hc : c ∈ e.children) :
    c.isUserWritten = true :=
  List.all_eq_true.2 fun d hd => List.all_eq_true.1 h d (mem_nodes_of_child hc hd)

theorem isUserWritten_call (h : ∀ a ∈ arguments, a.isUserWritten = true) :
    (call operator arguments note).isUserWritten = true :=
  List.all_eq_true.2 (forall_nodes_iff.2 ⟨rfl, fun a ha => List.all_eq_true.1 (h a ha)⟩)

end Expr

variable {M : Model} {p p' : Progress} {recur : Recur} {e d source : Expr} {s : Stream} {operator : Operator}
  {arguments rest : List Expr} {note : Option CallNote}

/-- What the expansion of a query says of it: its chain is legal, and if the result is a stream that waits
for nothing, then the query is a sequence, and it ends in an ordering if the stream is ordered. -/
structure Accepts (e d : Expr) : Prop where
  legal : e.Legal
  rows : ∀ s : Stream, d = s.toExpr → s.cardinality = none →
    e.isCallOf Operator.answers = false ∧ (s.ordered = true → e.isCallOf Operator.isOrdering = true)

/-- All queries that are expanded have legal chains. -/
def AcceptsLegal (M : Model) (recur : Recur) : Prop :=
  ∀ {e p d p'}, e.isUserWritten = true → Runs (recur e) M p d p' → Accepts e d

section Steps

/-- The source of an operator is a legal chain of rows. -/
theorem expandSource_accepts (hrecur : AcceptsLegal M recur) (user : e.isUserWritten = true)
    (h : Runs (expandSource recur e) M p s p') :
    e.Legal ∧ e.isCallOf Operator.answers = false ∧
      (s.ordered = true → e.isCallOf Operator.isOrdering = true) := by
  obtain ⟨hrun, hcardinality⟩ := Runs.expandSource h
  have accepted := hrecur user hrun
  exact ⟨accepted.legal, accepted.rows s rfl hcardinality⟩

/-- The count of arguments is checked before anything else. -/
theorem Runs.expandCall_registered
    (h : Runs (EntityQuery.expandCall recur operator arguments note) M p d p') :
    operator.Takes arguments.length := by
  unfold EntityQuery.expandCall at h
  split at h
  · next info hinfo =>
    dsimp only at h
    split at h
    · simp only [Runs.bind_iff, Runs.throw_iff, false_and, exists_false] at h
    · next hcount =>
      simp only [Bool.or_eq_true, decide_eq_true_eq, not_or, Nat.not_lt] at hcount
      exact ⟨info, hinfo, hcount⟩
  · exact (Runs.throw_iff.1 h).elim

theorem Runs.expandThenBy_ordered {lambda : Expr}
    (h : Runs (expandThenBy recur operator source lambda) M p s p') :
    ∃ s₀ q q', Runs (EntityQuery.expandSource recur source) M q s₀ q' ∧ s₀.ordered = true := by
  simp only [expandThenBy, Runs.bind_iff, Prod.exists] at h
  obtain ⟨_, _, q, -, s₀, q', hsource, h⟩ := h
  split at h
  · simp only [Runs.bind_iff, Runs.throw_iff, false_and, exists_false] at h
  · next hordered => exact ⟨s₀, q, q', hsource, by simpa using hordered⟩

/-- The rows of an entity set have no order. -/
theorem rootStream_unordered {entity : String} (h : Runs (rootStream entity) M p s p') : s.ordered = false := by
  simp only [rootStream, Runs.bind_iff, Runs.pure_iff] at h
  obtain ⟨_, _, -, _, _, -, _, _, -, _, _, -, rfl, -⟩ := h
  rfl

/-- Joins along navigations leave the note that rows are ordered as it is. -/
theorem joinReferenced_ordered {s' : Stream} {es : List Expr} {k : Nat} {b : Bool}
    (h : Runs (joinReferenced s es) M p (s', k) p') (hs : s.ordered = b) : s'.ordered = b := by
  refine joinReferenced_keeps (P := fun _ s => s.ordered = b) (fun hs hjoin => ?_) (fun hs => hs) h hs
  obtain ⟨_, _, _, _, _, _, _, _, _, -, rfl, -⟩ := Runs.joinNode hjoin
  exact hs

/-- Merged rows have no order. -/
theorem mergeStreams_unordered {outer inner : Stream} {join : StreamJoin} {m : MergedStreams}
    (h : Runs (mergeStreams outer inner join) M p m p') : m.stream.ordered = false := by
  cases join with
  | keyed outerKey innerKey note =>
    obtain ⟨_, _, _, -, -, -, rfl, -⟩ := Runs.mergeStreams_keyed h
    rfl
  | correlated =>
    obtain ⟨_, -, rfl, -⟩ := Runs.mergeStreams_correlated h
    rfl

theorem selectResult_unordered {m : MergedStreams} {result : Option ResultSelector}
    (h : Runs (selectResult recur m result) M p s p') (hm : m.stream.ordered = false) : s.ordered = false := by
  obtain ⟨-, rfl, -⟩ | ⟨_, _, _, _, _, s', _, -, -, hjoin, rfl⟩ := Runs.selectResult h
  · exact hm
  · exact (joinReferenced_ordered hjoin hm : s'.ordered = false)

theorem expandSelectMany_unordered {lambda : Expr} {result : Option Expr}
    (h : Runs (expandSelectMany recur source lambda result) M p s p') : s.ordered = false := by
  obtain ⟨_, _, _, _, _, _, _, _, m, _, -, -, -, -, hmerge, hresult⟩ := Runs.expandSelectMany h
  refine selectResult_unordered hresult ?_
  obtain ⟨hmerge, -⟩ | ⟨_, _, -, -, hmerge⟩ := hmerge
  · obtain ⟨_, _, _, _, _, _, _, _, -, -, -, hmerge, -⟩ := Runs.correlate hmerge
    exact mergeStreams_unordered hmerge
  · obtain ⟨_, _, _, _, _, _, _, _, _, _, -, -, -, -, -, -, hmerge, -⟩ := Runs.hoist hmerge
    exact mergeStreams_unordered hmerge

end Steps

section Calls

/-- A call of an operator with one source is accepted, if it may be written, its source is a legal chain of
rows, and what it says of its own rows is true. -/
theorem Accepts.of_source
    (registered : operator.Takes (source :: rest).length)
    (written : operator ≠ .join ∧ operator ≠ .groupJoin ∧ operator ≠ .asOrdered)
    (legal : source.Legal) (sequence : source.isCallOf Operator.answers = false)
    (ordered : operator.isSecondaryOrder = true → source.isCallOf Operator.isOrdering = true)
    (rows : ∀ s : Stream, d = s.toExpr → s.cardinality = none →
      operator.answers = false ∧ (s.ordered = true → operator.isOrdering = true)) :
    Accepts (.call operator (source :: rest) note) d where
  legal := by
    have sources : operator.sources (source :: rest) = [source] := sources_of_ne_join written.1
    refine legal_call ⟨registered, ⟨written.2.1, written.2.2, ?_⟩, ?_, fun h => ⟨source, rfl, ordered h⟩⟩ ?_
    · rintro name rfl
      obtain ⟨_, ⟨⟩, -⟩ := registered
    · rw [sources]
      exact List.forall_mem_singleton.2 sequence
    · rw [sources]
      exact List.forall_mem_singleton.2 legal
  rows := rows

/-- Operators that work on rows as they are projected order nothing, and none of them is a join. -/
theorem Operator.of_terminating {info : OperatorInfo} (h : operator.info? = some info)
    (kind : info.kind = .terminating) :
    operator.isSecondaryOrder = false ∧ operator ≠ .join ∧ operator ≠ .groupJoin ∧ operator ≠ .asOrdered := by
  cases operator <;> cases h <;> first | decide | exact nomatch kind

theorem Operator.answers_eq (operator : Operator) :
    operator.answers = (operator.isCardinalityReducing || operator.isScalarResult) := by
  cases operator <;> rfl

theorem splitPredicate_cases (operator : Operator) (source : Expr) (rest : List Expr) :
    (splitPredicate operator source rest).1 = source ∨
      ∃ predicate, rest = [predicate] ∧
        (splitPredicate operator source rest).1 = .call .filter [source, predicate] none := by
  unfold splitPredicate
  split
  · exact .inr ⟨_, rfl, rfl⟩
  · exact .inl rfl

/-- A stream that waits for nothing has passed no operator that answers, and rows an operator worked on
as they are projected have no order. -/
theorem Runs.expandTerminal_rows
    (h : Runs (EntityQuery.expandTerminal recur operator (source :: rest)) M p s.toExpr p')
    (hcardinality : s.cardinality = none) : operator.answers = false ∧ s.ordered = false := by
  simp only [EntityQuery.expandTerminal, Runs.bind_iff] at h
  obtain ⟨s₀, q, -, h⟩ := h
  split at h
  · cases (Runs.pure_iff.1 h).1
  · next hscalar =>
    split at h
    · cases Stream.toExpr_inj (Runs.pure_iff.1 h).1
      cases hcardinality
    · next hreducing =>
      refine ⟨by simp [Operator.answers_eq, hscalar, hreducing], ?_⟩
      have unordered {t : Stream} {operator : Operator} {rest : List Expr}
          (h : s.toExpr = (t.applyOperator operator rest).toExpr) : s.ordered = false := by
        cases Stream.toExpr_inj h
        rfl
      split at h
      case h_7 => exact (Runs.throw_iff.1 h).elim
      all_goals simp only [Runs.bind_iff, Runs.pure_iff] at h
      case h_1 | h_2 | h_3 | h_4 =>
        obtain ⟨_, _, -, heq, -⟩ := h
        exact unordered heq
      case h_5 =>
        obtain ⟨_, _, -, _, _, -, _, _, -, heq, -⟩ := h
        exact unordered heq
      case h_6 =>
        obtain ⟨_, _, -, _, _, -, heq, -⟩ := h
        exact unordered heq

/-- Operators without a lambda of their own: a predicate becomes a filter of the source, and then the
chain is one that the filter's expansion has accepted. -/
theorem expandTerminal_accepts {info : OperatorInfo} (hrecur : AcceptsLegal M recur)
    (user : (Expr.call operator (source :: rest) note).isUserWritten = true)
    (registered : operator.Takes (source :: rest).length)
    (hinfo : operator.info? = some info) (kind : info.kind = .terminating)
    (h : Runs (expandTerminal recur operator (source :: rest)) M p d p') :
    Accepts (.call operator (source :: rest) note) d := by
  obtain ⟨secondary, written⟩ := Operator.of_terminating hinfo kind
  have part {a} (ha : a ∈ source :: rest) : a.isUserWritten = true := isUserWritten_child user ha
  obtain ⟨s, q, hsource, -⟩ := Runs.expandTerminal h
  obtain ⟨legal, sequence⟩ : source.Legal ∧ source.isCallOf Operator.answers = false := by
    obtain heq | ⟨predicate, rfl, heq⟩ := splitPredicate_cases operator source rest
    · rw [heq] at hsource
      exact (expandSource_accepts hrecur (part (.head _)) hsource).imp_right And.left
    · -- What has been expanded is the filter, and the source stands on the chain below it.
      rw [heq] at hsource
      obtain ⟨legal, -⟩ := expandSource_accepts hrecur (isUserWritten_call fun a ha => part ha) hsource
      exact ⟨legal.of_mem_sources (.head _), legal.legalCall.sequences _ (.head _)⟩
  refine .of_source registered written legal sequence (by simp [secondary]) ?_
  rintro s' rfl hcardinality
  obtain ⟨answers, unordered⟩ := Runs.expandTerminal_rows h hcardinality
  exact ⟨answers, by simp [unordered]⟩

theorem Operator.of_rowWise (h : operator ∈
      [.filter, .orderBy, .orderByDescending, .thenBy, .thenByDescending]) :
    (operator ≠ .join ∧ operator ≠ .groupJoin ∧ operator ≠ .asOrdered) ∧ operator.answers = false := by
  cases operator <;> first | decide | simp at h

/-- Of the operators that are applied row by row, only orderings note that the rows are ordered, and a
secondary one has checked that note. -/
theorem Runs.expandCall_rowWise {lambda : Expr} (operator_mem : operator ∈
      [.filter, .orderBy, .orderByDescending, .thenBy, .thenByDescending])
    (h : Runs (EntityQuery.expandCall recur operator [source, lambda] note) M p s.toExpr p') :
    (s.ordered = true → operator.isOrdering = true) ∧
      (operator.isSecondaryOrder = true →
        ∃ s₀ q q', Runs (EntityQuery.expandSource recur source) M q s₀ q' ∧ s₀.ordered = true) := by
  have ordering {f : Expansion Stream} (h : Runs (do return (← f).toExpr) M p s.toExpr p') :
      Runs f M p s p' := by
    obtain ⟨_, _, hf, h⟩ := Runs.bind_iff.1 h
    obtain ⟨heq, rfl⟩ := Runs.pure_iff.1 h
    cases Stream.toExpr_inj heq
    exact hf
  cases operator with
  | filter =>
    obtain ⟨b, -, rfl⟩ := Runs.expandFilter_brought (ordering h)
    exact ⟨nofun, nofun⟩
  | orderBy | orderByDescending => exact ⟨fun _ => rfl, nofun⟩
  | thenBy | thenByDescending => exact ⟨fun _ => rfl, fun _ => Runs.expandThenBy_ordered (ordering h)⟩
  | _ => simp at operator_mem

/-- One call of a chain: each form of call is accepted if its sources are. -/
theorem expandCall_accepts (hrecur : AcceptsLegal M recur)
    (user : (Expr.call operator arguments note).isUserWritten = true)
    (h : Runs (expandCall recur operator arguments note) M p d p') :
    Accepts (.call operator arguments note) d := by
  have registered := Runs.expandCall_registered h
  have part {a} (ha : a ∈ arguments) : a.isUserWritten = true := isUserWritten_child user ha
  cases Runs.expandCall h with
  | rowWise operator_mem brought =>
    obtain ⟨isOrdering, checked⟩ := Runs.expandCall_rowWise operator_mem h
    obtain ⟨_, _, s, q, -, hsource, -⟩ := brought
    obtain ⟨legal, sequence, -⟩ := expandSource_accepts hrecur (part (.head _)) hsource
    obtain ⟨written, answers⟩ := Operator.of_rowWise operator_mem
    refine .of_source registered written legal sequence (fun secondary => ?_) ?_
    · obtain ⟨s₀, q, q', hrun, hordered⟩ := checked secondary
      exact (expandSource_accepts hrecur (part (.head _)) hrun).2.2 hordered
    · intro t heq _
      cases Stream.toExpr_inj heq
      exact ⟨answers, isOrdering⟩
  | select run =>
    obtain ⟨_, _, s₀, q, b, q', -, hsource, -, -, _, rfl⟩ := Runs.expandSelect_cases run
    obtain ⟨legal, sequence, -⟩ := expandSource_accepts hrecur (part (.head _)) hsource
    refine .of_source registered (by decide) legal sequence nofun fun t heq _ => ⟨rfl, ?_⟩
    cases Stream.toExpr_inj heq
    exact nofun
  | @selectMany source lambda rest _ s _ run =>
    obtain ⟨_, _, _, _, _, _, _, _, _, _, -, -, hsource, -⟩ := Runs.expandSelectMany run
    obtain ⟨legal, sequence, -⟩ := expandSource_accepts hrecur (part (.head _)) hsource
    refine .of_source registered (by decide) legal sequence nofun fun t heq _ => ⟨rfl, ?_⟩
    cases Stream.toExpr_inj heq
    simp [expandSelectMany_unordered run]
  | @join outer inner outerKey innerKey result _ s _ run =>
    obtain ⟨_, _, _, _, _, _, _, _, _, _, _, _, _, _, _, _, _, _, -, -, -, houter, hinner, -, -, -, -,
      hmerge, hresult⟩ := Runs.expandJoin run
    -- A join is the only call with two sources.
    have unordered := selectResult_unordered hresult (mergeStreams_unordered hmerge)
    obtain ⟨legal₁, sequence₁, -⟩ := expandSource_accepts hrecur (part (.head _)) houter
    obtain ⟨legal₂, sequence₂, -⟩ := expandSource_accepts hrecur (part (.tail _ (.head _))) hinner
    have sources {P : Expr → Prop} (houter : P outer) (hinner : P inner) :
        ∀ source ∈ Operator.sources .join [outer, inner, outerKey, innerKey, result], P source := by
      simp [Operator.sources, houter, hinner]
    refine ⟨legal_call ⟨registered, ⟨nofun, nofun, nofun⟩, sources sequence₁ sequence₂, nofun⟩
      (sources legal₁ legal₂), fun t heq _ => ⟨rfl, ?_⟩⟩
    cases Stream.toExpr_inj heq
    simp [unordered]
  | terminal _ hinfo kind run => exact expandTerminal_accepts hrecur user registered hinfo kind run

/-- Queries nested to any depth have legal chains if they are expanded. -/
theorem expandWithin_accepts : ∀ n, AcceptsLegal M (expandWithin n)
  | 0, _, _, _, _, _, h => (Runs.throw_iff.1 h).elim
  | n + 1, e, _, _, _, user, h => by
    unfold expandWithin at h
    split at h
    · next entity =>
      obtain ⟨s, _, hroot, h⟩ := Runs.bind_iff.1 h
      obtain ⟨rfl, rfl⟩ := Runs.pure_iff.1 h
      refine ⟨legal_entitySet entity, fun t heq _ => ⟨rfl, fun hordered => ?_⟩⟩
      cases Stream.toExpr_inj heq
      rw [rootStream_unordered hroot] at hordered
      cases hordered
    · cases List.all_eq_true.1 user _ (self_mem_nodes _)
    · exact expandCall_accepts (expandWithin_accepts n) user h
    · exact (Runs.throw_iff.1 h).elim

/-- If a query is expanded, every call on its chain is in its place, down to the entity sets and through
both sides of each join: its operator is registered, is no name of a call that only an expansion inserts and
takes that many arguments, no operator stands over one row or a scalar, and a secondary order stands
directly over an order. -/
theorem expandQuery_inPlace {c : Catalog} {settings : Settings} {q : ExpandedQuery}
    (user : e.isUserWritten = true) (h : expandQuery c settings e = .ok q) :
    ∀ d, d.OnChain e → InPlace d := by
  obtain ⟨n, d, p, p', hexpand, -⟩ := Runs.of_expandQuery h
  exact (expandWithin_accepts n user hexpand).legal

end Calls

namespace Shop

/-- The first of two orders by customer and total, with the name of its customer. -/
def topOrderNames : Expr :=
  .call .first
    [.call .join
      [.call .take
        [.call .thenByDescending
          [.call .orderBy [.entitySet "Order", .lambda ["o"] (.member (.param "o") "CustomerId")] none,
            .lambda ["o"] (.member (.param "o") "Total")] none,
          .const (.integer 2)] none,
        .call .filter [.entitySet "Customer", .lambda ["c"] (.binary .less (.const (.integer 0))
          (.member (.param "c") "Id"))] none,
        .lambda ["o"] (.member (.param "o") "CustomerId"),
        .lambda ["c"] (.member (.param "c") "Id"),
        .lambda ["o", "c"] (.record [("Total", .member (.param "o") "Total"),
          ("Name", .member (.param "c") "Name")])] none] none

end Shop

/-- The order of the orders is on the chain, through the outer side of the join. -/
theorem inPlace_topOrderNames : ∃ q, Shop.topOrderNames.isUserWritten = true ∧
    expandQuery Shop.catalog {} Shop.topOrderNames = .ok q ∧
    ∀ d, d.OnChain Shop.topOrderNames → InPlace d := by
  obtain ⟨q, h⟩ := Except.exists_of_isSome
    (show (expandQuery Shop.catalog {} Shop.topOrderNames).toOption.isSome = true by decide +kernel)
  have user : Shop.topOrderNames.isUserWritten = true := by decide
  exact ⟨q, user, h, expandQuery_inPlace user h⟩

end EntityQuery
