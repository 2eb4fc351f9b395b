import EntityQuery.Proofs.Reading
import EntityQuery.Proofs.Scalars
import EntityQuery.Proofs.Steps
import Mathlib.Algebra.GroupWithZero.Nat
import Mathlib.Data.Finset.Card

/-!
# Counting joins

Each join along a navigation puts one annotated call around the rows, is counted once, and makes one node
present that was not (`JoinsCounted`). Binding counts the nodes that it adds, and no other step of a
row-wise operator counts anything.
-/

namespace EntityQuery

open EntityQuery.Expr

variable {M : Model} {p p' q : Progress} {e e' : Expr} {s s' s'' : Stream} {k l : Nat} {n : NodeId}

/-- The number of calls that are annotated as joins. -/
def Expr.joins (e : Expr) : Nat := e.nodes.countP fun d => d.joinNote?.isSome

section Notes

theorem Expr.joins_eq (e : Expr) :
    e.joins = (if e.joinNote?.isSome then 1 else 0) + (e.children.map joins).sum := by
  rw [joins, nodes_eq, List.countP_cons, List.countP_flatMap, Nat.add_comm]
  rfl

theorem Expr.joins_eq_zero_iff : e.joins = 0 ↔ ∀ d ∈ e.nodes, d.joinNote? = none := by
  simp [joins]

theorem Expr.Flat.joins (h : e.Flat) : e.joins = 0 := by
  refine joins_eq_zero_iff.2 fun d hd => ?_
  have := h d hd
  cases d <;> first | rfl | cases this

theorem Expr.joins_lambda (params : List String) (body : Expr) :
    (Expr.lambda params body).joins = body.joins := by
  rw [joins_eq]
  simp [children, joinNote?]

section Keyed

variable {outer inner : Expr} {outerKey innerKey : JoinKey} {note : JoinNote}

/-- A join by scalar keys is one more join. -/
theorem keyedJoin_joins (h : Runs (keyedJoin outer inner outerKey innerKey note) M p e p')
    (ho : outerKey.value.Flat) (hi : innerKey.value.Flat) : e.joins = outer.joins + inner.joins + 1 := by
  have paired (x y : String) : (pairing x y).joins = 0 := rfl
  have grouped : ∀ op further, further.joins = 0 → (Expr.call op
      [outer, inner, outerKey.toExpr, innerKey.toExpr, further] (some (.join note))).joins =
        outer.joins + inner.joins + 1 := by
    intro op further hfurther
    rw [joins_eq]
    simp [children, joinNote?, JoinKey.toExpr, joins_lambda, ho.joins, hi.joins, hfurther]
    omega
  obtain ⟨-, ⟨-, rfl⟩ | ⟨-, group, row, rfl⟩⟩ := Runs.keyedJoin_cases h
  · exact grouped .join _ (paired _ _)
  · rw [flattenedJoin, joins_eq]
    simp only [children, joinNote?, Option.isSome_none, Bool.false_eq_true, if_false, Nat.zero_add,
      List.map_cons, List.map_nil, List.sum_cons, List.sum_nil, grouped .groupJoin _ (paired _ _), paired,
      joins_lambda, Nat.add_zero]
    rfl

/-- A join by scalar keys leaves no stream in the rows. -/
theorem keyedJoin_plain (h : Runs (keyedJoin outer inner outerKey innerKey note) M p e p')
    (ho : outerKey.value.Flat) (hi : innerKey.value.Flat) (houter : outer.hasStream = false)
    (hinner : inner.hasStream = false) : e.hasStream = false := by
  have grouped : ∀ op further, further.hasStream = false → (Expr.call op
      [outer, inner, outerKey.toExpr, innerKey.toExpr, further] (some (.join note))).hasStream = false :=
    fun op further hfurther => hasStream_call <| by
      simp [houter, hinner, JoinKey.toExpr, hasStream_lambda, ho.hasStream, hi.hasStream, hfurther]
  obtain ⟨-, ⟨-, rfl⟩ | ⟨-, group, row, rfl⟩⟩ := Runs.keyedJoin_cases h
  · exact grouped .join _ rfl
  · exact hasStream_call (by simpa using ⟨grouped .groupJoin _ rfl, rfl, rfl⟩)

end Keyed

end Notes

section Joining

namespace Forest

variable {f : Forest}

/-- The nodes that no row holds yet. -/
def absent (f : Forest) : Finset Nat :=
  (Finset.range f.size).filter fun i => (f.node ⟨i⟩).isPresent = false

theorem mem_absent : n.index ∈ f.absent ↔ n.index < f.size ∧ (f.node n).isPresent = false := by
  simp [absent]

theorem node_wraps (path : List String) (l : List SourceId) (f : Forest) (n : NodeId) :
    (l.foldl (·.wrap path) f).node n = f.node n := by
  induction l generalizing f with
  | nil => rfl
  | cons m l ih => exact ih (f.wrap path m)

theorem size_wraps (path : List String) (l : List SourceId) (f : Forest) :
    (l.foldl (·.wrap path) f).size = f.size := by
  induction l generalizing f with
  | nil => rfl
  | cons m l ih => exact ih (f.wrap path m)

theorem isPresent_makePresent (k : NodeId) (place : List String) (hn : n.index < f.size) :
    ((f.makePresent n place).node k).isPresent = (k == n || (f.node k).isPresent) := by
  unfold makePresent
  by_cases hk : k = n
  · subst hk
    rw [node_modifyNode_self hn]
    simp
  · rw [node_modifyNode_ne hk]
    simp [hk]

theorem absent_makePresent (place : List String) (hn : n.index < f.size) :
    (f.makePresent n place).absent = f.absent.erase n.index := by
  ext i
  have key : i ≠ n.index ↔ (⟨i⟩ : NodeId) ≠ n := by
    cases n
    simp
  have size : (f.makePresent n place).size = f.size := size_modifyNode
  have present := isPresent_makePresent ⟨i⟩ place hn
  rw [Finset.mem_erase, show i = (⟨i⟩ : NodeId).index from rfl, mem_absent, mem_absent, size, present, key]
  simp only [Bool.or_eq_false_iff, beq_eq_false_iff_ne, ne_eq]
  tauto

end Forest

/-- From one point to the next, `k` joins have been put around the rows of a stream: as many have been
counted, and as many nodes have become present. -/
structure JoinsCounted (p : Progress) (s : Stream) (p' : Progress) (s' : Stream) (k : Nat) : Prop where
  size : p'.forest.size = p.forest.size
  absent : p'.forest.absent.card + k = p.forest.absent.card
  present : ∀ {n}, (p.forest.node n).isPresent = true → (p'.forest.node n).isPresent = true
  bound : p'.tally.nodesBound = p.tally.nodesBound
  joins : p'.tally.joins = p.tally.joins + k
  rows : s'.rows.joins = s.rows.joins + k
  plain : s.rows.hasStream = false → s'.rows.hasStream = false
  selector : s'.selector = s.selector
  sources : s'.sources = s.sources
  cardinality : s'.cardinality = s.cardinality

namespace JoinsCounted

theorem refl (p : Progress) (s : Stream) : JoinsCounted p s p s 0 :=
  ⟨rfl, rfl, id, rfl, rfl, rfl, id, rfl, rfl, rfl⟩

theorem trans (h : JoinsCounted p s p' s' k) (i : JoinsCounted p' s' q s'' l) :
    JoinsCounted p s q s'' (k + l) where
  size := i.size.trans h.size
  absent := by have := h.absent; have := i.absent; omega
  present := i.present ∘ h.present
  bound := i.bound.trans h.bound
  joins := by rw [i.joins, h.joins, Nat.add_assoc]
  rows := by rw [i.rows, h.rows, Nat.add_assoc]
  plain := i.plain ∘ h.plain
  selector := i.selector.trans h.selector
  sources := i.sources.trans h.sources
  cardinality := i.cardinality.trans h.cardinality

/-- The frame of a stream may change where it does not say what its rows are made of. -/
theorem reframe (h : JoinsCounted p s p' s' k) (hrows : s''.rows = s'.rows)
    (hselector : s''.selector = s'.selector) (hsources : s''.sources = s'.sources)
    (hcardinality : s''.cardinality = s'.cardinality) : JoinsCounted p s p' s'' k where
  size := h.size
  absent := h.absent
  present := h.present
  bound := h.bound
  joins := h.joins
  rows := hrows ▸ h.rows
  plain := hrows ▸ h.plain
  selector := hselector.trans h.selector
  sources := hsources.trans h.sources
  cardinality := hcardinality.trans h.cardinality

end JoinsCounted

theorem Tally.joins_countJoin (t : Tally) (kind : JoinKind) : (t.countJoin kind).joins = t.joins + 1 := by
  cases kind <;> simp only [joins, countJoin] <;> omega

theorem Tally.nodesBound_countJoin (t : Tally) (kind : JoinKind) :
    (t.countJoin kind).nodesBound = t.nodesBound := by
  cases kind <;> rfl

theorem keyedJoin_tally {outer inner : Expr} {outerKey innerKey : JoinKey} {note : JoinNote}
    (h : Runs (keyedJoin outer inner outerKey innerKey note) M p e p') : p'.tally = p.tally := by
  unfold keyedJoin at h
  split at h
  · rw [(Runs.pure_iff.1 h).2]
  · simp only [leftOuterJoin, Runs.bind_iff, Runs.freshName_iff, Runs.pure_iff] at h
    obtain ⟨_, _, ⟨-, rfl⟩, _, _, ⟨-, rfl⟩, -, rfl⟩ := h
    rfl

/-- A join along a navigation is counted once. -/
theorem joinNode_tally (h : Runs (joinNode s n) M p s' p') : ∃ kind, p'.tally = p.tally.countJoin kind := by
  have ends : Ends (fun _ => True) (joinNode s n) M p fun _ q => ∃ kind, q.tally = p.tally.countJoin kind := by
    simp only [joinNode, Ends.bind_iff, Ends.forest_iff]
    split
    · simp only [Ends.bind_iff]
      refine Ends.entityType_of (fun ownerType _ => ?_) fun _ => trivial
      refine Ends.entityType_of (fun targetType _ => ?_) fun _ => trivial
      refine Ends.ofCatalog_of (fun outerKey _ => ?_) fun _ => trivial
      refine Ends.ofCatalog_of (fun innerKey _ => ?_) fun _ => trivial
      split
      · trivial
      · simp only [Ends.bind_iff, Ends.freshName_iff]
        split
        · simp only [Ends.bind_iff, Ends.pure_iff]
          refine Ends.iff_runs.2 ⟨fun rows q hrun => ?_, fun _ _ => trivial⟩
          have tally := keyedJoin_tally hrun
          exact ⟨_, congrArg (fun t : Tally => t.countJoin _) tally⟩
        · trivial
    · trivial
  exact (Ends.iff_runs.1 ends).1 _ _ h

theorem joinNode_counted (hn : (p.forest.node n).isPresent = false) (h : Runs (joinNode s n) M p s' p') :
    JoinsCounted p s p' s' 1 ∧ (p'.forest.node n).isPresent = true := by
  obtain ⟨kind, htally⟩ := joinNode_tally h
  obtain ⟨owner, edge, path, outerKey, innerKey, target, note, rows, q, found, rfl, hforest, -⟩ :=
    Runs.joinNode h
  have hq : q.forest = p.forest := (Runs.keyedJoin_cases found.joined).1
  let f := s.sources.foldl (·.wrap note.kind.wrapPath) p.forest
  have hforest : p'.forest = f.makePresent n [innerField] := by rw [hforest, hq]
  have size : f.size = p.forest.size := Forest.size_wraps _ _ _
  have node (k : NodeId) : f.node k = p.forest.node k := Forest.node_wraps _ _ _ k
  have range : n.index < f.size := by
    refine Nat.lt_of_not_le fun hle => ?_
    have along := found.along
    rw [← node, Forest.node_of_size_le hle] at along
    cases along
  have absent : f.absent = p.forest.absent := by
    simp only [Forest.absent, size, node]
  have reads {x : String} {d : Expr} (h : d.Over (· = .param x)) : d.Flat := by
    refine h.flat ?_
    rintro _ rfl
    exact flat_iff.2 ⟨rfl, nofun⟩
  have owner : (Expr.readPath s.parameter path).Over (· = .param s.parameter) := .readPath _ _ rfl
  have mem : n.index ∈ p.forest.absent := Forest.mem_absent.2 ⟨size ▸ range, hn⟩
  refine ⟨⟨?_, ?_, fun {k} hk => ?_, ?_, ?_, ?_, fun hrows => ?_, rfl, rfl, rfl⟩, ?_⟩
  · rw [hforest, ← size]
    exact Forest.size_modifyNode
  · rw [hforest, Forest.absent_makePresent _ range, absent, Finset.card_erase_of_mem mem]
    exact Nat.succ_pred_eq_of_pos (Finset.card_pos.2 ⟨_, mem⟩)
  · rw [hforest, Forest.isPresent_makePresent k _ range, node, hk, Bool.or_true]
  · rw [htally, Tally.nodesBound_countJoin]
  · rw [htally, Tally.joins_countJoin]
  · exact keyedJoin_joins found.joined (reads (navigationColumns_owner_over owner))
      (reads (navigationColumns_target_over rfl))
  · exact keyedJoin_plain found.joined (reads (navigationColumns_owner_over owner))
      (reads (navigationColumns_target_over rfl)) hrows rfl
  · rw [hforest, Forest.isPresent_makePresent n _ range]
    simp

theorem joinNodes_counted {needed ns : List NodeId} (h : Runs (joinNodes needed s ns) M p (s', k) p') :
    JoinsCounted p s p' s' k ∧ ∀ n ∈ ns, n ∈ needed → (p'.forest.node n).isPresent = true := by
  induction ns generalizing p s k with
  | nil =>
    obtain ⟨heq, rfl⟩ := Runs.pure_iff.1 h
    cases heq
    exact ⟨.refl _ _, nofun⟩
  | cons n ns ih =>
    simp only [joinNodes, Runs.bind_iff, Runs.node_iff] at h
    obtain ⟨_, _, ⟨rfl, rfl⟩, h⟩ := h
    split at h
    · next hneeded =>
      simp only [Bool.and_eq_true, Bool.not_eq_true'] at hneeded
      simp only [Runs.bind_iff, Runs.pure_iff, Prod.exists] at h
      obtain ⟨s₁, q, hjoin, s₂, l, _, hrest, heq, rfl⟩ := h
      cases heq
      obtain ⟨counted, hpresent⟩ := joinNode_counted hneeded.2 hjoin
      obtain ⟨counted', rest⟩ := ih hrest
      refine ⟨Nat.add_comm l 1 ▸ counted.trans counted', fun k hk hneed => ?_⟩
      rcases List.mem_cons.1 hk with rfl | hk
      · exact counted'.present hpresent
      · exact rest k hk hneed
    · next hneeded =>
      obtain ⟨counted, rest⟩ := ih h
      refine ⟨counted, fun k hk hneed => ?_⟩
      rcases List.mem_cons.1 hk with rfl | hk
      · refine counted.present ?_
        simpa [hneed] using hneeded
      · exact rest k hk hneed

/-- Joining what expressions refer to makes all needed nodes of the one source present. -/
theorem joinReferenced_counted {m : SourceId} {es : List Expr} (hs : s.sources = [m])
    (h : Runs (joinReferenced s es) M p (s', k) p') :
    ∃ l, JoinsCounted p s p' s' l ∧ ∀ n ∈ p.forest.live (p.forest.root m),
      n ∈ neededNodes p.forest [m] es → (p'.forest.node n).isPresent = true := by
  obtain ⟨s₁, l, hjoins, hs'⟩ := Runs.joinReferenced hs h
  obtain ⟨counted, present⟩ := joinNodes_counted hjoins
  refine ⟨l, ?_, present⟩
  rcases hs' with rfl | rfl
  · exact counted
  · exact counted.reframe rfl rfl rfl rfl

end Joining

end EntityQuery
