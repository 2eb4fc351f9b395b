import EntityQuery.Proofs.Joins
import EntityQuery.Proofs.KeyComparison

/-!
# Scalar expressions that are made of operands

Comparisons and keys are put together from row references, parameters and what is compared, by scalar
nodes only: they bind nothing, call nothing and hold no stream. `Expr.Over` says so once for each of
them, so that a property of expressions has to be looked at for the scalar nodes alone. Scalars over rows are
`Expr.Flat`: they hold no lambda, operator call, record or query.
-/

namespace EntityQuery

open EntityQuery.Expr

variable {M : Model} {p p' : Progress} {operand operand' : Expr → Prop} {e a b : Expr}

/-- A scalar expression whose leaves are operands and constants. -/
inductive Expr.Over (operand : Expr → Prop) : Expr → Prop where
  | operand {e : Expr} (h : operand e) : Over operand e
  | const (value : Literal) : Over operand (.const value)
  | member {e : Expr} (name : String) (h : Over operand e) : Over operand (.member e name)
  | binary {a b : Expr} (op : BinaryOp) (ha : Over operand a) (hb : Over operand b) :
    Over operand (.binary op a b)
  | cond {a b c : Expr} (ha : Over operand a) (hb : Over operand b) (hc : Over operand c) :
    Over operand (.cond a b c)
  | tuple {items : List Expr} (h : ∀ e ∈ items, Over operand e) : Over operand (.tuple items)
  | convert {e : Expr} (dataType : ScalarType) (nullable : Bool) (h : Over operand e) :
    Over operand (.convert e dataType nullable)
  | nullSafeEqual {guards : List Expr} {a b : Expr} (refs : ∀ e ∈ guards, ∃ r, e = .rowRef r)
    (h : ∀ e ∈ guards, Over operand e) (ha : Over operand a) (hb : Over operand b) :
    Over operand (.nullSafeEqual guards a b)

namespace Expr.Over

theorem mono (h : e.Over operand) (k : ∀ d, operand d → operand' d) : e.Over operand' := by
  induction h with
  | operand h => exact .operand (k _ h)
  | const value => exact .const value
  | member name _ ih => exact .member name ih
  | binary op _ _ iha ihb => exact .binary op iha ihb
  | cond _ _ _ iha ihb ihc => exact .cond iha ihb ihc
  | tuple _ ih => exact .tuple ih
  | convert dataType nullable _ ih => exact .convert dataType nullable ih
  | nullSafeEqual refs _ _ _ ih iha ihb => exact .nullSafeEqual refs ih iha ihb

theorem typedNull (t : ScalarType) : (Expr.typedNull t).Over operand := .convert _ _ (.const _)

theorem key {parts : List Expr} (h : ∀ e ∈ parts, e.Over operand) : (Expr.key parts).Over operand := by
  unfold Expr.key
  split
  · exact h _ (.head _)
  · exact .tuple h

theorem widenPair (ha : a.Over operand) (hb : b.Over operand) (t : ScalarType) (m n : Bool) :
    (EntityQuery.widenPair t a m b n).1.Over operand ∧
      (EntityQuery.widenPair t a m b n).2.Over operand := by
  unfold EntityQuery.widenPair
  split
  · exact ⟨.convert _ _ ha, hb⟩
  · exact ⟨ha, .convert _ _ hb⟩
  · exact ⟨ha, hb⟩

theorem readPath (row : String) (path : List String) (h : operand (.param row)) :
    (Expr.readPath row path).Over operand := by
  suffices ∀ e : Expr, e.Over operand → (path.foldl Expr.member e).Over operand from this _ (.operand h)
  induction path with
  | nil => exact fun _ h => h
  | cons name path ih => exact fun _ h => ih _ (.member name h)

theorem settled (op : BinaryOp) (equal : Bool) : (EntityQuery.settled op equal).Over operand :=
  .const _

/-- The references in a scalar expression are references in its operands. -/
theorem mem_rowRefs {r : RowRef} (h : e.Over operand) (hr : r ∈ e.rowRefs) :
    ∃ d, operand d ∧ r ∈ d.rowRefs := by
  have part {d : Expr} (hr : r ∈ d.rowRefs) (leaf : d ≠ .rowRef r) : ∃ c ∈ d.children, r ∈ c.rowRefs :=
    (mem_rowRefs_iff.1 hr).resolve_left leaf
  induction h with
  | operand h => exact ⟨_, h, hr⟩
  | const value => exact absurd (part hr nofun) (by simp [children])
  | member name _ ih =>
    obtain ⟨c, hc, hr'⟩ := part hr nofun
    obtain rfl := List.mem_singleton.1 hc
    exact ih hr'
  | binary op _ _ iha ihb =>
    obtain ⟨c, hc, hr'⟩ := part hr nofun
    simp only [children, List.mem_cons, List.not_mem_nil, or_false] at hc
    rcases hc with rfl | rfl
    · exact iha hr'
    · exact ihb hr'
  | cond _ _ _ iha ihb ihc =>
    obtain ⟨c, hc, hr'⟩ := part hr nofun
    simp only [children, List.mem_cons, List.not_mem_nil, or_false] at hc
    rcases hc with rfl | rfl | rfl
    · exact iha hr'
    · exact ihb hr'
    · exact ihc hr'
  | tuple _ ih =>
    obtain ⟨c, hc, hr'⟩ := part hr nofun
    exact ih c hc hr'
  | convert dataType nullable _ ih =>
    obtain ⟨c, hc, hr'⟩ := part hr nofun
    obtain rfl := List.mem_singleton.1 hc
    exact ih hr'
  | nullSafeEqual _ _ _ _ ih iha ihb =>
    obtain ⟨c, hc, hr'⟩ := part hr nofun
    simp only [children, List.mem_append, List.mem_cons, List.not_mem_nil, or_false] at hc
    rcases hc with hc | rfl | rfl
    · exact ih c hc hr'
    · exact iha hr'
    · exact ihb hr'

end Expr.Over

section Comparisons

variable {op : BinaryOp}

/-- The optional rows that an expression reads are rows that it refers to. -/
theorem mem_rowRefs_of_optionalReads {f : Forest} {r : RowRef} (h : r ∈ optionalReads f e) :
    r ∈ e.rowRefs := by
  induction e using children_induction with
  | step e ih =>
    rw [optionalReads, gather_eq] at h
    have parts (h : r ∈ e.children.flatMap (optionalReads f)) : r ∈ e.rowRefs := by
      obtain ⟨c, hc, hr⟩ := List.mem_flatMap.1 h
      exact mem_rowRefs_of_child hc (ih c hc hr)
    split at h
    · simp only [Option.getD_some] at h
      split at h
      · obtain rfl := List.mem_singleton.1 h
        simp [rowRefs, nodes]
      · cases h
    · cases h
    · cases h
    · exact parts h

theorem mem_of_distinctNodes {refs : List RowRef} {r : RowRef} (h : r ∈ distinctNodes refs) : r ∈ refs := by
  suffices ∀ seen, r ∈ refs.foldl (fun seen r =>
      if seen.any (·.node == r.node) then seen else seen ++ [r]) seen → r ∈ seen ∨ r ∈ refs from
    (this [] h).resolve_left List.not_mem_nil
  clear h
  induction refs with
  | nil => exact fun _ h => .inl h
  | cons a refs ih =>
    intro seen h
    rcases ih _ h with h | h
    · dsimp only at h
      split at h
      · exact .inl h
      · rcases List.mem_append.1 h with h | h
        · exact .inl h
        · exact .inr (List.mem_singleton.1 h ▸ .head _)
    · exact .inr (.tail _ h)

/-- Of the references to a node one is left. -/
theorem exists_distinctNodes {refs : List RowRef} {r : RowRef} (h : r ∈ refs) :
    ∃ r' ∈ distinctNodes refs, r'.node = r.node := by
  suffices ∀ seen, (∃ r' ∈ seen, r'.node = r.node) ∨ r ∈ refs → ∃ r' ∈ refs.foldl (fun seen r =>
      if seen.any (·.node == r.node) then seen else seen ++ [r]) seen, r'.node = r.node from
    this [] (.inr h)
  clear h
  induction refs with
  | nil => exact fun seen h => h.resolve_right List.not_mem_nil
  | cons a refs ih =>
    intro seen h
    refine ih _ ?_
    dsimp only
    split
    · next hany =>
      rcases h with h | h
      · exact .inl h
      · rcases List.mem_cons.1 h with rfl | h
        · obtain ⟨r', hr', heq⟩ := List.any_eq_true.1 hany
          exact .inl ⟨r', hr', eq_of_beq heq⟩
        · exact .inr h
    · rcases h with ⟨r', hr', heq⟩ | h
      · exact .inl ⟨r', List.mem_append_left _ hr', heq⟩
      · rcases List.mem_cons.1 h with rfl | h
        · exact .inl ⟨r, List.mem_append_right _ (.head _), rfl⟩
        · exact .inr h

/-- An equality is one of its sides, with rows that they refer to for guards. -/
theorem equality_over (h : Runs (equality op a b) M p e p') (ha : a.Over operand)
    (hb : b.Over operand) (href : ∀ d, operand d → ∀ r ∈ d.rowRefs, operand (.rowRef r)) :
    e.Over operand ∧ p = p' := by
  simp only [equality, Runs.bind_iff, Runs.settings_iff] at h
  obtain ⟨_, _, ⟨rfl, rfl⟩, h⟩ := h
  split at h
  · simp only [Runs.bind_iff, Runs.forest_iff, Runs.pure_iff] at h
    obtain ⟨_, _, ⟨rfl, rfl⟩, rfl, rfl⟩ := h
    refine ⟨?_, rfl⟩
    unfold guardedEquality
    split
    · exact .binary _ ha hb
    · refine .nullSafeEqual (fun g hg => ?_) (fun g hg => ?_) ha hb
      · obtain ⟨r, -, rfl⟩ := List.mem_map.1 hg
        exact ⟨r, rfl⟩
      · obtain ⟨r, hr, rfl⟩ := List.mem_map.1 hg
        obtain ⟨d, hd, hr⟩ : ∃ d, operand d ∧ r ∈ d.rowRefs := by
          rcases List.mem_append.1 (mem_of_distinctNodes hr) with hr | hr
          · exact ha.mem_rowRefs (mem_rowRefs_of_optionalReads hr)
          · exact hb.mem_rowRefs (mem_rowRefs_of_optionalReads hr)
        exact .operand (href d hd r hr)
  · obtain ⟨rfl, rfl⟩ := Runs.pure_iff.1 h
    exact ⟨.binary _ ha hb, rfl⟩

theorem keyReads_over {n : NodeId} {reads : List (Expr × Property)}
    (h : Runs (keyReads n) M p reads p') :
    (∀ x ∈ reads, x.1.Over (· = p.forest.ref n)) ∧ p = p' := by
  simp only [keyReads, Runs.bind_iff, Runs.node_iff, Runs.entityType_iff, Runs.ofCatalog_iff,
    Runs.ref_iff, Runs.pure_iff] at h
  obtain ⟨_, _, ⟨rfl, rfl⟩, _, _, ⟨_, rfl⟩, _, _, ⟨_, rfl⟩, _, _, ⟨rfl, rfl⟩, rfl, rfl⟩ := h
  refine ⟨fun x hx => ?_, rfl⟩
  obtain ⟨property, -, rfl⟩ := List.mem_map.1 hx
  exact .member _ (.operand rfl)

/-- A reference to a node has no other reference in it. -/
theorem Forest.eq_of_mem_rowRefs_ref {f : Forest} {n : NodeId} {r : RowRef}
    (h : r ∈ (f.ref n).rowRefs) : .rowRef r = f.ref n :=
  ((mem_rowRefs_iff.1 h).resolve_right (by simp [Forest.ref, children])).symm

theorem compareEntities_over {x y : NodeId} (h : Runs (compareEntities op x y) M p e p') :
    e.Over (fun d => d = p.forest.ref x ∨ d = p.forest.ref y) ∧ p = p' := by
  simp only [compareEntities, Runs.bind_iff, Runs.node_iff] at h
  obtain ⟨_, _, ⟨rfl, rfl⟩, _, _, ⟨rfl, rfl⟩, h⟩ := h
  split at h
  · obtain ⟨rfl, rfl⟩ := Runs.pure_iff.1 h
    exact ⟨.settled op false, rfl⟩
  · simp only [Runs.bind_iff] at h
    obtain ⟨left, _, hleft, right, _, hright, h⟩ := h
    obtain ⟨leftReads, rfl⟩ := keyReads_over hleft
    obtain ⟨rightReads, rfl⟩ := keyReads_over hright
    let either (d : Expr) : Prop := d = p.forest.ref x ∨ d = p.forest.ref y
    have leftOver : ∀ l ∈ left, l.1.Over either := fun l hl => (leftReads l hl).mono fun _ => Or.inl
    have rightOver : ∀ r ∈ right, r.1.Over either := fun r hr => (rightReads r hr).mono fun _ => Or.inr
    have pair {l r : Expr} {lp rp : Property} (hz : ((l, lp), (r, rp)) ∈ left.zip right) (m n : Bool) :=
      Over.widenPair (leftOver _ (List.of_mem_zip hz).1) (rightOver _ (List.of_mem_zip hz).2)
        lp.dataType m n
    refine equality_over h (.key fun d hd => ?_) (.key fun d hd => ?_) ?_
    · obtain ⟨_, hw, rfl⟩ := List.mem_map.1 hd
      obtain ⟨⟨⟨l, lp⟩, r, rp⟩, hz, rfl⟩ := List.mem_map.1 hw
      exact (pair hz _ _).1
    · obtain ⟨_, hw, rfl⟩ := List.mem_map.1 hd
      obtain ⟨⟨⟨l, lp⟩, r, rp⟩, hz, rfl⟩ := List.mem_map.1 hw
      exact (pair hz _ _).2
    · rintro _ (rfl | rfl) r hr
      · exact .inl (Forest.eq_of_mem_rowRefs_ref hr)
      · exact .inr (Forest.eq_of_mem_rowRefs_ref hr)

theorem compareWithNull_over {n : NodeId} (h : Runs (compareWithNull op n) M p e p') :
    e.Over (· = p.forest.ref n) ∧ p = p' := by
  simp only [compareWithNull, Runs.bind_iff, Runs.pure_iff] at h
  obtain ⟨reads, _, hreads, rfl, rfl⟩ := h
  obtain ⟨readsOver, rfl⟩ := keyReads_over hreads
  refine ⟨.binary _ (.key fun d hd => ?_) (.key fun d hd => ?_), rfl⟩
  · obtain ⟨⟨read, property⟩, hread, rfl⟩ := List.mem_map.1 hd
    have := readsOver _ hread
    dsimp only
    split
    · exact this
    · exact .convert _ _ this
  · obtain ⟨_, -, rfl⟩ := List.mem_map.1 hd
    exact .typedNull _

/-- Collections are compared by their owners, and leave the forest. -/
theorem compareCollections_over {x y : NodeId} (h : Runs (compareCollections op x y) M p e p') :
    e.Over (fun d => ∃ n, ((p.forest.node x).parent = some n ∨ (p.forest.node y).parent = some n) ∧
      d = p'.forest.ref n) ∧ p'.forest = (p.forest.remove x).remove y := by
  simp only [compareCollections, Runs.bind_iff, Runs.forest_iff, Runs.setForest_iff] at h
  obtain ⟨_, _, ⟨rfl, rfl⟩, _, _, rfl, h⟩ := h
  split at h
  · next owner owner' hx hy =>
    split at h
    · obtain ⟨hover, rfl⟩ := compareEntities_over h
      refine ⟨hover.mono ?_, rfl⟩
      rintro _ (rfl | rfl)
      · exact ⟨owner, .inl hx, rfl⟩
      · exact ⟨owner', .inr hy, rfl⟩
    · obtain ⟨rfl, rfl⟩ := Runs.pure_iff.1 h
      exact ⟨.settled op false, rfl⟩
  · obtain ⟨rfl, rfl⟩ := Runs.pure_iff.1 h
    exact ⟨.settled op false, rfl⟩

theorem compareCollectionWithNull_over {n : NodeId}
    (h : Runs (compareCollectionWithNull op n) M p e p') :
    e.Over (fun d => ∃ q, (p.forest.node n).parent = some q ∧ d = p'.forest.ref q) ∧
      p'.forest = p.forest.remove n := by
  simp only [compareCollectionWithNull, Runs.bind_iff, Runs.node_iff, Runs.modifyForest_iff] at h
  obtain ⟨_, _, ⟨rfl, rfl⟩, _, _, rfl, h⟩ := h
  split at h
  · next q hq =>
    obtain ⟨hover, rfl⟩ := compareWithNull_over h
    exact ⟨hover.mono fun _ hd => ⟨q, hq, hd⟩, rfl⟩
  · obtain ⟨rfl, rfl⟩ := Runs.pure_iff.1 h
    exact ⟨.settled op false, rfl⟩

/-- The rows that a comparison may refer to: those that its sides refer to, and their owners. -/
def Compared (f : Forest) (a b : Expr) (n : NodeId) : Prop :=
  ∃ r, (r ∈ a.rowRefs ∨ r ∈ b.rowRefs) ∧ (n = r.node ∨ (f.node r.node).parent = some n)

theorem Operand.of_node {f : Forest} {n : NodeId}
    (h : Operand.of f e = .entity n ∨ Operand.of f e = .collection n) : ∃ r, e = .rowRef r ∧ r.node = n := by
  unfold Operand.of at h
  split at h
  · next r =>
    refine ⟨r, rfl, ?_⟩
    dsimp only at h
    split at h
    · simpa using h
    · split at h
      · simpa using h
      · simp at h
  · split at h <;> simp at h

/-- An equality is rewritten to a scalar expression over its sides and over rows that it compares. -/
theorem compareSides_over (h : Runs (compareSides op a b) M p e p') (ha : a.Over operand)
    (hb : b.Over operand) (href : ∀ d, operand d → ∀ r ∈ d.rowRefs, operand (.rowRef r))
    (hnew : ∀ n, Compared p.forest a b n → operand (p'.forest.ref n)) :
    e.Over operand ∧ (p'.forest = p.forest ∨ ∃ n, p'.forest = p.forest.remove n ∨
      ∃ k, p'.forest = (p.forest.remove n).remove k) := by
  simp only [compareSides, Runs.bind_iff, Runs.forest_iff] at h
  obtain ⟨_, _, ⟨rfl, rfl⟩, h⟩ := h
  have left {r n} (heq : a = .rowRef r) (hn : n = r.node ∨ (p.forest.node r.node).parent = some n) :
      operand (p'.forest.ref n) :=
    hnew n ⟨r, .inl (heq ▸ by simp [rowRefs, nodes]), hn⟩
  have right {r n} (heq : b = .rowRef r) (hn : n = r.node ∨ (p.forest.node r.node).parent = some n) :
      operand (p'.forest.ref n) :=
    hnew n ⟨r, .inr (heq ▸ by simp [rowRefs, nodes]), hn⟩
  split at h
  · next hx hy =>
    obtain ⟨r, rfl, rfl⟩ := Operand.of_node (.inr hx)
    obtain ⟨r', rfl, rfl⟩ := Operand.of_node (.inr hy)
    obtain ⟨hover, hforest⟩ := compareCollections_over h
    refine ⟨hover.mono ?_, .inr ⟨_, .inr ⟨_, hforest⟩⟩⟩
    rintro _ ⟨n, hn | hn, rfl⟩
    · exact left rfl (.inr hn)
    · exact right rfl (.inr hn)
  · next hx _ =>
    obtain ⟨r, rfl, rfl⟩ := Operand.of_node (.inr hx)
    obtain ⟨hover, hforest⟩ := compareCollectionWithNull_over h
    refine ⟨hover.mono ?_, .inr ⟨_, .inl hforest⟩⟩
    rintro _ ⟨n, hn, rfl⟩
    exact left rfl (.inr hn)
  · next _ hy =>
    obtain ⟨r, rfl, rfl⟩ := Operand.of_node (.inr hy)
    obtain ⟨hover, hforest⟩ := compareCollectionWithNull_over h
    refine ⟨hover.mono ?_, .inr ⟨_, .inl hforest⟩⟩
    rintro _ ⟨n, hn, rfl⟩
    exact right rfl (.inr hn)
  · exact (Runs.throw_iff.1 h).elim
  · exact (Runs.throw_iff.1 h).elim
  · next hx hy =>
    obtain ⟨r, rfl, rfl⟩ := Operand.of_node (.inl hx)
    obtain ⟨r', rfl, rfl⟩ := Operand.of_node (.inl hy)
    obtain ⟨hover, rfl⟩ := compareEntities_over h
    refine ⟨hover.mono ?_, .inl rfl⟩
    rintro _ (rfl | rfl)
    · exact left rfl (.inl rfl)
    · exact right rfl (.inl rfl)
  · next hx _ =>
    obtain ⟨r, rfl, rfl⟩ := Operand.of_node (.inl hx)
    obtain ⟨hover, rfl⟩ := compareWithNull_over h
    exact ⟨hover.mono fun _ hd => hd ▸ left rfl (.inl rfl), .inl rfl⟩
  · next _ hy =>
    obtain ⟨r, rfl, rfl⟩ := Operand.of_node (.inl hy)
    obtain ⟨hover, rfl⟩ := compareWithNull_over h
    exact ⟨hover.mono fun _ hd => hd ▸ right rfl (.inl rfl), .inl rfl⟩
  · obtain ⟨hover, rfl⟩ := equality_over h ha hb href
    exact ⟨hover, .inl rfl⟩

end Comparisons

section Keys

variable {owner : Expr} {element : String}

/-- Which element belongs to an owner is a matter of the two rows. -/
theorem membership_over {ownerKey elementKey : List Property} (ho : owner.Over operand)
    (hel : operand (.param element)) : (membership owner element ownerKey elementKey).Over operand := by
  have pair (o e : Property) := Over.widenPair (.member e.name (.operand hel)) (.member o.name ho)
    o.dataType e.nullable o.nullable
  refine .binary _ (.binary _ (.key fun d hd => ?_) (.key fun d hd => ?_))
    (.binary _ (.key fun d hd => ?_) (.key fun d hd => ?_))
  · obtain ⟨⟨o, _⟩, -, rfl⟩ := List.mem_map.1 hd
    dsimp only
    split
    · exact .member _ ho
    · exact .convert _ _ (.member _ ho)
  · obtain ⟨_, -, rfl⟩ := List.mem_map.1 hd
    exact .typedNull _
  all_goals
    obtain ⟨_, hw, rfl⟩ := List.mem_map.1 hd
    obtain ⟨⟨o, e⟩, -, rfl⟩ := List.mem_map.1 hw
    first | exact (pair o e).1 | exact (pair o e).2

theorem widenedIf_over {read : Expr} (c : Bool) (q : Property) (h : read.Over operand) :
    (if c && !q.nullable then Expr.convert read q.dataType true else read).Over operand := by
  split
  · exact .convert _ _ h
  · exact h

variable {optional : Bool} {target : String} {outerKey innerKey : List Property}

/-- The owner's side of a join along a navigation reads the row of the owner. -/
theorem navigationColumns_owner_over (ho : owner.Over operand) :
    (Expr.key ((navigationColumns owner optional target outerKey innerKey).map (·.1))).Over operand := by
  refine .key fun d hd => ?_
  obtain ⟨_, hc, rfl⟩ := List.mem_map.1 hd
  obtain ⟨⟨o, t⟩, -, rfl⟩ := List.mem_map.1 hc
  dsimp only [navigationColumn]
  split
  · exact .cond (.binary _ ho (.const _)) (.typedNull _) (widenedIf_over _ o (.member _ ho))
  · exact widenedIf_over _ o (.member _ ho)

/-- The target's side of a join along a navigation reads the row of the target. -/
theorem navigationColumns_target_over (ht : operand (.param target)) :
    (Expr.key ((navigationColumns owner optional target outerKey innerKey).map (·.2))).Over operand := by
  refine .key fun d hd => ?_
  obtain ⟨_, hc, rfl⟩ := List.mem_map.1 hd
  obtain ⟨⟨o, t⟩, -, rfl⟩ := List.mem_map.1 hc
  exact widenedIf_over _ t (.member _ (.operand ht))

end Keys

section Flat

/-- The node is neither a lambda nor a call nor a record, nor a query. -/
def Expr.isFlat : Expr → Bool
  | .lambda .. | .call .. | .record _ | .stream .. => false
  | _ => true

/-- The expression holds no lambdas, operator calls, records and queries. -/
def Expr.Flat (e : Expr) : Prop := ∀ d ∈ e.nodes, d.isFlat = true

instance (e : Expr) : Decidable e.Flat := inferInstanceAs (Decidable (∀ d ∈ e.nodes, d.isFlat = true))

theorem Expr.Flat.child {c : Expr} (h : e.Flat) (hc : c ∈ e.children) : c.Flat :=
  fun d hd => h d (mem_nodes_of_child hc hd)

theorem Expr.Flat.self (h : e.Flat) : e.isFlat = true := h e (self_mem_nodes e)

theorem Expr.flat_iff : e.Flat ↔ e.isFlat = true ∧ ∀ c ∈ e.children, c.Flat := forall_nodes_iff

theorem Expr.SameHead.isFlat {R : Expr → Expr → Prop} (h : SameHead R a b) : b.isFlat = a.isFlat := by
  cases h <;> rfl

theorem Expr.Flat.hasStream (h : e.Flat) : e.hasStream = false := by
  refine List.any_eq_false.2 fun d hd => ?_
  have := h d hd
  cases d <;> first | exact Bool.false_ne_true | cases this

/-- Scalars over flat operands are flat. -/
theorem Expr.Over.flat (h : e.Over operand) (k : ∀ d, operand d → d.Flat) : e.Flat := by
  induction h with
  | operand h => exact k _ h
  | const value => exact flat_iff.2 ⟨rfl, nofun⟩
  | member _ _ ih | convert _ _ _ ih => exact flat_iff.2 ⟨rfl, by simpa [children] using ih⟩
  | binary _ _ _ iha ihb => exact flat_iff.2 ⟨rfl, by simp [children, iha, ihb]⟩
  | cond _ _ _ iha ihb ihc => exact flat_iff.2 ⟨rfl, by simp [children, iha, ihb, ihc]⟩
  | tuple _ ih => exact flat_iff.2 ⟨rfl, ih⟩
  | nullSafeEqual _ _ _ _ ih iha ihb =>
    refine flat_iff.2 ⟨rfl, fun c hc => ?_⟩
    rcases List.mem_append.1 hc with hc | hc
    · exact ih c hc
    · rcases List.mem_cons.1 hc with rfl | hc
      · exact iha
      · exact List.mem_singleton.1 hc ▸ ihb

theorem Expr.readPath_flat (row : String) (path : List String) : (readPath row path).Flat := by
  refine Over.flat (.readPath row path (rfl : Expr.param row = .param row)) ?_
  rintro _ rfl
  exact flat_iff.2 ⟨rfl, nofun⟩

end Flat

end EntityQuery
