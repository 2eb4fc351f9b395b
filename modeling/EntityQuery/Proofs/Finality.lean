import EntityQuery.Proofs.Comparing
import EntityQuery.Proofs.Rebinding

/-!
# Comparing once and for all

Binding and comparing leave the nodes that are there as they are, apart from links to further rows and
removed ones (`Forest.Steady`). So what becomes of an equality is the same whenever it is made, and it stays
as it is if it is bound and compared again (`Expr.Fixed`), unless a column of the key has the name of a
navigation, or the key of a row that can be missing is compared with nulls: the guard that this has not been
given the first time it is given the second time.
-/

namespace EntityQuery

open EntityQuery.Expr EntityQuery.Forest

variable {M : Model} {p p' q q' : Progress} {e e' d a b : Expr} {f g : Forest} {c : Catalog} {n : NodeId}
  {op : BinaryOp}

section Steadiness

/-- The node is as optional as it was, and no field has been added if it is a record. -/
structure Node.Lasts (x y : Node) : Prop where
  isOptional : y.isOptional = x.isOptional
  fields : x.entity = none → ∀ k ∈ y.children, k ∈ x.children

/-- The second forest is linked, and the nodes of the first are in it as they were, apart from links to
further rows. -/
structure Forest.Steady (c : Catalog) (f g : Forest) : Prop where
  linked : g.Linked c
  keeps : f.Keeps g
  lasts : ∀ {n}, n.index < f.size → (f.node n).Lasts (g.node n)

theorem Node.Lasts.refl (x : Node) : x.Lasts x := ⟨rfl, fun _ _ => id⟩

theorem Forest.Steady.refl (h : f.Linked c) : f.Steady c f := ⟨h, .refl f, fun _ => .refl _⟩

theorem Forest.Steady.trans {h : Forest} (hf : f.Steady c g) (hg : g.Steady c h) : f.Steady c h where
  linked := hg.linked
  keeps := hf.keeps.trans hg.keeps
  lasts hn := by
    have first := hf.lasts hn
    have second := hg.lasts (Nat.lt_of_lt_of_le hn hf.keeps.size)
    refine ⟨second.isOptional.trans first.isOptional, fun record k hk => first.fields record k ?_⟩
    exact second.fields ((hf.keeps.node hn).entity.trans record) k hk

theorem lasts_remove (f : Forest) (n k : NodeId) : (f.node k).Lasts ((f.remove n).node k) := by
  refine remove_induction n (.refl _) (fun {g q} hg => ?_) fun {g m} hg => ?_
  · rcases g.node_modifyNode q k fun x => { x with children := x.children.filter (· ≠ n) } with
      hk | ⟨rfl, -, hk⟩ <;> rw [hk]
    · exact hg
    · exact ⟨hg.isOptional, fun record i hi => hg.fields record i (List.mem_filter.1 hi).1⟩
  · rcases g.node_modifyNode m k fun x => { x with isRemoved := true } with hk | ⟨rfl, -, hk⟩ <;> rw [hk]
    · exact hg
    · exact ⟨hg.isOptional, hg.fields⟩

theorem lasts_follow {n k : NodeId} {entity : String} (edge : NavigationEdge)
    (known : (f.node n).entity = some entity) (hk : k.index < f.size) :
    (f.node k).Lasts ((f.follow n edge).2.node k) := by
  rcases follow_cases (Keeps.range_of_entity known) (Prod.eta _).symm with ⟨-, hg⟩ | ⟨-, -, -, added⟩
  · rw [hg]
    exact .refl _
  · rcases added.old hk with hnode | ⟨hparent, hnode⟩ <;> rw [hnode]
    · exact .refl _
    · obtain rfl := Option.some.inj hparent
      exact ⟨rfl, fun record => absurd (record.symm.trans known) (by simp)⟩

theorem bindMember_steady {t : Expr} {name : String} (h : Runs (bindMember t name) M p e p')
    (hp : p.forest.Linked M.catalog) : p.forest.Steady M.catalog p'.forest := by
  obtain ⟨linked, keeps⟩ := bindMember_onward t name h hp
  refine ⟨linked, keeps, fun {n} hn => ?_⟩
  unfold bindMember at h
  split at h
  · obtain ⟨-, rfl⟩ := Runs.pure_iff.1 h
    exact .refl _
  · rcases Runs.bindRowMember_cases h with ⟨-, rfl, -⟩ | ⟨_, -, -, rfl⟩ |
      ⟨_, edge, _, _, _, -, known, -, hfollow, rfl, -⟩
    · exact .refl _
    · exact .refl _
    · have lasts := lasts_follow edge known hn
      rwa [hfollow] at lasts
  · obtain ⟨-, rfl⟩ := Runs.pure_iff.1 h
    exact .refl _

/-- Binding leaves the nodes that are there as they are. -/
theorem bind_steady (h : Runs (bind e) M p e' p') (hp : p.forest.Linked M.catalog) :
    p.forest.Steady M.catalog p'.forest := by
  refine Runs.rewrite_within (fun p q => p.forest.Linked M.catalog → p.forest.Steady M.catalog q.forest)
    (fun _ => .refl) (fun h k hp => (h hp).trans (k (h hp).linked)) (fun {e p e' p'} h hp => ?_) h hp
  split at h
  · exact bindMember_steady h hp
  · obtain ⟨-, rfl⟩ := Runs.pure_iff.1 h
    exact .refl hp

theorem compareSides_steady {op : BinaryOp} {a b : Expr} (h : Runs (compareSides op a b) M p e p')
    (hp : p.forest.Linked M.catalog) : p.forest.Steady M.catalog p'.forest := by
  obtain ⟨linked, keeps⟩ := compareSides_onward op a b h hp
  refine ⟨linked, keeps, fun {n} hn => ?_⟩
  have built : e.Over (fun _ => True) ∧ _ := compareSides_over h (.operand trivial) (.operand trivial)
    (fun _ _ _ _ => trivial) fun _ _ => trivial
  rcases built.2 with hforest | ⟨k, hforest | ⟨l, hforest⟩⟩ <;> rw [hforest]
  · exact .refl _
  · exact lasts_remove _ k n
  · have once : p.forest.Steady M.catalog (p.forest.remove k) :=
      ⟨(onward_remove k hp).1, (onward_remove k hp).2, fun _ => lasts_remove _ k _⟩
    have twice := onward_remove l once.linked
    exact (once.trans ⟨twice.1, twice.2, fun _ => lasts_remove _ l _⟩).lasts hn

/-- Comparing by keys leaves the nodes that are there as they are, apart from removed ones. -/
theorem compareByKeys_steady (h : Runs (compareByKeys e) M p e' p') (hp : p.forest.Linked M.catalog) :
    p.forest.Steady M.catalog p'.forest := by
  refine Runs.rewrite_within (fun p q => p.forest.Linked M.catalog → p.forest.Steady M.catalog q.forest)
    (fun _ => .refl) (fun h k hp => (h hp).trans (k (h hp).linked)) (fun {e p e' p'} h hp => ?_) h hp
  split at h
  · split at h
    · exact compareSides_steady h hp
    · obtain ⟨-, rfl⟩ := Runs.pure_iff.1 h
      exact .refl hp
  · exact compareSides_steady h hp
  · obtain ⟨-, rfl⟩ := Runs.pure_iff.1 h
    exact .refl hp

end Steadiness

section Rebinding

variable {r : RowRef} {name : String}

/-- A record that lasts has no field that it did not have. -/
theorem Forest.Steady.field_none (h : f.Steady c g) (hf : f.Linked c) {n : NodeId} (hn : n.index < f.size)
    (hnone : f.fieldAt? n name = none) : g.fieldAt? n name = none := by
  refine Option.filter_eq_none_iff.2 fun k hk hfield => ?_
  have hstep := List.find?_some hk
  have hchild := List.mem_of_find?_eq_some hk
  cases (h.linked.link (h.linked.children hchild).2).2 with
  | navigation _ _ _ _ _ plain => simp [plain] at hfield
  | field record noEdge =>
    have record : (f.node n).entity = none := (h.keeps.node hn).entity.symm.trans record
    have hold := (h.lasts hn).fields record k hchild
    have stays := h.keeps.node (hf.children hold).1
    have hstep : ((f.node k).step? == some name) = true := by
      rwa [Node.step?, ← stays.edge, ← stays.field]
    cases hfirst : f.child? n name with
    | none => exact absurd hstep (List.find?_eq_none.1 hfirst k hold)
    | some k' =>
      have hplain := Option.filter_eq_none_iff.1 hnone k' hfirst
      cases (hf.link (hf.children (List.mem_of_find?_eq_some hfirst)).2).2 with
      | navigation known => exact absurd (record.symm.trans known) (by simp)
      | field _ noEdge =>
        refine hplain ?_
        have hstep := List.find?_some hfirst
        simp only [Node.step?, noEdge, beq_iff_eq] at hstep
        rw [hstep]
        rfl

theorem Forest.Steady.lasting (h : f.Steady c g) (hf : f.Linked c) : f.Lasting g :=
  ⟨h.keeps, h.field_none hf⟩

/-- All references of the expression are into the forest, and no member chain leads further, whatever
links are added. -/
structure Expr.Bound (M : Model) (f : Forest) (e : Expr) : Prop where
  range : ∀ r ∈ e.rowRefs, r.node.index < f.size
  members : ∀ {t name}, .member t name ∈ e.nodes → ∀ {q : Progress}, f.Steady M.catalog q.forest →
    Runs (bindMember t name) M q (.member t name) q

theorem Expr.Bound.child (h : e.Bound M f) (hd : d ∈ e.children) : d.Bound M f :=
  ⟨fun r hr => h.range r (mem_rowRefs_of_child hd hr), fun ht => h.members (mem_nodes_of_child hd ht)⟩

theorem Expr.Bound.of_children (parts : ∀ d ∈ e.children, d.Bound M f)
    (ref : ∀ r, e = .rowRef r → r.node.index < f.size)
    (member : ∀ t name, e = .member t name → ∀ {q : Progress}, f.Steady M.catalog q.forest →
      Runs (bindMember t name) M q (.member t name) q) : e.Bound M f where
  range r hr := by
    rcases mem_rowRefs_iff.1 hr with heq | ⟨d, hd, hr⟩
    · exact ref r heq
    · exact (parts d hd).range r hr
  members ht := by
    rcases mem_nodes_iff.1 ht with heq | ⟨d, hd, ht⟩
    · exact member _ _ heq.symm
    · exact (parts d hd).members ht

theorem Expr.Bound.rowRef {r : RowRef} (h : r.node.index < f.size) : (Expr.rowRef r).Bound M f :=
  .of_children (by simp [children]) (fun r hr => by cases hr; exact h) fun t name ht => by cases ht

theorem Expr.Normal.bound (h : e.Normal M f) (hf : f.Linked M.catalog) : e.Bound M f where
  range := h.range
  members ht _ hq := h.members ht (hq.lasting hf)

/-- What has been bound is bound for good. -/
theorem bind_bound (h : Runs (bind e) M p e' p') (hp : p.forest.Linked M.catalog)
    (hrange : ∀ r ∈ e.rowRefs, r.node.index < p.forest.size) : e'.Bound M p'.forest :=
  (bind_normal h hp.closed hrange).bound (bind_onward e h hp).1

/-- Binding what is bound changes nothing. -/
theorem Expr.Bound.again (h : e.Bound M f) (hq : f.Steady M.catalog q.forest) : Runs (bind e) M q e q :=
  Runs.bind_of_members fun ht => h.members ht hq

end Rebinding

section Reads

theorem optionalReads_member (r : RowRef) (name : String) :
    optionalReads f (.member (.rowRef r) name) = if (f.node r.node).isOptional then [r] else [] := by
  rw [optionalReads, gather_eq]
  rfl

theorem optionalReads_of_parts (hmember : ∀ r name, e ≠ .member (.rowRef r) name)
    (hlambda : ∀ params body, e ≠ .lambda params body) (hcall : ∀ o l note, e ≠ .call o l note) :
    optionalReads f e = e.children.flatMap (optionalReads f) := by
  rw [optionalReads, gather_eq]
  split
  · exact absurd rfl (hmember _ _)
  · exact absurd rfl (hlambda _ _)
  · exact absurd rfl (hcall _ _ _)
  · rfl

/-- What is read of two expressions with the same head: the rows of which they are members, nothing, or what
is read of their parts. -/
theorem optionalReads_cases {R : Expr → Expr → Prop} (h : SameHead R e d)
    (row : ∀ {c c'}, R c c' → c'.isRef = c.isRef) :
    (∃ r r' name, e = .member (.rowRef r) name ∧ d = .member (.rowRef r') name ∧ R (.rowRef r) (.rowRef r')) ∨
      (∀ f, optionalReads f e = [] ∧ optionalReads f d = []) ∨
      ∀ f, optionalReads f e = e.children.flatMap (optionalReads f) ∧
        optionalReads f d = d.children.flatMap (optionalReads f) := by
  cases h with
  | @member t t' name h =>
    have same := row h
    cases href : t.isRef with
    | true =>
      obtain ⟨r, rfl⟩ := isRef_iff.1 href
      obtain ⟨r', rfl⟩ := isRef_iff.1 (same.trans href)
      exact .inl ⟨r, r', name, rfl, rfl, h⟩
    | false =>
      have other {t : Expr} (h : t.isRef = false) (r : RowRef) (name' : String) :
          Expr.member t name ≠ .member (.rowRef r) name' := by
        rintro ⟨⟩
        cases h
      exact .inr (.inr fun f => ⟨optionalReads_of_parts (other href) (by simp) (by simp),
        optionalReads_of_parts (other (same.trans href)) (by simp) (by simp)⟩)
  | lambda _ _ | call _ _ _ =>
    exact .inr (.inl fun f => ⟨by rw [optionalReads, gather_eq]; rfl, by rw [optionalReads, gather_eq]; rfl⟩)
  | _ =>
    exact .inr (.inr fun f => ⟨optionalReads_of_parts (by simp) (by simp) (by simp),
      optionalReads_of_parts (by simp) (by simp) (by simp)⟩)

/-- The optional rows that an expression reads stay those. -/
theorem optionalReads_steady (hg : f.Steady c g) (hrange : ∀ r ∈ e.rowRefs, r.node.index < f.size) :
    optionalReads g e = optionalReads f e := by
  induction e using children_induction with
  | step e ih =>
    have parts : e.children.flatMap (optionalReads g) = e.children.flatMap (optionalReads f) :=
      List.flatMap_congr fun d hd => ih d hd fun r hr => hrange r (mem_rowRefs_of_child hd hr)
    rcases optionalReads_cases (SameHead.refl_of e fun _ _ => rfl) (fun h => h ▸ rfl) with
      ⟨r, _, name, rfl, -, -⟩ | none | parts'
    · rw [optionalReads_member, optionalReads_member, (hg.lasts (hrange r (List.mem_singleton_self r))).isOptional]
    · rw [(none g).1, (none f).1]
    · rw [(parts' g).1, (parts' f).1, parts]

/-- No row is read of what reads none, if that is so of the parts and they are the same rows. -/
theorem optionalReads_eq_nil (h : SameHead (fun c c' => (optionalReads f c = [] → optionalReads f c' = []) ∧
    ∀ r, c' = .rowRef r ↔ c = .rowRef r) e d) (none : optionalReads f e = []) : optionalReads f d = [] := by
  have row {c c' : Expr} (h : ∀ r, c' = .rowRef r ↔ c = .rowRef r) : c'.isRef = c.isRef := by
    rw [Bool.eq_iff_iff, isRef_iff, isRef_iff]
    exact exists_congr h
  rcases optionalReads_cases h fun h => row h.2 with ⟨r, r', name, rfl, rfl, -, h⟩ | nothing | parts
  · obtain rfl : r = r' := by simpa using (h r').1 rfl
    exact none
  · exact (nothing f).2
  · rw [(parts f).1, List.flatMap_eq_nil_iff] at none
    rw [(parts f).2, List.flatMap_eq_nil_iff]
    intro c' hc'
    obtain ⟨c, hc, h, -⟩ := h.of_mem_children hc'
    exact h (none c hc)

theorem optionalReads_of_sides (h : e.sides? = some (op, a, b)) :
    optionalReads f e = optionalReads f a ++ optionalReads f b := by
  rw [optionalReads_of_parts (by rintro r name rfl; cases h) (by rintro params body rfl; cases h)
    (by rintro o l note rfl; cases h), children_of_sides? h]
  simp

theorem optionalReads_plainEquality (s : Settings) (op : BinaryOp) (a b : Expr) :
    optionalReads f (plainEquality s g op a b) = optionalReads f a ++ optionalReads f b := by
  have rows (l : List RowRef) : (l.map Expr.rowRef).flatMap (optionalReads f) = [] := by
    simp [optionalReads, gather_eq, children]
  rcases plainEquality_cases s g op a b with heq | ⟨guards, heq, -⟩ <;> rw [heq] <;>
    rw [optionalReads_of_parts (by simp) (by simp) (by simp)] <;> simp [children, rows]

theorem plainEquality_steady (hg : f.Steady c g) (ha : ∀ r ∈ a.rowRefs, r.node.index < f.size)
    (hb : ∀ r ∈ b.rowRefs, r.node.index < f.size) (s : Settings) :
    plainEquality s g op a b = plainEquality s f op a b := by
  simp only [plainEquality, guardedEquality, optionalReads_steady hg ha, optionalReads_steady hg hb]

/-- An equality is guarded only if its sides read rows that can be missing. -/
theorem plainEquality_of_no_reads {s : Settings} (h : op = .equal → s.nullSafeEquality = true →
    optionalReads f a = [] ∧ optionalReads f b = []) : plainEquality s f op a b = .binary op a b := by
  unfold plainEquality
  split
  · next hsafe =>
    obtain ⟨rfl, hsafe⟩ : op = .equal ∧ s.nullSafeEquality = true := by simpa using hsafe
    obtain ⟨ha, hb⟩ := h rfl hsafe
    rw [guardedEquality, ha, hb]
    rfl
  · rfl

end Reads

section Agreeing

/-- The reference to a node is what it was. -/
theorem Forest.Steady.ref (h : f.Steady c g) (hf : f.Linked c) (hn : n.index < f.size) : g.ref n = f.ref n := by
  have path : g.memberPath n = f.memberPath n := by
    obtain ⟨i⟩ := n
    induction i using Nat.strongRecOn with
    | _ i ih =>
      have stays := h.keeps.node hn
      have step : (g.node ⟨i⟩).step? = (f.node ⟨i⟩).step? := by
        rw [Node.step?, Node.step?, stays.edge, stays.field]
      cases hq : (f.node ⟨i⟩).parent with
      | none =>
        rw [memberPath, memberPath, lineage_top hq, lineage_top (stays.parent.trans hq)]
        simp only [List.filterMap_cons, List.filterMap_nil, step]
      | some q =>
        have older := (hf.link hq).1
        have above := ih q.index older (Nat.lt_trans older hn)
        simp only [memberPath] at above
        simp only [memberPath, lineage_child hq older, lineage_child (stays.parent.trans hq) older,
          List.filterMap_cons, step]
        cases (f.node ⟨i⟩).step? <;> simp [above]
  rw [Forest.ref, Forest.ref, path, (h.keeps.node hn).source]

theorem Forest.Steady.agree (h : f.Steady c g) (hf : f.Linked c) (hn : n.index < f.size) : f.Agree g n where
  node := by
    have stays := h.keeps.node hn
    exact ⟨stays.source, stays.parent, stays.edge, stays.entity, stays.field, (h.lasts hn).isOptional⟩
  ref := h.ref hf hn

theorem Operand.of_steady (h : f.Steady c g) (range : ∀ r ∈ e.rowRefs, r.node.index < f.size) :
    Operand.of g e = Operand.of f e := by
  cases e with
  | rowRef r =>
    have stays := h.keeps.node (range r (List.mem_singleton_self r))
    simp only [Operand.of, stays.isCollection, stays.entity]
  | _ => rfl

theorem Operand.known_of_entity (h : Operand.of f e = .entity n) : (f.node n).entity.isSome = true := by
  cases e with
  | rowRef r =>
    simp only [Operand.of] at h
    split at h
    · cases h
    · split at h
      · next known =>
        cases h
        exact known
      · cases h
  | _ =>
    simp only [Operand.of] at h
    split at h <;> cases h

/-- What becomes of an equality stays that, if no collections are compared. -/
theorem comparedSides_steady (h : f.Steady c g) (hf : f.Linked c) (ha : ∀ r ∈ a.rowRefs, r.node.index < f.size)
    (hb : ∀ r ∈ b.rowRefs, r.node.index < f.size) (single : (Operand.of f a).isCollection = false)
    (single' : (Operand.of f b).isCollection = false) : comparedSides M g op a b = comparedSides M f op a b := by
  rw [comparedSides, comparedSides, Operand.of_steady h ha, Operand.of_steady h hb, plainEquality_steady h ha hb]
  have agree {d : Expr} {n : NodeId} (hn : Operand.of f d = .entity n) : f.Agree g n := by
    obtain ⟨_, known⟩ := Option.isSome_iff_exists.1 (Operand.known_of_entity hn)
    exact h.agree hf (Keeps.range_of_entity known)
  cases hx : Operand.of f a with
  | collection _ => simp [hx, Operand.isCollection] at single
  | entity x =>
    cases hy : Operand.of f b with
    | collection _ => simp [hy, Operand.isCollection] at single'
    | entity y => exact comparedRows_agree (agree hx) (agree hy)
    | null => exact comparedNull_agree (agree hx)
    | other => rfl
  | null =>
    cases hy : Operand.of f b with
    | collection _ => simp [hy, Operand.isCollection] at single'
    | entity y => exact comparedNull_agree (agree hy)
    | null | other => rfl
  | other =>
    cases hy : Operand.of f b with
    | collection _ => simp [hy, Operand.isCollection] at single'
    | _ => rfl

theorem Progress.compared_single (single : (Operand.of p.forest a).isCollection = false)
    (single' : (Operand.of p.forest b).isCollection = false) : p.compared a b = p := by
  rw [Progress.compared]
  split
  · next hx _ => simp [hx, Operand.isCollection] at single
  · next hx _ => simp [hx, Operand.isCollection] at single
  · next hy => simp [hy, Operand.isCollection] at single'
  · rfl

end Agreeing

section Finality

/-- Binding and comparing leave the expression as it is, whatever links are added or removed. -/
structure Expr.Fixed (M : Model) (f : Forest) (e : Expr) : Prop where
  bound : e.Bound M f
  compares : ∀ {q : Progress}, f.Steady M.catalog q.forest → Runs (compareByKeys e) M q e q

namespace Expr.Fixed

theorem of_parts (bound : e.Bound M f) (hs : e.sides? = none) (parts : ∀ d ∈ e.children, d.Fixed M f) :
    e.Fixed M f where
  bound
  compares {q} hq := by
    rw [compareByKeys_eq, Runs.bind_iff]
    refine ⟨e, q, Runs.mapChildren_fixed (SameHead.refl_of e fun d hd => (parts d hd).compares hq), ?_⟩
    rw [compareNode, hs]
    exact Runs.pure_iff.2 ⟨rfl, rfl⟩

theorem rowRef {r : RowRef} (h : r.node.index < f.size) : (Expr.rowRef r).Fixed M f :=
  of_parts (.rowRef h) rfl (by simp [children])

theorem const (value : Literal) : (Expr.const value).Fixed M f :=
  of_parts (.of_children (by simp [children]) (by simp) (by simp)) rfl (by simp [children])

theorem convert {t : ScalarType} {nullable : Bool} (h : e.Fixed M f) : (Expr.convert e t nullable).Fixed M f :=
  of_parts (.of_children (by simpa [children] using h.bound) (by simp) (by simp)) rfl (by simpa [children] using h)

theorem key {parts : List Expr} (h : ∀ d ∈ parts, d.Fixed M f) : (Expr.key parts).Fixed M f := by
  have tuple : (Expr.tuple parts).Fixed M f :=
    of_parts (.of_children (fun d hd => (h d hd).bound) (by simp) (by simp)) rfl h
  match parts with
  | [] => exact tuple
  | [part] => exact h part (.head _)
  | _ :: _ :: _ => exact tuple

/-- The member of a row that has the name of no navigation. -/
theorem column {r : RowRef} {entity name : String} {t : EntityType} (known : (f.node r.node).entity = some entity)
    (ht : M.catalog.type? entity = some t) (plain : t.navigation? name = none) :
    (Expr.member (.rowRef r) name).Fixed M f := by
  have here : (Expr.rowRef r).Fixed M f := rowRef (Keeps.range_of_entity known)
  refine of_parts (.of_children (by simpa [children] using here.bound) (by simp) ?_) rfl
    (by simpa [children] using here)
  rintro _ _ ⟨⟩ q hq
  refine Runs.bindRowMember_stays_iff.2 (.inr ⟨hq.linked.fieldless (hq.keeps.entity known) name, ?_⟩)
  intro entity' known'
  obtain rfl : entity = entity' := Option.some.inj ((hq.keeps.entity known).symm.trans known')
  exact ⟨t, ht, plain⟩

end Expr.Fixed

/-- No column of the key has the name of a navigation. -/
def hasPlainKey (c : Catalog) (f : Forest) (n : NodeId) : Bool :=
  (c.type? ((f.node n).entity.getD "")).any fun t => t.keyProperties.toOption.any fun key =>
    key.all fun k => (t.navigation? k.name).isNone

/-- What becomes of an equality of the two operands stays as it is when it is bound and compared again. -/
def Operand.areFinal (M : Model) (f : Forest) (op : BinaryOp) : Operand → Operand → Bool
  | .collection _, _ | _, .collection _ => false
  | .entity x, .entity y =>
    (f.node x).entity ≠ (f.node y).entity || hasPlainKey M.catalog f x && hasPlainKey M.catalog f y
  | .entity n, .null | .null, .entity n =>
    hasPlainKey M.catalog f n && !(op = .equal && M.settings.nullSafeEquality && (f.node n).isOptional)
  | _, _ => true

theorem Expr.Fixed.keyColumn {key : List Property} {k : Property} (known : (f.node n).entity.isSome = true)
    (hkey : keyOf? M.catalog f n = some key) (plain : hasPlainKey M.catalog f n = true) (hk : k ∈ key)
    (widened : Bool) : (keyColumn f n widened k).Fixed M f := by
  obtain ⟨entity, known⟩ := Option.isSome_iff_exists.1 known
  obtain ⟨t, ht, hkey⟩ := keyOf?_eq_some.1 hkey
  rw [hasPlainKey, ht, Option.any_some, hkey] at plain
  rw [known] at ht
  have column : (Expr.member (f.ref n) k.name).Fixed M f :=
    .column (r := ⟨(f.node n).source, n, f.memberPath n⟩) known ht
      (Option.isNone_iff_eq_none.1 (List.all_eq_true.1 plain k hk))
  rw [EntityQuery.keyColumn]
  split
  · exact column.convert
  · exact column

/-- The parts of an equality, guarded or not, are its sides and rows that these read. -/
theorem Expr.Bound.plainEquality (ha : a.Bound M f) (hb : b.Bound M f) (s : Settings) (op : BinaryOp) :
    (plainEquality s f op a b).Bound M f := by
  have sides : ∀ d ∈ [a, b], d.Bound M f := List.forall_mem_cons.2 ⟨ha, List.forall_mem_singleton.2 hb⟩
  rcases plainEquality_cases s f op a b with heq | ⟨guards, heq, hguards⟩ <;> rw [heq]
  · exact .of_children sides (by simp) (by simp)
  · refine .of_children (fun d hd => ?_) (by simp) (by simp)
    rcases List.mem_append.1 hd with hd | hd
    · obtain ⟨r, hr, rfl⟩ := List.mem_map.1 hd
      refine .rowRef ?_
      rcases hguards r hr with hr | hr
      · exact ha.range r (mem_rowRefs_of_optionalReads hr)
      · exact hb.range r (mem_rowRefs_of_optionalReads hr)
    · exact sides d hd

/-- The equality of the two sides is one of just these sides, and it stays that. -/
structure StayEqual (M : Model) (f : Forest) (op : BinaryOp) (a b : Expr) : Prop where
  left : a.Fixed M f
  right : b.Fixed M f
  single : (Operand.of f a).isCollection = false ∧ (Operand.of f b).isCollection = false
  same : comparedSides M f op a b = some (plainEquality M.settings f op a b)

namespace StayEqual

theorem of_not_refs (ha : a.Fixed M f) (hb : b.Fixed M f) (ra : a.isRef = false) (rb : b.isRef = false) :
    StayEqual M f op a b := by
  have plain {d : Expr} (h : d.isRef = false) : Operand.of f d = .null ∨ Operand.of f d = .other := by
    rw [Operand.of_not_ref h]
    split
    · exact .inl rfl
    · exact .inr rfl
  rcases plain ra with hx | hx <;> rcases plain rb with hy | hy <;>
    exact ⟨ha, hb, by simp [hx, hy, Operand.isCollection], by rw [comparedSides, hx, hy]⟩

theorem compares (h : StayEqual M f op a b) (hf : f.Linked M.catalog) (hq : f.Steady M.catalog q.forest) :
    Runs (compareSides op a b) M q (plainEquality M.settings f op a b) q := by
  have ha := Operand.of_steady hq h.left.bound.range
  have hb := Operand.of_steady hq h.right.bound.range
  refine Runs.comparedSides_iff.2 ⟨?_, Progress.compared_single (ha ▸ h.single.1) (hb ▸ h.single.2)⟩
  rw [comparedSides_steady hq hf h.left.bound.range h.right.bound.range h.single.1 h.single.2, h.same]

theorem fixed (h : StayEqual M f op a b) (hf : f.Linked M.catalog) :
    (plainEquality M.settings f op a b).Fixed M f := by
  have bound := h.left.bound.plainEquality h.right.bound M.settings op
  have sides : ∀ d ∈ [a, b], d.Fixed M f :=
    List.forall_mem_cons.2 ⟨h.left, List.forall_mem_singleton.2 h.right⟩
  rcases plainEquality_cases M.settings f op a b with heq | ⟨guards, heq, -⟩
  · cases hequality : op.isEquality with
    | false =>
      rw [heq] at bound ⊢
      exact .of_parts bound (by rw [sides?_binary, hequality]; rfl) sides
    | true =>
      refine ⟨bound, fun {q} hq => ?_⟩
      have again := h.compares hf hq
      rw [heq] at again ⊢
      refine Runs.compareByKeys_sides (by rw [sides?_binary, hequality]; rfl) (h.left.compares hq)
        (h.right.compares hq) again
  · rw [heq] at bound ⊢
    refine .of_parts bound rfl fun d hd => ?_
    rcases List.mem_append.1 hd with hd | hd
    · obtain ⟨r, hr, rfl⟩ := List.mem_map.1 hd
      exact .rowRef (bound.range r (mem_rowRefs_of_child (List.mem_append_left _ (List.mem_map_of_mem hr))
        (mem_rowRefs.2 (self_mem_nodes _))))
    · exact sides d hd

end StayEqual

theorem Operand.single_of_areFinal {x y : Operand} (h : Operand.areFinal M f op x y = true) :
    x.isCollection = false ∧ y.isCollection = false := by
  cases x <;> cases y <;> first | exact ⟨rfl, rfl⟩ | cases h

/-- An equality that is compared for good becomes the same in any later state. -/
theorem Runs.compareSides_steady (h : comparedSides M f op a b = some d) (hf : f.Linked M.catalog)
    (ha : a.Bound M f) (hb : b.Bound M f) (final : Operand.areFinal M f op (.of f a) (.of f b) = true)
    (hq : f.Steady M.catalog q.forest) : Runs (compareSides op a b) M q d q := by
  obtain ⟨single, single'⟩ := Operand.single_of_areFinal final
  refine Runs.comparedSides_iff.2 ⟨?_, Progress.compared_single ?_ ?_⟩
  · rw [comparedSides_steady hq hf ha.range hb.range single single', h]
  · rwa [Operand.of_steady hq ha.range]
  · rwa [Operand.of_steady hq hb.range]

/-- No row that can be missing is compared. -/
def Operand.arePresent (f : Forest) : Operand → Operand → Bool
  | .entity x, .entity y => !(f.node x).isOptional && !(f.node y).isOptional
  | .entity n, .null | .null, .entity n => !(f.node n).isOptional
  | _, _ => true

/-- A key stays as it is, names no parameter and is not a row itself. Of the rows that are not there for sure it
reads none if the node is there. -/
structure KeyOf (M : Model) (f : Forest) (n : NodeId) (k : Expr) : Prop where
  fixed : k.Fixed M f
  isRef : k.isRef = false
  names : ∀ y, y ∉ k.names
  reads : (f.node n).isOptional = false → optionalReads f k = []

theorem KeyOf.key {parts : List Expr} (h : ∀ d ∈ parts, KeyOf M f n d) : KeyOf M f n (.key parts) where
  fixed := .key fun d hd => (h d hd).fixed
  isRef := by
    match parts with
    | [] | _ :: _ :: _ => rfl
    | [part] => exact (h part (.head _)).isRef
  names y hy := by
    have tuple (hy : y ∈ (Expr.tuple parts).names) : False := by
      rcases mem_names_iff.1 hy with hy | ⟨d, hd, hy⟩
      · cases hy
      · exact (h d hd).names y hy
    match parts with
    | [] | _ :: _ :: _ => exact tuple hy
    | [part] => exact (h part (.head _)).names y hy
  reads hn := by
    rw [optionalReads_key, List.flatMap_eq_nil_iff]
    exact fun d hd => (h d hd).reads hn

theorem KeyOf.column {key : List Property} {k : Property} (known : (f.node n).entity.isSome = true)
    (hkey : keyOf? M.catalog f n = some key) (plain : hasPlainKey M.catalog f n = true) (hk : k ∈ key)
    (widened : Bool) : KeyOf M f n (EntityQuery.keyColumn f n widened k) where
  fixed := .keyColumn known hkey plain hk widened
  isRef := by cases widened <;> rfl
  names y hy := by cases widened <;> simp [keyColumn, Forest.ref, Expr.names, Expr.nodes, ownNames] at hy
  reads hn := by
    rw [optionalReads_keyColumn, hn]
    rfl

theorem KeyOf.null (t : ScalarType) : KeyOf M f n (.typedNull t) where
  fixed := .convert (.const .null)
  isRef := rfl
  names y hy := by simp [typedNull, Expr.null, Expr.names, Expr.nodes, ownNames] at hy
  reads _ := rfl

theorem comparedRows_final {x y : NodeId} (h : comparedRows M f op x y = some d)
    (hx : (f.node x).entity.isSome = true) (hy : (f.node y).entity.isSome = true)
    (final : Operand.areFinal M f op (.entity x) (.entity y) = true) :
    d = EntityQuery.settled op false ∨
      ∃ a' b', d = plainEquality M.settings f op a' b' ∧ KeyOf M f x a' ∧ KeyOf M f y b' := by
  rw [comparedRows] at h
  split at h
  · cases h
    exact .inl rfl
  · next same =>
    have same := not_not.1 same
    obtain ⟨key, hkey, rfl⟩ := Option.map_eq_some_iff.1 h
    obtain ⟨plainX, plainY⟩ : hasPlainKey M.catalog f x = true ∧ hasPlainKey M.catalog f y = true := by
      simpa [Operand.areFinal, same] using final
    have hkey' : keyOf? M.catalog f y = some key := by
      rw [← hkey, keyOf?, keyOf?, same]
    refine .inr ⟨_, _, rfl, .key fun d hd => ?_, .key fun d hd => ?_⟩ <;>
      obtain ⟨k, hk, rfl⟩ := List.mem_map.1 hd
    · exact .column hx hkey plainX hk _
    · exact .column hy hkey' plainY hk _

theorem comparedNull_final (h : comparedNull M f op n = some d) (hn : (f.node n).entity.isSome = true)
    (final : Operand.areFinal M f op (.entity n) .null = true) :
    ∃ a' b', d = plainEquality M.settings f op a' b' ∧ KeyOf M f n a' ∧ KeyOf M f n b' := by
  obtain ⟨key, hkey, rfl⟩ := Option.map_eq_some_iff.1 h
  obtain ⟨plain, unguarded⟩ := Bool.and_eq_true_iff.1 final
  have left : KeyOf M f n (.key (key.map fun k => keyColumn f n (!k.nullable) k)) := by
    refine .key fun d hd => ?_
    obtain ⟨k, hk, rfl⟩ := List.mem_map.1 hd
    exact .column hn hkey plain hk _
  have right : KeyOf M f n (.key (key.map fun k => .typedNull k.dataType)) := by
    refine .key fun d hd => ?_
    obtain ⟨k, -, rfl⟩ := List.mem_map.1 hd
    exact .null _
  refine ⟨_, _, (plainEquality_of_no_reads fun hop hsafe => ?_).symm, left, right⟩
  have present : (f.node n).isOptional = false := by simpa [hop, hsafe] using unguarded
  exact ⟨left.reads present, right.reads present⟩

/-- The equality of the first two sides is compared as one of the other two, and stays that. These name only what
the first ones name, and read no row that can be missing unless the first ones do or are such rows. -/
structure ComparesAs (M : Model) (f : Forest) (op : BinaryOp) (a b a' b' : Expr) : Prop
    extends StayEqual M f op a' b' where
  names : ∀ y, y ∈ a'.names ∨ y ∈ b'.names → y ∈ a.names ∨ y ∈ b.names
  reads : Operand.arePresent f (.of f a) (.of f b) = true → optionalReads f a = [] → optionalReads f b = [] →
    optionalReads f a' = [] ∧ optionalReads f b' = []

theorem ComparesAs.keys {x y : NodeId} {a' b' : Expr} (ha : KeyOf M f x a') (hb : KeyOf M f y b')
    (present : Operand.arePresent f (.of f a) (.of f b) = true →
      (f.node x).isOptional = false ∧ (f.node y).isOptional = false) : ComparesAs M f op a b a' b' where
  toStayEqual := .of_not_refs ha.fixed hb.fixed ha.isRef hb.isRef
  names z hz := (hz.elim (ha.names z) (hb.names z)).elim
  reads hp _ _ := ⟨ha.reads (present hp).1, hb.reads (present hp).2⟩

/-- What becomes of an equality: that no row is equal to one of another entity, or an equality of two sides. -/
theorem comparedSides_final (h : comparedSides M f op a b = some d) (ha : a.Fixed M f) (hb : b.Fixed M f)
    (final : Operand.areFinal M f op (.of f a) (.of f b) = true) : d = EntityQuery.settled op false ∨
      ∃ a' b', d = plainEquality M.settings f op a' b' ∧ ComparesAs M f op a b a' b' := by
  have hd := h
  have sides (single : (Operand.of f a).isCollection = false ∧ (Operand.of f b).isCollection = false)
      (heq : d = plainEquality M.settings f op a b) :
      d = EntityQuery.settled op false ∨
        ∃ a' b', d = plainEquality M.settings f op a' b' ∧ ComparesAs M f op a b a' b' :=
    .inr ⟨a, b, heq, ⟨ha, hb, single, heq ▸ hd⟩, fun _ => id, fun _ => And.intro⟩
  have null {n : NodeId} (h : comparedNull M f op n = some d) (known : (f.node n).entity.isSome = true)
      (final : Operand.areFinal M f op (.entity n) .null = true)
      (present : Operand.arePresent f (.of f a) (.of f b) = true → (f.node n).isOptional = false) :
      d = EntityQuery.settled op false ∨
        ∃ a' b', d = plainEquality M.settings f op a' b' ∧ ComparesAs M f op a b a' b' := by
    obtain ⟨a', b', rfl, ha', hb'⟩ := comparedNull_final h known final
    exact .inr ⟨a', b', rfl, .keys ha' hb' fun hp => ⟨present hp, present hp⟩⟩
  rw [comparedSides] at h
  cases hx : Operand.of f a with
  | collection _ => rw [hx] at final; cases final
  | entity x =>
    cases hy : Operand.of f b with
    | collection _ => rw [hx, hy] at final; cases final
    | entity y =>
      rw [hx, hy] at h final
      obtain rfl | ⟨a', b', rfl, ha', hb'⟩ := comparedRows_final h (Operand.known_of_entity hx)
        (Operand.known_of_entity hy) final
      · exact .inl rfl
      · refine .inr ⟨a', b', rfl, .keys ha' hb' fun hp => ?_⟩
        simpa [hx, hy, Operand.arePresent] using hp
    | null =>
      rw [hx, hy] at h final
      exact null h (Operand.known_of_entity hx) final fun hp => by simpa [hx, hy, Operand.arePresent] using hp
    | other =>
      rw [hx, hy] at h
      exact sides (by simp [hx, hy, Operand.isCollection]) (Option.some.inj h).symm
  | null =>
    cases hy : Operand.of f b with
    | collection _ => rw [hx, hy] at final; cases final
    | entity y =>
      rw [hx, hy] at h final
      exact null h (Operand.known_of_entity hy) final fun hp => by simpa [hx, hy, Operand.arePresent] using hp
    | null | other =>
      rw [hx, hy] at h
      exact sides (by simp [hx, hy, Operand.isCollection]) (Option.some.inj h).symm
  | other =>
    cases hy : Operand.of f b with
    | collection _ => rw [hx, hy] at final; cases final
    | _ =>
      rw [hx, hy] at h
      exact sides (by simp [hx, hy, Operand.isCollection]) (Option.some.inj h).symm

end Finality

end EntityQuery
