import EntityQuery.Proofs.Finality
import EntityQuery.Proofs.Lockstep

/-!
# The numbering of nodes

Nodes are numbered in the order in which they are added, so that rows can have other numbers in another forest.
Twins are nodes of two forests that stand for the same rows: what is said of them is the same, and so are, one by
one, the nodes above them (`Twins`). Two expressions over the two forests are the same but for the numbers if
their references are to twins (`Expr.Renumbered`). Comparing makes of these two expressions that are the same
but for the numbers, too (`compareByKeys_renumbered`).
-/

namespace EntityQuery

open EntityQuery.Expr EntityQuery.Forest

variable {M : Model} {p q : Progress} {e e' d a b a' b' : Expr} {f g : Forest} {c : Catalog} {n m x y x' y' : NodeId}
  {op : BinaryOp}

section Renumbering

/-- The two expressions are the same but for their references, which are related. -/
inductive Expr.Renumbered (R : RowRef → RowRef → Prop) : Expr → Expr → Prop where
  | row {r r' : RowRef} (h : R r r') : Renumbered R (.rowRef r) (.rowRef r')
  | head {e d : Expr} (h : SameHead (fun _ _ => True) e d) (plain : e.isRef = false)
    (parts : ∀ c ∈ e.children.zip d.children, Renumbered R c.1 c.2) : Renumbered R e d

namespace Expr.Renumbered

variable {R S : RowRef → RowRef → Prop}

theorem of_head (h : SameHead (Renumbered R) e d) (plain : e.isRef = false) : Renumbered R e d :=
  .head (h.mono fun _ _ _ => trivial) plain fun _ hc => List.forall₂_zip h.parts hc

theorem cases (h : Renumbered R e d) : (∃ r r', e = .rowRef r ∧ d = .rowRef r' ∧ R r r') ∨
    e.isRef = false ∧ SameHead (Renumbered R) e d := by
  cases h with
  | row h => exact .inl ⟨_, _, rfl, rfl, h⟩
  | head h plain parts =>
    exact .inr ⟨plain, h.of_zip parts⟩

theorem mono (h : Renumbered R e d) (k : ∀ r r', R r r' → S r r') : Renumbered S e d := by
  induction h with
  | row h => exact .row (k _ _ h)
  | head h plain _ ih => exact .head h plain ih

theorem refl (h : ∀ r ∈ e.rowRefs, R r r) : Renumbered R e e := by
  induction e using children_induction with
  | step e ih =>
    cases hr : e.isRef with
    | true =>
      obtain ⟨r, rfl⟩ := isRef_iff.1 hr
      exact .row (h r (mem_rowRefs.2 (self_mem_nodes _)))
    | false =>
      exact of_head (SameHead.refl_of e fun c hc => ih c hc fun r hr => h r (mem_rowRefs_of_child hc hr)) hr

theorem comp {T : RowRef → RowRef → Prop} (h : Renumbered R e d) (k : Renumbered S d e')
    (trans : ∀ r₁ r₂ r₃, R r₁ r₂ → S r₂ r₃ → T r₁ r₃) : Renumbered T e e' := by
  induction e using children_induction generalizing d e' with
  | step e ih =>
    obtain ⟨r, r', rfl, rfl, hr⟩ | ⟨plain, head⟩ := h.cases
    · obtain ⟨_, _, ⟨⟩, rfl, hr'⟩ | ⟨⟨⟩, -⟩ := k.cases
      exact .row (trans _ _ _ hr hr')
    · obtain ⟨r, _, rfl, -, -⟩ | ⟨-, head'⟩ := k.cases
      · rw [← head.isRef] at plain
        cases plain
      have head := head.on_children
      exact of_head (head.comp head' fun _ _ _ h k => ih _ h.1 h.2 k) plain

theorem isRef (h : Renumbered R e d) : d.isRef = e.isRef := by
  obtain ⟨_, _, rfl, rfl, -⟩ | ⟨-, head⟩ := h.cases
  · rfl
  · exact head.isRef

theorem isNull (h : Renumbered R e d) : d.isNull = e.isNull := by
  induction e using children_induction generalizing d with
  | step e ih =>
    obtain ⟨_, _, rfl, rfl, -⟩ | ⟨-, head⟩ := h.cases
    · rfl
    · cases head with
      | @convert operand _ _ _ hc =>
        have same := ih operand (.head _) hc
        exact same
      | _ => rfl

theorem binary (op : BinaryOp) (ha : Renumbered R a a') (hb : Renumbered R b b') :
    Renumbered R (.binary op a b) (.binary op a' b') := of_head (.binary op ha hb) rfl

theorem member (h : Renumbered R e d) (name : String) : Renumbered R (.member e name) (.member d name) :=
  of_head (.member name h) rfl

theorem const (value : Literal) : Renumbered R (.const value) (.const value) := of_head (.const value) rfl

theorem convert (t : ScalarType) (nullable : Bool) (h : Renumbered R e d) :
    Renumbered R (.convert e t nullable) (.convert d t nullable) := of_head (.convert t nullable h) rfl

theorem key {parts parts' : List Expr} (h : List.Forall₂ (Renumbered R) parts parts') :
    Renumbered R (.key parts) (.key parts') := by
  cases h with
  | nil => exact of_head (.tuple .nil) rfl
  | cons ha h =>
    cases h with
    | nil => exact ha
    | cons hb h => exact of_head (.tuple (.cons ha (.cons hb h))) rfl

end Expr.Renumbered

end Renumbering

section Twins

/-- The nodes stand for the same rows, wherever they are in their forests. -/
structure Node.Twin (x y : Node) : Prop where
  source : y.source = x.source
  edge : y.edge = x.edge
  entity : y.entity = x.entity
  field : y.field = x.field
  isOptional : y.isOptional = x.isOptional

/-- Related nodes are twins, with all that is above them, and no node has two twins. -/
structure Twins (f g : Forest) (R : NodeId → NodeId → Prop) : Prop where
  range : ∀ {n m}, R n m → n.index < f.size ∧ m.index < g.size
  node : ∀ {n m}, R n m → (f.node n).Twin (g.node m)
  parent : ∀ {n m}, R n m → (f.node n).parent = none ∧ (g.node m).parent = none ∨
    ∃ q q', (f.node n).parent = some q ∧ (g.node m).parent = some q' ∧ R q q'
  unique : ∀ {n m n' m'}, R n m → R n' m' → (n = n' ↔ m = m')

/-- References to twins. -/
def SameRows (R : NodeId → NodeId → Prop) (r r' : RowRef) : Prop :=
  r'.source = r.source ∧ r'.path = r.path ∧ R r.node r'.node

namespace Twins

variable {R : NodeId → NodeId → Prop} {f' g' : Forest}

theorem isCollection (h : Twins f g R) (hn : R n m) : (g.node m).isCollection = (f.node n).isCollection := by
  rw [Node.isCollection, Node.isCollection, (h.node hn).edge]

theorem step? (h : Twins f g R) (hn : R n m) : (g.node m).step? = (f.node n).step? := by
  rw [Node.step?, Node.step?, (h.node hn).edge, (h.node hn).field]

theorem lineage (h : Twins f g R) (hf : f.Linked c) (hg : g.Linked c) (hn : R n m) :
    List.Forall₂ R (f.lineage n) (g.lineage m) := by
  obtain ⟨i⟩ := n
  induction i using Nat.strongRecOn generalizing m with
  | _ i ih =>
    rcases h.parent hn with ⟨hp, hp'⟩ | ⟨q, q', hp, hp', hq⟩
    · rw [lineage_top hp, lineage_top hp']
      exact .cons hn .nil
    · rw [lineage_child hp (hf.link hp).1, lineage_child hp' (hg.link hp').1]
      exact .cons hn (ih q.index (hf.link hp).1 hq)

theorem depth (h : Twins f g R) (hf : f.Linked c) (hg : g.Linked c) (hn : R n m) : g.depth m = f.depth n := by
  rw [Forest.depth, Forest.depth, (h.lineage hf hg hn).length_eq]

theorem memberPath (h : Twins f g R) (hf : f.Linked c) (hg : g.Linked c) (hn : R n m) :
    g.memberPath m = f.memberPath n := by
  have steps {l l' : List NodeId} (hl : List.Forall₂ R l l') :
      l'.filterMap (fun k => (g.node k).step?) = l.filterMap fun k => (f.node k).step? := by
    induction hl with
    | nil => rfl
    | cons hk _ ih => rw [List.filterMap_cons, List.filterMap_cons, h.step? hk, ih]
  rw [Forest.memberPath, Forest.memberPath, steps (h.lineage hf hg hn)]

theorem ref (h : Twins f g R) (hf : f.Linked c) (hg : g.Linked c) (hn : R n m) :
    Renumbered (SameRows R) (f.ref n) (g.ref m) :=
  .row ⟨(h.node hn).source, h.memberPath hf hg hn, hn⟩

theorem steady (h : Twins f g R) (hf : f.Steady c f') (hg : g.Steady c g') : Twins f' g' R where
  range hn := ⟨Nat.lt_of_lt_of_le (h.range hn).1 hf.keeps.size, Nat.lt_of_lt_of_le (h.range hn).2 hg.keeps.size⟩
  node {n m} hn := by
    obtain ⟨rf, rg⟩ := h.range hn
    have twin := h.node hn
    have stays := hf.keeps.node rf
    have stays' := hg.keeps.node rg
    exact ⟨stays'.source.trans (twin.source.trans stays.source.symm),
      stays'.edge.trans (twin.edge.trans stays.edge.symm),
      stays'.entity.trans (twin.entity.trans stays.entity.symm),
      stays'.field.trans (twin.field.trans stays.field.symm),
      (hg.lasts rg).isOptional.trans (twin.isOptional.trans (hf.lasts rf).isOptional.symm)⟩
  parent hn := by
    obtain ⟨rf, rg⟩ := h.range hn
    rw [(hf.keeps.node rf).parent, (hg.keeps.node rg).parent]
    exact h.parent hn
  unique := h.unique

end Twins

end Twins

section Comparing

variable {R : NodeId → NodeId → Prop} (h : Twins f g R)

include h

theorem optionalReads_twins (he : Renumbered (SameRows R) e d) :
    List.Forall₂ (SameRows R) (optionalReads f e) (optionalReads g d) := by
  induction e using children_induction generalizing d with
  | step e ih =>
    obtain ⟨r, r', rfl, rfl, -⟩ | ⟨-, head⟩ := he.cases
    · rw [optionalReads_of_parts (by simp) (by simp) (by simp), optionalReads_of_parts (by simp) (by simp) (by simp)]
      exact .nil
    have head := head.on_children
    rcases optionalReads_cases head fun hc => hc.2.isRef with ⟨r, r', name, rfl, rfl, -, hr⟩ | nothing | parts
    · obtain ⟨_, _, ⟨⟩, ⟨⟩, hr⟩ | ⟨⟨⟩, -⟩ := hr.cases
      rw [optionalReads_member, optionalReads_member, (h.node hr.2.2).isOptional]
      split
      · exact .cons hr .nil
      · exact .nil
    · rw [(nothing f).1, (nothing g).2]
      exact .nil
    · rw [(parts f).1, (parts g).2]
      have reads := head.parts.imp fun c c' hc => ih c hc.1 hc.2
      generalize e.children = cs at reads
      generalize d.children = cs' at reads
      induction reads with
      | nil => exact .nil
      | cons hc _ ih => exact List.rel_append hc ih

theorem distinctNodes_twins {l l' : List RowRef} (hl : List.Forall₂ (SameRows R) l l') :
    List.Forall₂ (SameRows R) (distinctNodes l) (distinctNodes l') := by
  have seen {r r' : RowRef} (hr : SameRows R r r') {l l' : List RowRef} (hl : List.Forall₂ (SameRows R) l l') :
      l'.any (·.node == r'.node) = l.any (·.node == r.node) := by
    induction hl with
    | nil => rfl
    | cons hs _ ih =>
      rw [List.any_cons, List.any_cons, ih]
      congr 1
      rw [Bool.eq_iff_iff, beq_iff_eq, beq_iff_eq]
      exact (h.unique hs.2.2 hr.2.2).symm
  suffices ∀ {s s'}, List.Forall₂ (SameRows R) s s' → List.Forall₂ (SameRows R)
      (l.foldl (fun seen r => if seen.any (·.node == r.node) then seen else seen ++ [r]) s)
      (l'.foldl (fun seen r => if seen.any (·.node == r.node) then seen else seen ++ [r]) s') from this .nil
  induction hl with
  | nil => exact id
  | cons hr _ ih =>
    intro s s' hs
    refine ih ?_
    dsimp only
    rw [seen hr hs]
    split
    · exact hs
    · exact List.rel_append hs (.cons hr .nil)

/-- An equality is guarded by twins. -/
theorem plainEquality_twins (ha : Renumbered (SameRows R) a a') (hb : Renumbered (SameRows R) b b') (s : Settings) :
    Renumbered (SameRows R) (plainEquality s f op a b) (plainEquality s g op a' b') := by
  have guards := distinctNodes_twins h (List.rel_append (optionalReads_twins h ha) (optionalReads_twins h hb))
  unfold plainEquality guardedEquality
  split
  · cases hl : distinctNodes (optionalReads f a ++ optionalReads f b) with
    | nil =>
      rw [hl] at guards
      rw [List.forall₂_nil_left_iff.1 guards]
      exact .binary .equal ha hb
    | cons r l =>
      rw [hl] at guards
      cases hl' : distinctNodes (optionalReads g a' ++ optionalReads g b') with
      | nil => rw [hl'] at guards; cases guards
      | cons r' l' =>
        rw [hl'] at guards
        refine .of_head (.nullSafeEqual ?_ ha hb) rfl
        exact List.forall₂_map_left_iff.2 (List.forall₂_map_right_iff.2 (guards.imp fun _ _ => .row))
  · exact .binary op ha hb

variable (hf : f.Linked c) (hg : g.Linked c)

theorem keyOf?_twins (hn : R n m) : keyOf? c g m = keyOf? c f n := by
  rw [keyOf?, keyOf?, (h.node hn).entity]

include hf hg

theorem keyColumn_twins (hn : R n m) (widened : Bool) (k : Property) :
    Renumbered (SameRows R) (keyColumn f n widened k) (keyColumn g m widened k) := by
  have column := (h.ref hf hg hn).member k.name
  cases widened with
  | false => exact column
  | true => exact column.convert k.dataType true

theorem rowEquality_twins (hx : R x x') (hy : R y y') (s : Settings) (key : List Property) :
    Renumbered (SameRows R) (rowEquality s op f x y key) (rowEquality s op g x' y' key) := by
  have columns {n m : NodeId} (hn : R n m) (widened : Property → Bool) :
      Renumbered (SameRows R) (.key (key.map fun k => keyColumn f n (widened k) k))
        (.key (key.map fun k => keyColumn g m (widened k) k)) :=
    .key (List.forall₂_map_left_iff.2 (List.forall₂_map_right_iff.2
      (List.forall₂_same.2 fun k _ => keyColumn_twins h hf hg hn (widened k) k)))
  simp only [rowEquality, (h.node hx).isOptional, (h.node hy).isOptional]
  exact plainEquality_twins h (columns hx _) (columns hy _) s

theorem nullEquality_twins (hn : R n m) (key : List Property) :
    Renumbered (SameRows R) (nullEquality op f n key) (nullEquality op g m key) := by
  refine .binary op (.key ?_) (.key ?_) <;>
    refine List.forall₂_map_left_iff.2 (List.forall₂_map_right_iff.2 (List.forall₂_same.2 fun k _ => ?_))
  · exact keyColumn_twins h hf hg hn _ k
  · exact (Renumbered.const .null).convert k.dataType true

/-- Sides of an equality that are the same but for the numbers. -/
inductive Operand.Renumbered (R : NodeId → NodeId → Prop) : Operand → Operand → Prop where
  | entity {n m : NodeId} (h : R n m) : Renumbered R (.entity n) (.entity m)
  | collection {n m : NodeId} (h : R n m) : Renumbered R (.collection n) (.collection m)
  | null : Renumbered R .null .null
  | other : Renumbered R .other .other

omit hf hg in
theorem Operand.of_twins (he : e.Renumbered (SameRows R) d) : Operand.Renumbered R (.of f e) (.of g d) := by
  cases href : e.isRef with
  | true =>
    obtain ⟨r, r', rfl, rfl, -, -, hr⟩ | ⟨plain, -⟩ := he.cases
    · simp only [Operand.of, h.isCollection hr, (h.node hr).entity]
      split
      · exact .collection hr
      · split
        · exact .entity hr
        · exact .other
    · rw [plain] at href
      cases href
  | false =>
    rw [Operand.of_not_ref href, Operand.of_not_ref (he.isRef.trans href), he.isNull]
    split
    · exact .null
    · exact .other

theorem comparedRows_twins (hx : R x x') (hy : R y y') :
    Option.Rel (Renumbered (SameRows R)) (comparedRows M f op x y) (comparedRows M g op x' y') := by
  rw [comparedRows, comparedRows, (h.node hx).entity, (h.node hy).entity, keyOf?_twins h hx]
  split
  · exact .some (.const _)
  · cases keyOf? M.catalog f x with
    | none => exact .none
    | some key => exact .some (rowEquality_twins h hf hg hx hy M.settings key)

theorem comparedNull_twins (hn : R n m) :
    Option.Rel (Renumbered (SameRows R)) (comparedNull M f op n) (comparedNull M g op m) := by
  rw [comparedNull, comparedNull, keyOf?_twins h hn]
  cases keyOf? M.catalog f n with
  | none => exact .none
  | some key => exact .some (nullEquality_twins h hf hg hn key)

omit hf hg in
theorem sameNavigation_twins (hx : R x x') (hy : R y y') : sameNavigation g x' y' = sameNavigation f x y := by
  have owner {n m : NodeId} (hn : R n m) : ((g.node m).parent.map fun q => (g.node q).entity) =
      (f.node n).parent.map fun q => (f.node q).entity := by
    rcases h.parent hn with ⟨hp, hp'⟩ | ⟨q, q', hp, hp', hq⟩ <;> rw [hp, hp']
    · rfl
    · rw [Option.map_some, Option.map_some, (h.node hq).entity]
  simp only [sameNavigation, (h.node hx).edge, (h.node hy).edge, owner hx, owner hy]

theorem comparedCollections_twins (hx : R x x') (hy : R y y') :
    Option.Rel (Renumbered (SameRows R)) (comparedCollections M f op x y) (comparedCollections M g op x' y') := by
  have apart : Option.Rel (Renumbered (SameRows R)) (some (settled op false)) (some (settled op false)) :=
    .some (.const _)
  rw [comparedCollections, comparedCollections, sameNavigation_twins h hx hy]
  rcases h.parent hx with ⟨px, px'⟩ | ⟨n, n', px, px', hn⟩ <;> rw [px, px']
  · exact apart
  · rcases h.parent hy with ⟨py, py'⟩ | ⟨m, m', py, py', hm⟩ <;> rw [py, py'] <;> dsimp only
    · exact apart
    · split
      · exact comparedRows_twins h hf hg hn hm
      · exact apart

theorem comparedCollectionNull_twins (hn : R n m) : Option.Rel (Renumbered (SameRows R))
    (comparedCollectionNull M f op n) (comparedCollectionNull M g op m) := by
  rw [comparedCollectionNull, comparedCollectionNull]
  rcases h.parent hn with ⟨hp, hp'⟩ | ⟨q, q', hp, hp', hq⟩ <;> rw [hp, hp']
  · exact .some (.const _)
  · exact comparedNull_twins h hf hg hq

/-- Equalities of sides that are the same but for the numbers become the same but for the numbers. -/
theorem comparedSides_twins (ha : Renumbered (SameRows R) a a') (hb : Renumbered (SameRows R) b b') :
    Option.Rel (Renumbered (SameRows R)) (comparedSides M f op a b) (comparedSides M g op a' b') := by
  have plain : Option.Rel (Renumbered (SameRows R)) (some (plainEquality M.settings f op a b))
      (some (plainEquality M.settings g op a' b')) := .some (plainEquality_twins h ha hb M.settings)
  have left := Operand.of_twins h ha
  have right := Operand.of_twins h hb
  rw [comparedSides, comparedSides]
  generalize Operand.of f a = x at left ⊢
  generalize Operand.of g a' = x' at left ⊢
  generalize Operand.of f b = y at right ⊢
  generalize Operand.of g b' = y' at right ⊢
  cases left with
  | collection hx =>
    cases right with
    | collection hy => exact comparedCollections_twins h hf hg hx hy
    | null => exact comparedCollectionNull_twins h hf hg hx
    | entity | other => exact .none
  | entity hx =>
    cases right with
    | collection => exact .none
    | entity hy => exact comparedRows_twins h hf hg hx hy
    | null => exact comparedNull_twins h hf hg hx
    | other => exact plain
  | null =>
    cases right with
    | collection hy => exact comparedCollectionNull_twins h hf hg hy
    | entity hy => exact comparedNull_twins h hf hg hy
    | null | other => exact plain
  | other =>
    cases right with
    | collection => exact .none
    | _ => exact plain

end Comparing

section Running

/-- Two runs from different forests, each of which leaves the nodes that are there as they are. -/
def Course.steady (c : Catalog) (f g : Forest) : Course where
  together p q := f.Steady c p.forest ∧ g.Steady c q.forest
  after _ _ := True
  refl _ := trivial
  trans _ _ := trivial

variable {R : NodeId → NodeId → Prop}

theorem compareSides_renumbered (h : Twins p.forest q.forest R) (here : (Course.steady M.catalog f g).together p q)
    (ha : Renumbered (SameRows R) a a') (hb : Renumbered (SameRows R) b b') :
    Alongside M (.steady M.catalog f g) (fun _ _ => Renumbered (SameRows R)) p q (compareSides op a b)
      (compareSides op a' b') where
  run {e p'} hrun := by
    obtain ⟨made, -⟩ := Runs.comparedSides_iff.1 hrun
    have related : Option.Rel (Renumbered (SameRows R)) (comparedSides M p.forest op a b)
        (comparedSides M q.forest op a' b') := comparedSides_twins h here.1.linked here.2.linked ha hb
    rw [made] at related
    cases hd : comparedSides M q.forest op a' b' with
    | none => rw [hd] at related; cases related
    | some d =>
      rw [hd] at related
      cases related with
      | some same =>
        have hrun' : Runs (compareSides op a' b') M q d (q.compared a' b') := Runs.comparedSides_iff.2 ⟨hd, rfl⟩
        exact ⟨d, _, hrun', ⟨here.1.trans (compareSides_steady hrun here.1.linked),
          here.2.trans (compareSides_steady hrun' here.2.linked)⟩, trivial, trivial, same⟩

/-- Comparing makes the same but for the numbers of what is the same but for the numbers. -/
theorem compareByKeys_renumbered (h : Twins f g R) (here : (Course.steady M.catalog f g).together p q)
    (he : Renumbered (SameRows R) e d) : Alongside M (.steady M.catalog f g) (fun _ _ => Renumbered (SameRows R)) p q
      (compareByKeys e) (compareByKeys d) := by
  induction e using children_induction generalizing d p q with
  | step e ih =>
    rw [compareByKeys_eq, compareByKeys_eq]
    obtain ⟨r, r', rfl, rfl, -⟩ | ⟨plain, head⟩ := he.cases
    · exact .pure here he
    have head := head.on_children
    have parts : Alongside M (.steady M.catalog f g) (fun _ _ => SameHead (Renumbered (SameRows R))) p q
        (e.mapChildren compareByKeys) (d.mapChildren compareByKeys) :=
      .mapChildren (R := fun _ _ c c' => c ∈ e.children ∧ Renumbered (SameRows R) c c') (fun _ _ => id)
        (fun _ _ => id) (fun hc here => ih _ hc.1 here hc.2) head here
    refine parts.bind fun hrun _ here _ _ same => ?_
    rw [compareNode, compareNode]
    rcases same.sides? with ⟨hs, hs'⟩ | ⟨op, a, b, a', b', hs, hs', ha, hb⟩ <;> rw [hs, hs']
    · -- What is rebuilt has the head of what was there, which is no reference.
      exact .pure here (.of_head same ((Runs.mapChildren_sameHead hrun).isRef.trans plain))
    · exact compareSides_renumbered (h.steady here.1 here.2) here ha hb

end Running

end EntityQuery
