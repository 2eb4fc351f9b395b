import EntityQuery.Proofs.Finality

/-!
# Guard sets

With null-safe equality, comparing guards each equality by all rows that it reads and that can be missing, on
either side, whatever the sides are and however deep they are nested (`compareByKeys_fullyGuarded`). The only
equality that reads such a row and has no guard is that of a key with nulls. Sides that are bound hold no guarded
equality unless they did before, so nothing has been guarded by less than that.
-/

namespace EntityQuery

open EntityQuery.Expr EntityQuery.Forest

variable {M : Model} {p p' q : Progress} {e e' d a b : Expr} {f g : Forest} {c : Catalog} {s : Settings} {op : BinaryOp}

section Unguarded

def Expr.isNullSafe : Expr → Bool
  | .nullSafeEqual .. => true
  | _ => false

/-- No equality of the expression is guarded yet. -/
def Expr.Unguarded (e : Expr) : Prop := ∀ d ∈ e.nodes, d.isNullSafe = false

instance (e : Expr) : Decidable e.Unguarded := inferInstanceAs (Decidable (∀ d ∈ e.nodes, _))

theorem Expr.unguarded_iff : e.Unguarded ↔ e.isNullSafe = false ∧ ∀ d ∈ e.children, d.Unguarded :=
  forall_nodes_iff

theorem Expr.Unguarded.of_sameHead (h : SameHead (fun c c' => c.Unguarded → c'.Unguarded) e d) (he : e.Unguarded) :
    d.Unguarded := by
  obtain ⟨own, parts⟩ := unguarded_iff.1 he
  refine unguarded_iff.2 ⟨?_, fun c' hc' => ?_⟩
  · cases h <;> first | rfl | exact own
  · obtain ⟨c, hc, h⟩ := h.of_mem_children hc'
    exact h (parts c hc)

theorem Expr.unguarded_rowRef (r : RowRef) : (Expr.rowRef r).Unguarded :=
  unguarded_iff.2 ⟨rfl, by simp [children]⟩

theorem Expr.Unguarded.member {t : Expr} (h : t.Unguarded) (name : String) : (Expr.member t name).Unguarded :=
  unguarded_iff.2 ⟨rfl, by simpa [children] using h⟩

theorem bindMember_unguarded {t : Expr} {name : String} (h : Runs (bindMember t name) M p e p') (ht : t.Unguarded) :
    e.Unguarded := by
  unfold bindMember at h
  split at h
  · next fields =>
    obtain ⟨rfl, -⟩ := Runs.pure_iff.1 h
    cases hl : fields.lookup name with
    | none => exact ht.member name
    | some value =>
      obtain ⟨before, after, rfl, -⟩ := List.lookup_eq_some_iff.1 hl
      exact (unguarded_iff.1 ht).2 _ (by simp [children])
  · rcases Runs.bindRowMember_cases h with ⟨rfl, -, -⟩ | ⟨k, -, rfl, -⟩ | ⟨_, _, _, _, _, -, -, -, -, -, rfl⟩
    · exact ht.member name
    · exact unguarded_rowRef _
    · exact unguarded_rowRef _
  · obtain ⟨rfl, -⟩ := Runs.pure_iff.1 h
    exact ht.member name

theorem bind_unguarded (h : Runs (bind e) M p e' p') (he : e.Unguarded) : e'.Unguarded := by
  induction e using children_induction generalizing p e' p' with
  | step e ih =>
    rw [bind_eq, Runs.bind_iff] at h
    obtain ⟨d, q, hparts, h⟩ := h
    have hd : d.Unguarded := he.of_sameHead <| (Runs.mapChildren_sameHead hparts).mono fun c c' ran hc => by
      obtain ⟨part, _, _, hrun⟩ := ran
      exact ih c part hrun hc
    unfold bindNode at h
    split at h
    · exact bindMember_unguarded h ((unguarded_iff.1 hd).2 _ (.head _))
    · obtain ⟨rfl, -⟩ := Runs.pure_iff.1 h
      exact hd

theorem substitute_unguarded {x : String} (he : e.Unguarded) (hd : d.Unguarded) : (e.substitute x d).Unguarded := by
  intro b hb
  rcases mem_nodes_substitute hb with hb | ⟨c, hc, head⟩
  · exact hd b hb
  · rw [← he c hc]
    cases head <;> rfl

end Unguarded

section Guarding

/-- Under null-safe settings the node, if it is an equality, is guarded by all rows that it reads and that can be
missing, or it is the equality of a key with nulls. -/
structure Expr.GuardsReads (s : Settings) (f : Forest) (e : Expr) : Prop where
  guarded : ∀ guards a b, e = .nullSafeEqual guards a b → s.nullSafeEquality = true ∧
    guards = (distinctNodes (optionalReads f a ++ optionalReads f b)).map .rowRef
  plain : ∀ a b, e = .binary .equal a b → s.nullSafeEquality = true →
    optionalReads f a = [] ∧ optionalReads f b = [] ∨
      ∃ n key, n.index < f.size ∧ e = nullEquality .equal f n key

/-- Every equality of the expression is guarded by all rows that it reads and that can be missing, apart from those
of keys with nulls. -/
def Expr.FullyGuarded (s : Settings) (f : Forest) (e : Expr) : Prop := ∀ d ∈ e.nodes, d.GuardsReads s f

theorem Expr.fullyGuarded_iff : e.FullyGuarded s f ↔ e.GuardsReads s f ∧ ∀ d ∈ e.children, d.FullyGuarded s f :=
  forall_nodes_iff

theorem Expr.GuardsReads.steady (h : e.GuardsReads s f) (hg : f.Steady c g) (hf : f.Linked c)
    (range : ∀ r ∈ e.rowRefs, r.node.index < f.size) : e.GuardsReads s g := by
  have reads {d : Expr} (hd : d ∈ e.children) : optionalReads g d = optionalReads f d :=
    optionalReads_steady hg fun r hr => range r (mem_rowRefs_of_child hd hr)
  constructor
  · rintro guards a b rfl
    rw [reads (by simp [children] : a ∈ _), reads (by simp [children] : b ∈ _)]
    exact h.guarded guards a b rfl
  · rintro a b rfl safe
    rw [reads (by simp [children] : a ∈ _), reads (by simp [children] : b ∈ _)]
    refine (h.plain a b rfl safe).imp_right fun ⟨n, key, hn, heq⟩ => ⟨n, key, ?_, ?_⟩
    · exact Nat.lt_of_lt_of_le hn hg.keeps.size
    · rw [heq, nullEquality_agree (hg.agree hf hn)]

theorem Expr.FullyGuarded.steady (h : e.FullyGuarded s f) (hg : f.Steady c g) (hf : f.Linked c)
    (range : ∀ r ∈ e.rowRefs, r.node.index < f.size) : e.FullyGuarded s g := by
  induction e using children_induction with
  | step e ih =>
    obtain ⟨own, parts⟩ := fullyGuarded_iff.1 h
    exact fullyGuarded_iff.2 ⟨own.steady hg hf range, fun d hd =>
      ih d hd (parts d hd) fun r hr => range r (mem_rowRefs_of_child hd hr)⟩

theorem fullyGuarded_rowRef (r : RowRef) : (Expr.rowRef r).FullyGuarded s f :=
  fullyGuarded_iff.2 ⟨⟨by simp, by simp⟩, by simp [children]⟩

theorem fullyGuarded_plainEquality (ha : a.FullyGuarded s f) (hb : b.FullyGuarded s f) :
    (plainEquality s f op a b).FullyGuarded s f := by
  have sides : ∀ d ∈ [a, b], d.FullyGuarded s f :=
    List.forall_mem_cons.2 ⟨ha, List.forall_mem_singleton.2 hb⟩
  unfold plainEquality
  split
  · next hsafe =>
    obtain ⟨rfl, safe⟩ : op = .equal ∧ s.nullSafeEquality = true := by simpa using hsafe
    unfold guardedEquality
    split
    · next none =>
      refine fullyGuarded_iff.2 ⟨⟨by simp [eq], ?_⟩, sides⟩
      rintro a' b' ⟨⟩ -
      have nothing : optionalReads f a ++ optionalReads f b = [] := List.eq_nil_iff_forall_not_mem.2 fun r hr => by
        obtain ⟨r', hr', -⟩ := exists_distinctNodes hr
        rw [none] at hr'
        cases hr'
      exact .inl (List.append_eq_nil_iff.1 nothing)
    · refine fullyGuarded_iff.2 ⟨⟨?_, by simp⟩, fun d hd => ?_⟩
      · rintro _ a' b' ⟨⟩
        exact ⟨safe, rfl⟩
      · rcases List.mem_append.1 hd with hd | hd
        · obtain ⟨r, -, rfl⟩ := List.mem_map.1 hd
          exact fullyGuarded_rowRef r
        · exact sides d hd
  · next other =>
    refine fullyGuarded_iff.2 ⟨⟨by simp, ?_⟩, sides⟩
    rintro a' b' ⟨⟩ safe
    simp [safe] at other

/-- Keys hold no equalities. -/
theorem fullyGuarded_key {parts : List Expr} (h : ∀ d ∈ parts, d.FullyGuarded s f) :
    (Expr.key parts).FullyGuarded s f := by
  match parts with
  | [part] => exact h part (.head _)
  | [] | _ :: _ :: _ => exact fullyGuarded_iff.2 ⟨⟨by simp [key], by simp [key]⟩, h⟩

theorem fullyGuarded_convert {t : ScalarType} {nullable : Bool} (h : e.FullyGuarded s f) :
    (Expr.convert e t nullable).FullyGuarded s f :=
  fullyGuarded_iff.2 ⟨⟨by simp, by simp⟩, fun _ hd => List.mem_singleton.1 hd ▸ h⟩

theorem fullyGuarded_keyColumn (n : NodeId) (widened : Bool) (k : Property) :
    (keyColumn f n widened k).FullyGuarded s f := by
  have column : (Expr.member (f.ref n) k.name).FullyGuarded s f :=
    fullyGuarded_iff.2 ⟨⟨by simp, by simp⟩, fun _ hd => List.mem_singleton.1 hd ▸ fullyGuarded_rowRef _⟩
  cases widened with
  | false => exact column
  | true => exact fullyGuarded_convert column

theorem fullyGuarded_const (value : Literal) : (Expr.const value).FullyGuarded s f :=
  fullyGuarded_iff.2 ⟨⟨by simp, by simp⟩, by simp [children]⟩

theorem fullyGuarded_settled (op : BinaryOp) (equal : Bool) : (settled op equal).FullyGuarded s f :=
  fullyGuarded_const _

theorem comparedRows_fullyGuarded {x y : NodeId} (h : comparedRows M f op x y = some d) :
    d.FullyGuarded M.settings f := by
  rw [comparedRows] at h
  split at h
  · cases h
    exact fullyGuarded_settled op false
  · obtain ⟨key, -, rfl⟩ := Option.map_eq_some_iff.1 h
    refine fullyGuarded_plainEquality (fullyGuarded_key fun d hd => ?_) (fullyGuarded_key fun d hd => ?_) <;>
      obtain ⟨k, -, rfl⟩ := List.mem_map.1 hd <;> exact fullyGuarded_keyColumn _ _ k

theorem comparedNull_fullyGuarded {n : NodeId} (h : comparedNull M f op n = some d) (hn : n.index < f.size) :
    d.FullyGuarded M.settings f := by
  obtain ⟨key, -, rfl⟩ := Option.map_eq_some_iff.1 h
  refine fullyGuarded_iff.2 ⟨⟨by simp [nullEquality], ?_⟩, fun d hd => ?_⟩
  · intro a b heq _
    obtain rfl : op = .equal := (Expr.binary.inj heq).1
    exact .inr ⟨n, key, hn, rfl⟩
  · rcases List.mem_pair.1 hd with rfl | rfl <;> refine fullyGuarded_key fun d hd => ?_ <;>
      obtain ⟨k, -, rfl⟩ := List.mem_map.1 hd
    · exact fullyGuarded_keyColumn _ _ k
    · exact fullyGuarded_convert (fullyGuarded_const .null)

theorem comparedSides_fullyGuarded (hf : f.Linked M.catalog) (h : comparedSides M f op a b = some d)
    (ha : a.FullyGuarded M.settings f) (hb : b.FullyGuarded M.settings f) : d.FullyGuarded M.settings f := by
  have owner {k n : NodeId} (h : (f.node k).parent = some n) : n.index < f.size :=
    Nat.lt_trans (hf.link h).1 (range_of_parent h)
  have known {e : Expr} {n : NodeId} (h : Operand.of f e = .entity n) : n.index < f.size := by
    obtain ⟨_, known⟩ := Option.isSome_iff_exists.1 (Operand.known_of_entity h)
    exact Keeps.range_of_entity known
  have null {k : NodeId} (h : comparedCollectionNull M f op k = some d) : d.FullyGuarded M.settings f := by
    rw [comparedCollectionNull] at h
    split at h
    · next hn => exact comparedNull_fullyGuarded h (owner hn)
    · cases h
      exact fullyGuarded_settled op false
  rw [comparedSides] at h
  split at h
  · rw [comparedCollections] at h
    split at h
    · split at h
      · exact comparedRows_fullyGuarded h
      · cases h
        exact fullyGuarded_settled op false
    · cases h
      exact fullyGuarded_settled op false
  · exact null h
  · exact null h
  · cases h
  · cases h
  · exact comparedRows_fullyGuarded h
  · next hx _ => exact comparedNull_fullyGuarded h (known hx)
  · next _ hy => exact comparedNull_fullyGuarded h (known hy)
  · cases h
    exact fullyGuarded_plainEquality ha hb

end Guarding

section Comparing

/-- What is compared refers to rows that are there. -/
theorem compareSides_range (h : Runs (compareSides op a b) M p e p') (hp : p.forest.Linked M.catalog)
    (ha : ∀ r ∈ a.rowRefs, r.node.index < p.forest.size) (hb : ∀ r ∈ b.rowRefs, r.node.index < p.forest.size) :
    ∀ r ∈ e.rowRefs, r.node.index < p.forest.size := by
  have ref {r : RowRef} (h : r.node.index < p.forest.size) : ∀ r' ∈ (Expr.rowRef r).rowRefs,
      r'.node.index < p.forest.size := List.forall_mem_singleton.2 h
  have built : e.Over (fun d => ∀ r ∈ d.rowRefs, r.node.index < p.forest.size) ∧ _ :=
    compareSides_over h (.operand ha) (.operand hb) (fun d hd r hr => ref (hd r hr)) fun n compared => by
      obtain ⟨r, hr, hn⟩ := compared
      have hr : r.node.index < p.forest.size := hr.elim (ha r) (hb r)
      refine ref ?_
      rcases hn with rfl | hn
      · exact hr
      · exact Nat.lt_trans (hp.link hn).1 hr
  intro r hr
  obtain ⟨d, hd, hr⟩ := built.1.mem_rowRefs hr
  exact hd r hr

/-- Comparing guards every equality by all rows that it reads and that can be missing. -/
theorem compareByKeys_fullyGuarded (h : Runs (compareByKeys e) M p d p') (hp : p.forest.Linked M.catalog)
    (range : ∀ r ∈ e.rowRefs, r.node.index < p.forest.size) (he : e.Unguarded) :
    (∀ r ∈ d.rowRefs, r.node.index < p'.forest.size) ∧ d.FullyGuarded M.settings p'.forest := by
  induction e using children_induction generalizing p d p' with
  | step e ih =>
    rw [compareByKeys_eq, Runs.bind_iff] at h
    obtain ⟨e₁, q, hparts, h⟩ := h
    obtain ⟨own, unguarded⟩ := unguarded_iff.1 he
    obtain ⟨steady, head⟩ := Runs.mapChildren_within
      (fun p q => p.forest.Linked M.catalog → p.forest.Steady M.catalog q.forest) (fun _ => .refl)
      (fun h k hp => (h hp).trans (k (h hp).linked)) (fun _ _ _ _ _ _ => compareByKeys_steady) hparts
    have steady := steady hp
    have parts : ∀ c' ∈ e₁.children, (∀ r ∈ c'.rowRefs, r.node.index < q.forest.size) ∧
        c'.FullyGuarded M.settings q.forest := by
      intro c' hc'
      obtain ⟨c, -, hc, r, r', hr, hr', hrun⟩ := head.of_mem_children hc'
      have hr := hr hp
      obtain ⟨there, full⟩ := ih c hc hrun hr.linked
        (fun ref href => Nat.lt_of_lt_of_le (range ref (mem_rowRefs_of_child hc href)) hr.keeps.size)
        (unguarded c hc)
      have linked := (compareByKeys_steady hrun hr.linked).linked
      have hr' := hr' linked
      exact ⟨fun ref href => Nat.lt_of_lt_of_le (there ref href) hr'.keeps.size, full.steady hr' linked there⟩
    rw [compareNode] at h
    split at h
    · next op a b hs =>
      obtain ⟨ra, fa⟩ := parts a (children_of_sides? hs ▸ by simp)
      obtain ⟨rb, fb⟩ := parts b (children_of_sides? hs ▸ by simp)
      have there := compareSides_range h steady.linked ra rb
      have after := EntityQuery.compareSides_steady h steady.linked
      exact ⟨fun r hr => Nat.lt_of_lt_of_le (there r hr) after.keeps.size,
        (comparedSides_fullyGuarded steady.linked (Runs.comparedSides_iff.1 h).1 fa fb).steady after
          steady.linked there⟩
    · next hs =>
      obtain ⟨rfl, rfl⟩ := Runs.pure_iff.1 h
      refine ⟨fun r hr => ?_, fullyGuarded_iff.2 ⟨⟨?_, ?_⟩, fun c' hc' => (parts c' hc').2⟩⟩
      · rcases mem_rowRefs_iff.1 hr with rfl | ⟨c', hc', hr⟩
        · cases head
          exact Nat.lt_of_lt_of_le (range r (mem_rowRefs.2 (self_mem_nodes _))) steady.keeps.size
        · exact (parts c' hc').1 r hr
      · rintro guards a b rfl
        cases head
        cases own
      · rintro a b rfl
        cases hs

end Comparing

end EntityQuery
