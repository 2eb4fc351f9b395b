import EntityQuery.Proofs.Growth
import Mathlib.Data.Fintype.EquivFin

/-!
# Binding before and after a substitution

A body can be bound before a row is put for its parameter, and once more afterwards. What it then refers to are
the same rows as if it had been bound only once (`bind_substituted`), but they can be added to the forest in
another order, and fewer: when a field of a record expression is bound first, the other fields are gone. So the
second binding succeeds if the only one does, and makes the same but for the numbers.
-/

namespace EntityQuery

open EntityQuery.Expr EntityQuery.Forest

variable {M : Model} {p p' q s s₁ : Progress} {e e₁ d : Expr} {b f g : Forest} {c : Catalog} {n m k : NodeId}
  {name x : String} {r r' : RowRef}

section Places

theorem Forest.GrowsTo.fieldAt? (hb : b.Linked c) (hf : b.GrowsTo c f) :
    f.fieldAt? n name = b.fieldAt? n name := by
  rw [Forest.fieldAt?, Forest.fieldAt?]
  cases hold : b.child? n name with
  | some k => rw [hf.child hold, Option.filter_some, Option.filter_some, (hf.keeps.node (hb.of_child? hold).1).field]
  | none =>
    refine Option.filter_eq_none_iff.2 fun k hk => ?_
    cases hf.leads hk (hf.fresh hold hk) with
    | intro _ _ _ _ _ plain _ => simp [plain]

/-- A name leads to the same field of a record from the same place, if it leads to any. -/
theorem SamePlace.fieldAt? (hb : b.Linked c) (hf : b.GrowsTo c f) (hg : b.GrowsTo c g) (h : SamePlace b f g n m)
    (name : String) :
    g.fieldAt? m name = f.fieldAt? n name ∧ ∀ k, f.fieldAt? n name = some k → k.index < b.size := by
  cases h with
  | known _ =>
    rw [hf.fieldAt? hb, hg.fieldAt? hb]
    refine ⟨rfl, fun k hk => ?_⟩
    rw [Forest.fieldAt?, Option.filter_eq_some_iff] at hk
    exact (hb.of_child? hk.1).1
  | child _ hk hl new new' =>
    have entity {f : Forest} {n k : NodeId} {name : String} (hf : b.GrowsTo c f) (hk : f.child? n name = some k)
        (new : b.size ≤ k.index) (name' : String) : f.fieldAt? k name' = none := by
      cases hf.leads hk new with
      | intro _ _ _ _ known _ _ => exact hf.linked.fieldAt?_of_entity known name'
    rw [entity hf hk new, entity hg hl new']
    exact ⟨rfl, fun _ h => by cases h⟩

end Places

section Binding

/-- Two runs that make the forest grow. -/
def Course.grown (c : Catalog) (b : Forest) : Course where
  together p q := b.GrowsTo c p.forest ∧ b.GrowsTo c q.forest
  after p p' := ∀ {n name k}, p.forest.child? n name = some k → p'.forest.child? n name = some k
  refl _ := id
  trans h k := k ∘ h

/-- The expressions are the same but for the numbers of nodes that have been added to the first forest. -/
abbrev Expr.Regrown (b : Forest) (p q : Progress) : Expr → Expr → Prop :=
  Renumbered (SameRows (SamePlace b p.forest q.forest))

theorem Expr.Regrown.later {q' : Progress}
    (hp : ∀ {n name k}, p.forest.child? n name = some k → p'.forest.child? n name = some k)
    (hq : ∀ {n name k}, q.forest.child? n name = some k → q'.forest.child? n name = some k)
    (h : e.Regrown b p q d) : e.Regrown b p' q' d :=
  h.mono fun _ _ h => ⟨h.1, h.2.1, h.2.2.later hp hq⟩

theorem Expr.Regrown.refl (range : ∀ r ∈ e.rowRefs, r.node.index < b.size) : e.Regrown b p q e :=
  Renumbered.refl fun r hr => ⟨rfl, rfl, .known (range r hr)⟩

variable (hb : b.Linked M.catalog)

include hb

theorem bindRowMember_regrown (here : (Course.grown M.catalog b).together p q)
    (h : SameRows (SamePlace b p.forest q.forest) r r') : Alongside M (.grown M.catalog b) (Regrown b) p q
      (bindRowMember r name) (bindRowMember r' name) where
  run {e p'} hrun := by
    obtain ⟨hf, hg⟩ := here
    have twins := SamePlace.twins hb hf hg
    obtain ⟨fields, -⟩ := h.2.2.fieldAt? hb hf hg name
    suffices ∃ d q', Runs (bindRowMember r' name) M q d q' ∧ e.Regrown b p' q' d by
      obtain ⟨d, q', hrun', same⟩ := this
      have grown := bindMember_grown (t := .rowRef r) hrun hf.linked
      have grown' := bindMember_grown (t := .rowRef r') hrun' hg.linked
      exact ⟨d, q', hrun', ⟨hf.trans grown, hg.trans grown'⟩, grown.child, grown'.child, same⟩
    rcases Runs.bindRowMember_cases hrun with ⟨rfl, rfl, -⟩ | ⟨k, hk, rfl, rfl⟩ |
      ⟨owner, edge, k, forest, tally, single, known, declared, hfollow, rfl, rfl⟩
    · refine ⟨_, q, Runs.bindRowMember_stays_iff.2 ?_, .member (.row h) name⟩
      rw [twins.isCollection h.2.2, fields, (twins.node h.2.2).entity]
      exact Runs.bindRowMember_stays_iff.1 hrun
    · have hk : p.forest.fieldAt? r.node name = some k := hk
      have place : SamePlace b p.forest q.forest k k :=
        .known ((h.2.2.fieldAt? hb hf hg name).2 k hk)
      refine ⟨_, q, Runs.bindRowMember_field ?_ (fields.trans hk), twins.ref hf.linked hg.linked place⟩
      rw [twins.isCollection h.2.2]
      exact hrun.bindRowMember_single (by simp [Forest.ref])
    · have known' := (twins.node h.2.2).entity.trans known
      have single' := (twins.isCollection h.2.2).trans single
      have shallow := ((Runs.bindNavigation_iff declared hfollow).1
        ((Runs.bindRowMember_entity_iff hf.linked single known).1 hrun)).1
      cases hfollow' : q.forest.follow r'.node edge with
      | mk l forest' =>
        have hrun' := (Runs.bindRowMember_entity_iff hg.linked single' known').2
          ((Runs.bindNavigation_iff declared hfollow').2 ⟨twins.depth hf.linked hg.linked h.2.2 ▸ shallow, rfl, rfl⟩)
        have grown := bindMember_grown (t := .rowRef r) hrun hf.linked
        have grown' := bindMember_grown (t := .rowRef r') hrun' hg.linked
        refine ⟨_, _, hrun', ?_⟩
        exact (SamePlace.twins hb (hf.trans grown) (hg.trans grown')).ref grown.linked grown'.linked
          (h.2.2.follow hb hf hg known single (Catalog.navigation?_name declared ▸ declared) hfollow hfollow')

theorem bindMember_regrown (here : (Course.grown M.catalog b).together p q) (h : e.Regrown b p q d) :
    Alongside M (.grown M.catalog b) (Regrown b) p q (bindMember e name) (bindMember d name) := by
  have member : (e.member name).Regrown b p q (d.member name) := Renumbered.member h name
  obtain ⟨r, r', rfl, rfl, same⟩ | ⟨plain, head⟩ := Renumbered.cases h
  · exact bindRowMember_regrown hb here same
  · cases head with
    | record hfields =>
      refine .pure here ?_
      rcases lookup_of_fields hfields name with ⟨hv, hv'⟩ | ⟨v, v', hv, hv', same⟩ <;> rw [hv, hv']
      · exact member
      · exact same
    | rowRef _ => cases plain
    | _ => exact .pure here member

/-- Binding two nodes whose parts are bound alike. -/
theorem bind_layer {R : Progress → Progress → Expr → Expr → Prop} (plain : e.isRef = false)
    (older : ∀ {p q p' q' c d}, (Course.grown M.catalog b).after p p' → (Course.grown M.catalog b).after q q' →
      R p q c d → R p' q' c d)
    (step : ∀ {c d p q}, R p q c d → (Course.grown M.catalog b).together p q →
      Alongside M (.grown M.catalog b) (Regrown b) p q (bind c) (bind d))
    (head : SameHead (R p q) e d) (here : (Course.grown M.catalog b).together p q) :
    Alongside M (.grown M.catalog b) (Regrown b) p q (bind e) (bind d) := by
  have parts : Alongside M (.grown M.catalog b) (fun p q => SameHead (Regrown b p q)) p q (e.mapChildren bind)
      (d.mapChildren bind) :=
    .mapChildren (R := R) (S := Regrown b) (f := bind) (g := bind) older Regrown.later step head here
  rw [bind_eq, bind_eq]
  refine parts.bind fun hrun _ here _ _ same => ?_
  have rebuilt := Renumbered.of_head same ((Runs.mapChildren_sameHead hrun).isRef.trans plain)
  cases same with
  | member name ht => exact bindMember_regrown hb here ht
  | _ => exact .pure here rebuilt

/-- What is the same but for the numbers is bound to the same but for the numbers. -/
theorem bind_regrown (here : (Course.grown M.catalog b).together p q) (h : e.Regrown b p q d) :
    Alongside M (.grown M.catalog b) (Regrown b) p q (bind e) (bind d) := by
  induction e using children_induction generalizing d p q with
  | step e ih =>
    obtain ⟨r, r', rfl, rfl, same⟩ | ⟨plain, head⟩ := Renumbered.cases h
    · exact .pure here h
    · have head := head.on_children
      exact bind_layer (R := fun p q c c' => c ∈ e.children ∧ c.Regrown b p q c') hb plain
        (fun hp hq h => ⟨h.1, h.2.later hp hq⟩) (fun h here => ih _ h.1 here h.2) head here

end Binding

section Again

/-- A member of a row is bound again to what it has been bound to. -/
theorem bindRowMember_again (h : Runs (bindRowMember r name) M s e s₁) (hs : s.forest.Linked M.catalog)
    (hr : r.node.index < s.forest.size) (later : s₁.forest.Retains M.catalog p.forest)
    (hrun : Runs (bindRowMember r name) M p d p') : d = e ∧ p'.forest = p.forest := by
  have same {e' : Expr} {q : Progress} (again : Runs (bindRowMember r name) M p e' q) : d = e' ∧ p' = q :=
    Prod.mk.inj (Except.ok.inj (hrun.symm.trans again))
  have grown := bindMember_grown (t := .rowRef r) h hs
  have stays := (grown.toRetains.trans later).keeps.node hr
  rcases Runs.bindRowMember_cases h with ⟨rfl, rfl, -⟩ | ⟨k, hk, rfl, rfl⟩ |
    ⟨owner, edge, k, forest, tally, single, known, declared, hfollow, rfl, rfl⟩
  · have again : Runs (bindRowMember r name) M p (.member (.rowRef r) name) p := by
      refine Runs.bindRowMember_stays_iff.2 ((Runs.bindRowMember_stays_iff.1 h).imp stays.isCollection.trans ?_)
      exact fun ⟨hnone, types⟩ => ⟨later.field_none hs hr hnone, stays.entity.symm ▸ types⟩
    obtain ⟨rfl, rfl⟩ := same again
    exact ⟨rfl, rfl⟩
  · have hk : s.forest.fieldAt? r.node name = some k := hk
    have hfield := Option.filter_eq_some_iff.1 hk
    have range := (hs.of_child? hfield.1).1
    have again : Runs (bindRowMember r name) M p (p.forest.ref k) p := by
      refine Runs.bindRowMember_field (stays.isCollection.trans (h.bindRowMember_single (by simp [Forest.ref]))) ?_
      exact Option.filter_eq_some_iff.2 ⟨later.child hfield.1, (later.keeps.node range).field.symm ▸ hfield.2⟩
    obtain ⟨rfl, rfl⟩ := same again
    exact ⟨later.ref hs range, rfl⟩
  · obtain ⟨-, child⟩ := grown_follow hs known single (Catalog.navigation?_name declared ▸ declared) hfollow
    have run := (Runs.bindRowMember_entity_iff later.linked (stays.isCollection.trans single)
      (stays.entity.trans known)).1 hrun
    obtain ⟨-, rfl, rfl⟩ := (Runs.bindNavigation_iff declared (follow_of_child (later.child child))).1 run
    exact ⟨later.ref grown.linked (grown.linked.of_child? child).1, rfl⟩

end Again

section Substituting

variable {t v : Expr} {fields : List (String × Expr)}

theorem Expr.Regrown.trans {q' : Progress} (hq : q.forest.Linked c) (h : e.Regrown b p q d)
    (k : d.Regrown b q q' e₁) : e.Regrown b p q' e₁ :=
  Renumbered.comp h k fun _ _ _ h k => ⟨k.1.trans h.1, k.2.1.trans h.2.1, h.2.2.trans hq k.2.2⟩

variable (hb : b.Linked M.catalog) (here : (Course.grown M.catalog b).together p q)

include hb here

/-- Reading a field of what is bound alike to a record makes what the field alone is bound to. -/
theorem bind_field (ht : Alongside M (.grown M.catalog b) (Regrown b) p q (bind t) (bind (.record fields)))
    (hv : fields.lookup name = some v) (range : ∀ r ∈ v.rowRefs, r.node.index < b.size) :
    Alongside M (.grown M.catalog b) (Regrown b) p q (bind (.member t name)) (bind v) where
  run hrun := by
    rw [bind_member, Runs.bind_iff] at hrun
    obtain ⟨t', p₁, ht', hmember⟩ := hrun
    obtain ⟨u, q₁, hu, here₁, after, -, same⟩ := ht.run ht'
    -- The run of the record has one of the field in it, from where the fields before it have been bound.
    obtain ⟨_, q₀, -, head, hu⟩ := hu.bind_parts here.2.linked
    cases head with
    | record hfields =>
    obtain ⟨rfl, rfl⟩ := Runs.pure_iff.1 hu
    rcases lookup_of_fields (R := fun c c' => c ∈ (Expr.record fields).children ∧ BoundBetween M q q₀ c c') hfields
      name with ⟨hnone, -⟩ | ⟨_, w, hv', hw, -, q₂, q₃, grown, hrunv, grown'⟩
    · cases hv.symm.trans hnone
    obtain rfl := Option.some.inj (hv.symm.trans hv')
    obtain ⟨w', q', hrun', here', -, after', same'⟩ :=
      (bind_regrown hb ⟨here.2.trans grown, here.2⟩ (Regrown.refl range)).run hrunv
    obtain ⟨_, _, -, ⟨⟩, -⟩ | ⟨-, head⟩ := Renumbered.cases same
    cases head with
    | record hfields' =>
    rcases lookup_of_fields hfields' name with ⟨-, hnone⟩ | ⟨z, _, hz, hw', same₁⟩
    · cases hw.symm.trans hnone
    obtain rfl := Option.some.inj (hw.symm.trans hw')
    obtain ⟨heq, rfl⟩ := Runs.pure_iff.1 hmember
    rw [hz] at heq
    obtain rfl := heq
    exact ⟨w', q', hrun', ⟨here₁.1, here'.2⟩, after, after',
      Regrown.trans here₁.2.linked same₁ (same'.later grown'.child id)⟩

omit hb in
/-- A member of what is bound alike to a row is the one that this row's member has been bound to. -/
theorem bind_row (ht : Alongside M (.grown M.catalog b) (Regrown b) p q (bind t) (bind (.rowRef r)))
    (h : Runs (bindRowMember r name) M s e s₁) (hs : s.forest.Linked M.catalog)
    (hr : r.node.index < s.forest.size) (later : s₁.forest.Retains M.catalog b) :
    Alongside M (.grown M.catalog b) (Regrown b) p q (bind (.member t name)) (bind e) where
  run {d p'} hrun := by
    rw [bind_member, Runs.bind_iff] at hrun
    obtain ⟨t', p₁, ht', hmember⟩ := hrun
    obtain ⟨u, q₁, hu, here₁, after, after', same⟩ := ht.run ht'
    obtain ⟨rfl, rfl⟩ := Runs.pure_iff.1 hu
    have grown := bindMember_grown (t := .rowRef r) h hs
    have known : r.node.index < b.size := Nat.lt_of_lt_of_le hr (grown.toRetains.trans later).keeps.size
    obtain ⟨⟨_, _, _⟩, _, rfl, ⟨⟩, rfl, rfl, place⟩ | ⟨plain, head⟩ := Renumbered.cases same
    · obtain rfl := place.flip.eq_of_known known
      obtain ⟨rfl, hforest⟩ := bindRowMember_again h hs hr (later.trans here₁.1.toRetains) hmember
      have bound : d.Bound M s₁.forest := by
        refine bind_bound (e := .member (.rowRef r) name) ?_ hs (List.forall_mem_singleton.2 hr)
        rwa [bind_member, bind_rowRef, pure_bind]
      have again : Runs (bind d) M q d q := bound.again (later.trans here.2.toRetains).toSteady
      refine ⟨d, q, again, ⟨hforest ▸ here₁.1, here.2⟩, fun hk => hforest ▸ after hk, id, ?_⟩
      exact Regrown.refl fun ref href => Nat.lt_of_lt_of_le (bound.range ref href) later.keeps.size
    · rw [← head.isRef] at plain
      cases plain

/-- A member of what is bound alike to what the target has been bound to, with a row put for a parameter. -/
theorem bindMember_substituted (hr : r.node.index < b.size)
    (ht : Alongside M (.grown M.catalog b) (Regrown b) p q (bind t) (bind (v.substitute x (.rowRef r))))
    (h : Runs (bindMember v name) M s e₁ s₁) (hs : s.forest.Linked M.catalog)
    (range : ∀ r ∈ v.rowRefs, r.node.index < s.forest.size) (later : s₁.forest.Retains M.catalog b) :
    Alongside M (.grown M.catalog b) (Regrown b) p q (bind (.member t name))
      (bind (e₁.substitute x (.rowRef r))) := by
  have stays : Alongside M (.grown M.catalog b) (Regrown b) p q (bind (.member t name))
      (bind ((Expr.member v name).substitute x (.rowRef r))) := by
    rw [show (Expr.member v name).substitute x (.rowRef r) = .member (v.substitute x (.rowRef r)) name from
      substitute_of_none rfl, bind_member, bind_member]
    exact ht.bind fun _ _ here _ _ same => bindMember_regrown hb here same
  have there : s.forest.size ≤ b.size := (bindMember_grown h hs).toRetains.trans later |>.keeps.size
  cases v with
  | record fields =>
    obtain ⟨rfl, rfl⟩ := Runs.pure_iff.1 h
    cases hv : fields.lookup name with
    | none => exact stays
    | some v =>
      have rebuilt : SameHead (fun c c' => c ∈ (Expr.record fields).children ∧ c' = c.substitute x (.rowRef r))
          (.record fields) ((Expr.record fields).substitute x (.rowRef r)) := by
        rw [substitute_of_none rfl]
        exact SameHead.of_map _ _
      generalize (Expr.record fields).substitute x (.rowRef r) = u at ht rebuilt
      cases rebuilt with
      | record hfields =>
      rcases lookup_of_fields (R := fun c c' => c ∈ (Expr.record fields).children ∧ c' = c.substitute x (.rowRef r))
        hfields name with ⟨hnone, -⟩ | ⟨_, v', hw, hv', hc, rfl⟩
      · cases hv.symm.trans hnone
      obtain rfl := Option.some.inj (hv.symm.trans hw)
      refine bind_field hb here ht hv' (forall_rowRefs_substitute hr fun ref href => ?_)
      exact Nat.lt_of_lt_of_le (range ref (mem_rowRefs_of_child hc href)) there
  | rowRef ref =>
    have closed : x ∉ e₁.freeParams := by
      rcases Runs.bindRowMember_cases h with ⟨rfl, -⟩ | ⟨_, -, rfl, -⟩ | ⟨_, _, _, _, _, -, -, -, -, -, rfl⟩ <;>
        simp [freeParams, Forest.ref]
    rw [substitute_of_not_mem closed]
    exact bind_row here ht h hs (range ref (List.mem_singleton_self ref)) later
  | _ =>
    obtain ⟨rfl, rfl⟩ := Runs.pure_iff.1 h
    exact stays

/-- A row can be put for a parameter after the expression has been bound, too: binding it once more makes the same,
but for the numbers, as binding it once. -/
theorem bind_substituted (hr : r.node.index < b.size) (h : Runs (bind e) M s e₁ s₁) (hs : s.forest.Linked M.catalog)
    (range : ∀ r ∈ e.rowRefs, r.node.index < s.forest.size) (later : s₁.forest.Retains M.catalog b) :
    Alongside M (.grown M.catalog b) (Regrown b) p q (bind (e.substitute x (.rowRef r)))
      (bind (e₁.substitute x (.rowRef r))) := by
  induction e using children_induction generalizing x s e₁ s₁ p q with
  | step e ih =>
    obtain ⟨e', s', grown, head, hnode⟩ := h.bind_parts hs
    have grown' : s'.forest.GrowsTo M.catalog s₁.forest := by
      unfold bindNode at hnode
      split at hnode
      · exact bindMember_grown hnode grown.linked
      · obtain ⟨-, rfl⟩ := Runs.pure_iff.1 hnode
        exact .refl grown.linked
    have parts : SameHead (fun c c' => (∀ ref ∈ c'.rowRefs, ref.node.index < s'.forest.size) ∧
        ∀ {x p q}, (Course.grown M.catalog b).together p q → Alongside M (.grown M.catalog b) (Regrown b) p q
          (bind (c.substitute x (.rowRef r))) (bind (c'.substitute x (.rowRef r)))) e e' := by
      refine head.mono fun c c' ran => ?_
      obtain ⟨hc, s₂, s₃, before, hrun, after⟩ := ran
      have range : ∀ ref ∈ c.rowRefs, ref.node.index < s₂.forest.size := fun ref href =>
        Nat.lt_of_lt_of_le (range ref (mem_rowRefs_of_child hc href)) before.keeps.size
      refine ⟨fun ref href => ?_, fun here => ?_⟩
      · exact Nat.lt_of_lt_of_le ((bind_bound hrun before.linked range).range ref href) after.keeps.size
      · exact ih c hc here hrun before.linked range ((after.trans grown').toRetains.trans later)
    have refs : ∀ ref ∈ e₁.rowRefs, ref.node.index < b.size := fun ref href =>
      Nat.lt_of_lt_of_le ((bind_bound h hs range).range ref href) later.keeps.size
    have layer {u v : Expr} (plain : u.isRef = false) (head : SameHead (fun c c' => ∀ {p q},
        (Course.grown M.catalog b).together p q → Alongside M (.grown M.catalog b) (Regrown b) p q (bind c) (bind c'))
        u v) : Alongside M (.grown M.catalog b) (Regrown b) p q (bind u) (bind v) :=
      bind_layer (R := fun _ _ c c' => ∀ {p q}, (Course.grown M.catalog b).together p q →
        Alongside M (.grown M.catalog b) (Regrown b) p q (bind c) (bind c')) hb plain (fun _ _ => id) (fun h => h) head here
    have rebuilt := SameHead.map (S := fun c c' => ∀ {p q}, (Course.grown M.catalog b).together p q →
      Alongside M (.grown M.catalog b) (Regrown b) p q (bind c) (bind c')) (fun c => c.substitute x (.rowRef r)) parts
      fun _ _ h => h.2
    cases parts with
    | param y =>
      obtain ⟨rfl, rfl⟩ := Runs.pure_iff.1 hnode
      rw [substitute_param]
      split
      · exact .pure here (Regrown.refl (List.forall_mem_singleton.2 hr))
      · exact .pure here (Regrown.refl refs)
    | entitySet _ | const _ | rowRef _ =>
      obtain ⟨rfl, rfl⟩ := Runs.pure_iff.1 hnode
      rw [substitute_of_none rfl]
      exact .pure here (Regrown.refl refs)
    | @lambda body body' params hbody =>
      obtain ⟨rfl, rfl⟩ := Runs.pure_iff.1 hnode
      rw [substitute_lambda, substitute_lambda]
      split
      · -- The parameter is another one in the body, where some name stands for none.
        obtain ⟨y, hy⟩ := Infinite.exists_notMem_finset (body.names ++ body'.names).toFinset
        obtain ⟨hy, hy'⟩ : y ∉ body.names ∧ y ∉ body'.names := by simpa using hy
        refine layer rfl (.lambda params fun here => ?_)
        have same := hbody.2 (x := y) here
        rwa [substitute_of_not_mem (mt mem_names_of_mem_freeParams hy),
          substitute_of_not_mem (mt mem_names_of_mem_freeParams hy')] at same
      · exact layer rfl (.lambda params hbody.2)
    | @member t t' name ht =>
      have sub : (Expr.member t name).substitute x (.rowRef r) = .member (t.substitute x (.rowRef r)) name :=
        substitute_of_none rfl
      rw [sub]
      exact bindMember_substituted hb here hr (ht.2 here) hnode grown.linked ht.1 later
    | _ =>
      obtain ⟨rfl, rfl⟩ := Runs.pure_iff.1 hnode
      rw [substitute_of_none rfl, substitute_of_none rfl]
      exact layer rfl rebuilt

end Substituting

end EntityQuery
